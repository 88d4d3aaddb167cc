import Opticon.Lib.Decimal
import Opticon.Lib.EndAround

/-! The echo requests that are sent, and their checksum (`ping.c`). -/

namespace Opticon

/-- The loops of `ping_checksum`: the words of the buffer, and the last byte if it has no pair. -/
def pingSum (sum : BitVec 32) : List UInt8 → BitVec 32
  | a :: b :: rest => pingSum (sum + BitVec.ofNat 32 (a.toNat + 256 * b.toNat)) rest
  | [a] => sum + BitVec.ofNat 32 a.toNat
  | [] => sum

/-- Calculates checksum for an icmp packet. -/
def pingChecksum (buf : List UInt8) : BitVec 16 :=
  let sum := pingSum 0 buf
  let sum := (sum >>> 16) + (sum &&& 0xffff)
  let sum := sum + (sum >>> 16)
  (~~~sum).setWidth 16

def wordBytes16 (x : BitVec 16) : List UInt8 := [UInt8.ofNat (x.toNat % 256), UInt8.ofNat (x.toNat / 256)]

/-- The bytes behind the header: "o6pingv4" again and again. -/
def echoFill : List UInt8 := (List.range 56).map fun i => (asc "o6pingv4").getD (i % 8) 0

/-- The packet of the sender, with a checksum. -/
def echoPacket (seq : BitVec 32) (cksum : BitVec 16) : List UInt8 :=
  ([8, 0] : List UInt8) ++ wordBytes16 cksum ++ wordBytes16 ((seq >>> 16).setWidth 16) ++
    wordBytes16 (seq.setWidth 16) ++ echoFill

def echoRequest (seq : BitVec 32) : List UInt8 := echoPacket seq (pingChecksum (echoPacket seq 0))

/-! ## The sum of the words -/

/-- The words of a buffer, low byte first. -/
def bufWords : List UInt8 → List ℕ
  | a :: b :: rest => (a.toNat + 256 * b.toNat) :: bufWords rest
  | [a] => [a.toNat]
  | [] => []

theorem bufWords_append {l r : List UInt8} (hl : l.length % 2 = 0) :
    bufWords (l ++ r) = bufWords l ++ bufWords r := by
  induction l using bufWords.induct with
  | case1 a b rest ih =>
    have hrest : rest.length % 2 = 0 := by
      rw [List.length_cons, List.length_cons] at hl
      omega
    rw [List.cons_append, List.cons_append, bufWords, bufWords, List.cons_append, ih hrest]
  | case2 a => cases hl
  | case3 => rfl

theorem sum_bufWords_le (buf : List UInt8) : (bufWords buf).sum ≤ 65535 * ((buf.length + 1) / 2) := by
  induction buf using bufWords.induct with
  | case1 a b rest ih =>
    have := a.toNat_lt
    have := b.toNat_lt
    simp only [bufWords, List.sum_cons, List.length_cons]
    omega
  | case2 a =>
    have := a.toNat_lt
    simp only [bufWords, List.sum_cons, List.sum_nil, List.length_cons, List.length_nil]
    omega
  | case3 => simp [bufWords]

theorem toNat_pingSum {buf : List UInt8} {sum : BitVec 32} (h : sum.toNat + (bufWords buf).sum < 2 ^ 32) :
    (pingSum sum buf).toNat = sum.toNat + (bufWords buf).sum := by
  induction buf using bufWords.induct generalizing sum with
  | case1 a b rest ih =>
    simp only [bufWords, List.sum_cons] at h ⊢
    have hadd : (sum + BitVec.ofNat 32 (a.toNat + 256 * b.toNat)).toNat =
        sum.toNat + (a.toNat + 256 * b.toNat) := by
      rw [BitVec.toNat_add, BitVec.toNat_ofNat]
      omega
    rw [pingSum, ih (by rw [hadd]; omega), hadd]
    omega
  | case2 a =>
    simp only [bufWords, List.sum_cons, List.sum_nil] at h ⊢
    rw [pingSum, BitVec.toNat_add, BitVec.toNat_ofNat]
    omega
  | case3 => rw [pingSum, bufWords, List.sum_nil, Nat.add_zero]

/-- The checksum is what a sum of words lacks, its carries added in. -/
theorem toNat_pingChecksum {buf : List UInt8} (hlen : buf.length ≤ 2 ^ 16) :
    (pingChecksum buf).toNat = 65535 - EndAround.fold 65536 (bufWords buf).sum := by
  have hle := sum_bufWords_le buf
  have hsum : (pingSum 0 buf).toNat = (bufWords buf).sum := by
    have hzero : (0 : BitVec 32).toNat = 0 := rfl
    rw [toNat_pingSum (by rw [hzero]; omega), hzero, Nat.zero_add]
  generalize (bufWords buf).sum = s at hle hsum
  have hs : s < 65536 * 65536 := by omega
  have hmask : ((0xffff : BitVec 32)).toNat = 2 ^ 16 - 1 := rfl
  have hfirst : ((pingSum 0 buf >>> 16) + (pingSum 0 buf &&& 0xffff)).toNat = s / 65536 + s % 65536 := by
    rw [BitVec.toNat_add, BitVec.toNat_ushiftRight, BitVec.toNat_and, hmask, Nat.and_two_pow_sub_one_eq_mod,
      hsum, Nat.shiftRight_eq_div_pow]
    omega
  rw [pingChecksum]
  generalize (pingSum 0 buf >>> 16) + (pingSum 0 buf &&& 0xffff) = t at hfirst
  simp only [BitVec.toNat_setWidth, BitVec.toNat_not, BitVec.toNat_add, BitVec.toNat_ushiftRight, hfirst,
    Nat.shiftRight_eq_div_pow, EndAround.fold, EndAround.around]
  omega

theorem sum_lt {buf : List UInt8} (hlen : buf.length ≤ 2 ^ 16) : (bufWords buf).sum < 65536 * 65536 := by
  have hle := sum_bufWords_le buf
  omega

/-- A packet that checks. -/
theorem pingChecksum_eq_zero {buf : List UInt8} (hlen : buf.length ≤ 2 ^ 16) :
    pingChecksum buf = 0 ↔ EndAround.fold 65536 (bufWords buf).sum = 65536 - 1 := by
  have hlt := EndAround.fold_lt (by decide : 1 < 65536) (sum_lt hlen)
  rw [← BitVec.toNat_inj, toNat_pingChecksum hlen]
  change 65535 - _ = 0 ↔ _
  omega

/-- A word in the middle of a buffer. -/
theorem sum_word {l r : List UInt8} (hl : l.length % 2 = 0) (a b : UInt8) :
    (bufWords (l ++ a :: b :: r)).sum =
      ((bufWords l).sum + (bufWords r).sum) + (a.toNat + 256 * b.toNat) := by
  rw [bufWords_append hl, bufWords, List.sum_append, List.sum_cons]
  omega

theorem wordBytes16_word (x : BitVec 16) : ∃ a b : UInt8, wordBytes16 x = [a, b] ∧
    a.toNat + 256 * b.toNat = x.toNat := by
  have hx := x.isLt
  refine ⟨_, _, rfl, ?_⟩
  rw [UInt8.toNat_ofNat', UInt8.toNat_ofNat']
  omega

/-- The checksum of a packet with zeros in its place makes it check. -/
theorem checksum_completes {l r : List UInt8} (hl : l.length % 2 = 0)
    (hlen : (l ++ 0 :: 0 :: r).length ≤ 2 ^ 16) :
    pingChecksum (l ++ wordBytes16 (pingChecksum (l ++ 0 :: 0 :: r)) ++ r) = 0 := by
  obtain ⟨a, b, hab, hword⟩ := wordBytes16_word (pingChecksum (l ++ 0 :: 0 :: r))
  have hlen' : (l ++ a :: b :: r).length ≤ 2 ^ 16 := by simpa using hlen
  have hbuf : l ++ [a, b] ++ r = l ++ a :: b :: r := by simp
  have hzero : (bufWords (l ++ 0 :: 0 :: r)).sum = (bufWords l).sum + (bufWords r).sum := sum_word hl 0 0
  rw [toNat_pingChecksum hlen, hzero] at hword
  have hlt := sum_lt hlen'
  rw [hab, hbuf, pingChecksum_eq_zero hlen']
  rw [sum_word hl, hword] at hlt ⊢
  exact EndAround.fold_completed (by decide) hlt

theorem length_echoPacket (seq : BitVec 32) (cksum : BitVec 16) : (echoPacket seq cksum).length = 64 := by
  simp [echoPacket, wordBytes16, echoFill]

/-- The echo request that is sent checks, and what it becomes by a change of one word does not, unless
one of the two words that count as nothing takes the place of the other. -/
theorem echo_request_checks (seq : BitVec 32) : pingChecksum (echoRequest seq) = 0 ∧
    ∀ (l r : List UInt8) (a b a' b' : UInt8), l.length % 2 = 0 → echoRequest seq = l ++ a :: b :: r →
      pingChecksum (l ++ a' :: b' :: r) = 0 → (a' = a ∧ b' = b) ∨
        (a = 0 ∧ b = 0 ∧ a' = 255 ∧ b' = 255) ∨ (a = 255 ∧ b = 255 ∧ a' = 0 ∧ b' = 0) := by
  have hown : pingChecksum (echoRequest seq) = 0 := by
    have hcompletes := @checksum_completes ([8, 0] : List UInt8) (wordBytes16 ((seq >>> 16).setWidth 16) ++
      wordBytes16 (seq.setWidth 16) ++ echoFill) rfl (by simp [wordBytes16, echoFill])
    have hzeros : ([8, 0] : List UInt8) ++ (0 : UInt8) :: 0 :: (wordBytes16 ((seq >>> 16).setWidth 16) ++
        wordBytes16 (seq.setWidth 16) ++ echoFill) = echoPacket seq 0 := by simp [echoPacket, wordBytes16]
    rw [hzeros] at hcompletes
    rw [echoRequest, echoPacket]
    simpa only [List.append_assoc] using hcompletes
  refine ⟨hown, fun l r a b a' b' hl hsplit hchecks => ?_⟩
  have hlen : (l ++ a :: b :: r).length ≤ 2 ^ 16 := by
    rw [← hsplit, echoRequest, length_echoPacket]
    decide
  have hlen' : (l ++ a' :: b' :: r).length ≤ 2 ^ 16 := by simpa using hlen
  rw [hsplit, pingChecksum_eq_zero hlen] at hown
  rw [pingChecksum_eq_zero hlen'] at hchecks
  have hlt := sum_lt hlen
  have hlt' := sum_lt hlen'
  rw [sum_word hl] at hown hchecks hlt hlt'
  have ha := a.toNat_lt
  have hb := b.toNat_lt
  have ha' := a'.toNat_lt
  have hb' := b'.toNat_lt
  have hdigits := EndAround.completing_digits (by decide) (by omega) (by omega) hlt hlt' hown hchecks
  simp only [← UInt8.toNat_inj]
  change _ ∨ (a.toNat = 0 ∧ b.toNat = 0 ∧ a'.toNat = 255 ∧ b'.toNat = 255) ∨
    (a.toNat = 255 ∧ b.toNat = 255 ∧ a'.toNat = 0 ∧ b'.toNat = 0)
  omega

/-- An echo request that comes as one of type 0. -/
theorem echo_request_checks_first : pingChecksum (echoRequest 1) = 0 ∧
    pingChecksum (0 :: 0 :: (echoRequest 1).drop 2) ≠ 0 := by
  obtain ⟨hown, hword⟩ := echo_request_checks 1
  refine ⟨hown, fun hchecks => ?_⟩
  have hzero := hword [] ((echoRequest 1).drop 2) 8 0 0 0 rfl rfl hchecks
  revert hzero
  decide

end Opticon
