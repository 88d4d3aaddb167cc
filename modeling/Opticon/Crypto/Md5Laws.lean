import Mathlib.Tactic.IntervalCases
import Opticon.Crypto.Md5

/-! The digest of a message that is hashed in pieces is that of the message, in words of 32 bits. -/

namespace Opticon

open BlockStream

/-! ## The digest in words of 32 bits -/

def Md5State.narrow (v : Md5State 64) : Md5State 32 :=
  ⟨v.a.setWidth 32, v.b.setWidth 32, v.c.setWidth 32, v.d.setWidth 32⟩

def digestInit : Md5State 32 := ⟨0x67452301, 0xEFCDAB89, 0x98BADCFE, 0x10325476⟩

/-- The little-endian word at an offset. -/
def wordAt (b : List UInt8) (i : ℕ) : BitVec 32 :=
  let byte (j : ℕ) : BitVec 32 := (b.getD (i + j) 0).toBitVec.setWidth 32
  byte 0 ||| byte 1 <<< 8 ||| byte 2 <<< 16 ||| byte 3 <<< 24

def wordBytes (x : BitVec 32) : List UInt8 := (List.range 4).map fun i => ⟨(x >>> (8 * i)).setWidth 8⟩

def digestStep (F : BitVec 32 → BitVec 32 → BitVec 32 → BitVec 32) (X : ℕ → BitVec 32)
    (v : Md5State 32) (kst : ℕ × ℕ × ℕ) : Md5State 32 where
  a := v.d
  b := (v.a + (F v.b v.c v.d + X kst.1 + BitVec.ofNat 32 kst.2.2)).rotateLeft kst.2.1 + v.b
  c := v.b
  d := v.c

def digestBlock (state : Md5State 32) (block : List UInt8) : Md5State 32 :=
  let X (k : ℕ) : BitVec 32 := wordAt block (4 * k)
  let v := md5Round1.foldl (digestStep md5F1 X) state
  let v := md5Round2.foldl (digestStep md5F2 X) v
  let v := md5Round3.foldl (digestStep md5F3 X) v
  let v := md5Round4.foldl (digestStep md5F4 X) v
  ⟨state.a + v.a, state.b + v.b, state.c + v.c, state.d + v.d⟩

/-- The number of bits of a message, in eight bytes. -/
def lengthBytes (length : ℕ) : List UInt8 :=
  (List.range 8).map fun i => ⟨(BitVec.ofNat 64 (8 * length) >>> (8 * i)).setWidth 8⟩

/-- A one bit, and zeros up to eight bytes before the end of a block. -/
def paddingBytes (length : ℕ) : List UInt8 :=
  0x80 :: List.replicate ((119 - length % 64) % 64) 0

def messageDigest (msg : List UInt8) : List UInt8 :=
  let padded := msg ++ paddingBytes msg.length ++ lengthBytes msg.length
  let v := whole 64 digestBlock digestInit padded
  wordBytes v.a ++ wordBytes v.b ++ wordBytes v.c ++ wordBytes v.d

/-! ## Words of 64 bits -/

theorem setWidth_low (x : BitVec 64) (n : ℕ) :
    ((x &&& 0xFFFFFFFF) >>> n).setWidth 32 = x.setWidth 32 >>> n := by
  apply BitVec.eq_of_toNat_eq
  have h : (0xFFFFFFFF : BitVec 64).toNat = 2 ^ 32 - 1 := rfl
  simp only [BitVec.toNat_setWidth, BitVec.toNat_ushiftRight, BitVec.toNat_and, h,
    Nat.and_two_pow_sub_one_eq_mod, Nat.shiftRight_eq_div_pow]
  exact Nat.mod_eq_of_lt ((Nat.div_le_self _ _).trans_lt (Nat.mod_lt _ (by decide)))
theorem setWidth_md5S (x : BitVec 64) {n : ℕ} (hn : n < 32) :
    (md5S x n).setWidth 32 = (x.setWidth 32).rotateLeft n := by
  rw [md5S, BitVec.setWidth_or, setWidth_low, BitVec.rotateLeft_def, Nat.mod_eq_of_lt hn]
  simp
theorem putUint32_eq (n : BitVec 64) : putUint32 n = wordBytes (n.setWidth 32) := by
  refine List.map_congr_left fun i hi => ?_
  have hi : i < 4 := List.mem_range.mp hi
  congr 1
  apply BitVec.eq_of_getLsbD_eq
  intro j hj
  have hlt : 8 * i + j < 32 := by omega
  simp [hj, hlt]
theorem narrow_round {F : BitVec 64 → BitVec 64 → BitVec 64 → BitVec 64} {G : BitVec 32 → BitVec 32 → BitVec 32 → BitVec 32}
    (hF : ∀ x y z, (F x y z).setWidth 32 = G (x.setWidth 32) (y.setWidth 32) (z.setWidth 32))
    (data : List UInt8) {l : List (ℕ × ℕ × ℕ)} (hl : ∀ kst ∈ l, kst.2.1 < 32) (v : Md5State 64) :
    (l.foldl (md5P F fun k => getUint32 data (4 * k)) v).narrow =
      l.foldl (digestStep G fun k => wordAt data (4 * k)) v.narrow := by
  induction l generalizing v with
  | nil => rfl
  | cons kst l ih =>
    obtain ⟨hs, hl⟩ := List.forall_mem_cons.mp hl
    rw [List.foldl_cons, List.foldl_cons, ih hl]
    congr 1
    have hword : (getUint32 data (4 * kst.1)).setWidth 32 = wordAt data (4 * kst.1) := by
      simp [getUint32, wordAt, BitVec.setWidth_or]
    simp [md5P, digestStep, Md5State.narrow, BitVec.setWidth_add, setWidth_md5S _ hs, hF, hword,
      BitVec.setWidth_ofNat_of_le]
theorem narrow_process (state : Md5State 64) (data : List UInt8) :
    (md5Process state data).narrow = digestBlock state.narrow data := by
  have h (v : Md5State 64) : Md5State.narrow ⟨state.a + v.a, state.b + v.b, state.c + v.c, state.d + v.d⟩ =
      ⟨state.narrow.a + v.narrow.a, state.narrow.b + v.narrow.b, state.narrow.c + v.narrow.c,
        state.narrow.d + v.narrow.d⟩ := by
    simp [Md5State.narrow, BitVec.setWidth_add]
  rw [md5Process, h, digestBlock]
  have h1 : ∀ x y z : BitVec 64, (md5F1 x y z).setWidth 32 =
    md5F1 (x.setWidth 32) (y.setWidth 32) (z.setWidth 32) := by simp [md5F1, BitVec.setWidth_and, BitVec.setWidth_xor]
  have h2 : ∀ x y z : BitVec 64, (md5F2 x y z).setWidth 32 =
    md5F2 (x.setWidth 32) (y.setWidth 32) (z.setWidth 32) := by simp [md5F2, BitVec.setWidth_and, BitVec.setWidth_xor]
  have h3 : ∀ x y z : BitVec 64, (md5F3 x y z).setWidth 32 =
    md5F3 (x.setWidth 32) (y.setWidth 32) (z.setWidth 32) := by simp [md5F3, BitVec.setWidth_xor]
  have h4 : ∀ x y z : BitVec 64, (md5F4 x y z).setWidth 32 =
    md5F4 (x.setWidth 32) (y.setWidth 32) (z.setWidth 32) := by simp [md5F4, BitVec.setWidth_or, BitVec.setWidth_xor]
  rw [narrow_round h4 data (by decide), narrow_round h3 data (by decide), narrow_round h2 data (by decide), narrow_round h1 data (by decide)]

/-! ## A message in pieces -/

/-- What a context has come to, after a message. -/
structure Absorbed (ctx : Md5Context) (msg : List UInt8) : Prop where
  length_buffer : ctx.buffer.length = 64
  total0 : ctx.total0 = BitVec.ofNat 64 (msg.length % 2 ^ 32)
  total1 : ctx.total1 = BitVec.ofNat 64 (msg.length / 2 ^ 32)
  state : ctx.state.narrow = whole 64 digestBlock digestInit msg
  buffer : ctx.buffer.take (msg.length % 64) = rest 64 msg

theorem absorbed_begin {ctx : Md5Context} (h : ctx.buffer.length = 64) : Absorbed (md5Begin ctx) [] :=
  ⟨h, rfl, rfl, rfl, rfl⟩

theorem length_memcpy {buffer input : List UInt8} {left : ℕ} (h : left + input.length ≤ buffer.length) :
    (memcpy buffer left input).length = buffer.length := by
  simp only [memcpy, List.length_append, List.length_take, List.length_drop]
  omega

theorem take_memcpy {buffer input : List UInt8} {left : ℕ} (h : left ≤ buffer.length) :
    (memcpy buffer left input).take (left + input.length) = buffer.take left ++ input := by
  have hlen : (buffer.take left ++ input).length = left + input.length := by
    rw [List.length_append, List.length_take, Nat.min_eq_left h]
  rw [memcpy, List.take_append_of_le_length hlen.ge, ← hlen, List.take_length]

theorem memcpy_full {buffer input : List UInt8} {left : ℕ} (h : left + input.length = buffer.length) :
    memcpy buffer left input = buffer.take left ++ input := by
  rw [memcpy, h, List.drop_length, List.append_nil]

/-- What the end of a piece leaves in the buffer. -/
theorem length_kept {buffer tail : List UInt8} {left : ℕ} (h : left + tail.length ≤ buffer.length) :
    (if tail = [] then buffer else memcpy buffer left tail).length = buffer.length := by
  split
  · rfl
  · exact length_memcpy h

theorem take_kept {buffer tail : List UInt8} {left : ℕ} (h : left ≤ buffer.length) :
    (if tail = [] then buffer else memcpy buffer left tail).take (left + tail.length) =
      buffer.take left ++ tail := by
  split
  · rename_i hnil
    simp [hnil]
  · exact take_memcpy h

theorem narrow_whole (v : Md5State 64) (l : List UInt8) :
    (whole 64 md5Process v l).narrow = whole 64 digestBlock v.narrow l :=
  map_whole (fun v b _ => narrow_process v b) v l

namespace Absorbed

variable {ctx : Md5Context} {msg input : List UInt8}

theorem left (h : Absorbed ctx msg) : (ctx.total0 &&& 0x3F).toNat = msg.length % 64 := by
  have hmask : (0x3F : BitVec 64).toNat = 2 ^ 6 - 1 := rfl
  rw [h.total0, BitVec.toNat_and, hmask, Nat.and_two_pow_sub_one_eq_mod, BitVec.toNat_ofNat]
  omega

theorem total0_add (h : Absorbed ctx msg) (n : ℕ) :
    (ctx.total0 + BitVec.ofNat 64 n) &&& 0xFFFFFFFF = BitVec.ofNat 64 ((msg.length + n) % 2 ^ 32) := by
  have hmask : (0xFFFFFFFF : BitVec 64).toNat = 2 ^ 32 - 1 := rfl
  apply BitVec.eq_of_toNat_eq
  rw [h.total0, BitVec.toNat_and, hmask, Nat.and_two_pow_sub_one_eq_mod, BitVec.toNat_add,
    BitVec.toNat_ofNat, BitVec.toNat_ofNat, BitVec.toNat_ofNat]
  omega

theorem total1_add (h : Absorbed ctx msg) {n : ℕ} (hn : n < 2 ^ 32) :
    (if BitVec.ofNat 64 ((msg.length + n) % 2 ^ 32) < BitVec.ofNat 64 n then ctx.total1 + 1
      else ctx.total1) = BitVec.ofNat 64 ((msg.length + n) / 2 ^ 32) := by
  have hlt : BitVec.ofNat 64 ((msg.length + n) % 2 ^ 32) < BitVec.ofNat 64 n ↔
      (msg.length + n) % 2 ^ 32 < n := by
    rw [BitVec.lt_def, BitVec.toNat_ofNat, BitVec.toNat_ofNat]
    omega
  rw [h.total1]
  apply BitVec.eq_of_toNat_eq
  split
  · rename_i hcarry
    have := hlt.mp hcarry
    rw [BitVec.toNat_add, BitVec.toNat_ofNat, BitVec.toNat_ofNat, show (1 : BitVec 64).toNat = 1 from rfl]
    omega
  · rename_i hcarry
    have := mt hlt.mpr hcarry
    rw [BitVec.toNat_ofNat, BitVec.toNat_ofNat]
    omega

theorem md5Hash (h : Absorbed ctx msg) (hn : input.length < 2 ^ 32) :
    Absorbed (md5Hash ctx input) (msg ++ input) := by
  by_cases hnil : input = []
  · rw [Opticon.md5Hash, if_pos hnil, hnil, List.append_nil]
    exact h
  have hleft : msg.length % 64 < 64 := Nat.mod_lt _ (by decide)
  have hpending : (rest 64 msg).length = msg.length % 64 := length_rest 64 msg
  have htotal1 := h.total1_add hn
  rw [← h.total0_add input.length] at htotal1
  have htotal0 := h.total0_add input.length
  rw [← List.length_append] at htotal0 htotal1
  rw [Opticon.md5Hash, if_neg hnil, h.left]
  by_cases hfull : msg.length % 64 ≠ 0 ∧ 64 - msg.length % 64 ≤ input.length
  · simp only [if_pos hfull]
    -- the buffer is filled up to one more block
    have hfill : (input.take (64 - msg.length % 64)).length = 64 - msg.length % 64 := by
      rw [List.length_take]
      omega
    have hfilled : memcpy ctx.buffer (msg.length % 64) (input.take (64 - msg.length % 64)) =
        rest 64 msg ++ input.take (64 - msg.length % 64) := by
      rw [memcpy_full (by rw [hfill, h.length_buffer]; omega), h.buffer]
    have hblock : (rest 64 msg ++ input.take (64 - msg.length % 64)).length = 64 := by
      rw [List.length_append, hpending, hfill]
      omega
    have hinput : rest 64 msg ++ input = (rest 64 msg ++ input.take (64 - msg.length % 64)) ++
        input.drop (64 - msg.length % 64) := by
      rw [List.append_assoc, List.take_append_drop]
    have hrest : rest 64 (msg ++ input) = rest 64 (input.drop (64 - msg.length % 64)) := by
      rw [rest_append (by decide), hinput, rest_block (by decide) hblock]
    have hlen : (rest 64 (input.drop (64 - msg.length % 64))).length = (msg ++ input).length % 64 := by
      rw [← hrest, length_rest]
    have hkept : 0 + (rest 64 (input.drop (64 - msg.length % 64))).length ≤ 64 := by omega
    rw [hfilled]
    refine ⟨?_, htotal0, htotal1, ?_, ?_⟩
    · rw [length_kept (by rwa [hblock]), hblock]
    · rw [narrow_whole, narrow_process, h.state, whole_append (by decide), hinput,
        whole_block (by decide) hblock]
    · rw [← hlen, hrest]
      have htake := @take_kept (rest 64 msg ++ input.take (64 - msg.length % 64))
        (rest 64 (input.drop (64 - msg.length % 64))) 0 (Nat.zero_le _)
      simpa using htake
  · simp only [if_neg hfull]
    -- nothing was pending, or all of it still is
    have hstate : whole 64 digestBlock digestInit (msg ++ input) =
        whole 64 digestBlock (whole 64 digestBlock digestInit msg) input := by
      rw [whole_append (by decide)]
      obtain hzero | hshort := Decidable.not_and_iff_or_not.mp hfull
      · have hnone : rest 64 msg = [] := by
          rw [← List.length_eq_zero_iff, hpending]
          omega
        rw [hnone, List.nil_append]
      · have hlt : (rest 64 msg ++ input).length < 64 := by
          rw [List.length_append]
          omega
        rw [whole_of_lt hlt, whole_of_lt (show input.length < 64 by omega)]
    have hrest : rest 64 (msg ++ input) = rest 64 msg ++ rest 64 input := by
      rw [rest_append (by decide)]
      obtain hzero | hshort := Decidable.not_and_iff_or_not.mp hfull
      · have hnone : rest 64 msg = [] := by
          rw [← List.length_eq_zero_iff, hpending]
          omega
        rw [hnone, List.nil_append, List.nil_append]
      · rw [rest_of_lt (by rw [List.length_append]; omega), rest_of_lt (l := input) (by omega)]
    have hlen : (msg ++ input).length % 64 = msg.length % 64 + (rest 64 input).length := by
      rw [← length_rest, hrest, List.length_append, hpending]
    have hlt : (msg ++ input).length % 64 < 64 := Nat.mod_lt _ (by decide)
    have hbuffer : msg.length % 64 ≤ ctx.buffer.length := by rw [h.length_buffer]; omega
    refine ⟨?_, htotal0, htotal1, ?_, ?_⟩
    · rw [length_kept (by rw [h.length_buffer]; omega), h.length_buffer]
    · rw [narrow_whole, h.state, hstate]
    · rw [hlen, hrest, take_kept hbuffer, h.buffer]

/-- The number of bits, as it is put together from the two totals. -/
theorem lengthBytes_eq (h : Absorbed ctx msg) : putUint32 (ctx.total0 <<< 3) ++
    putUint32 (ctx.total0 >>> 29 ||| ctx.total1 <<< 3) = lengthBytes msg.length := by
  have hlow : (ctx.total0 <<< 3).toNat = msg.length % 2 ^ 32 * 8 := by
    rw [h.total0, BitVec.toNat_shiftLeft, BitVec.toNat_ofNat, Nat.shiftLeft_eq]
    omega
  have hhigh : (ctx.total0 >>> 29 ||| ctx.total1 <<< 3).toNat =
      msg.length / 2 ^ 32 * 8 % 2 ^ 64 + msg.length % 2 ^ 32 / 2 ^ 29 := by
    have height : msg.length / 2 ^ 32 * 8 % 2 ^ 64 = 2 ^ 3 * (msg.length / 2 ^ 32 % 2 ^ 61) := by omega
    have hor := Nat.two_pow_add_eq_or_of_lt (b := msg.length % 2 ^ 32 / 2 ^ 29) (i := 3) (by omega)
      (msg.length / 2 ^ 32 % 2 ^ 61)
    have htotal0 : (ctx.total0 >>> 29).toNat = msg.length % 2 ^ 32 / 2 ^ 29 := by
      rw [h.total0, BitVec.toNat_ushiftRight, BitVec.toNat_ofNat, Nat.shiftRight_eq_div_pow]
      omega
    have htotal1 : (ctx.total1 <<< 3).toNat = msg.length / 2 ^ 32 * 8 % 2 ^ 64 := by
      rw [h.total1, BitVec.toNat_shiftLeft, BitVec.toNat_ofNat, Nat.shiftLeft_eq]
      omega
    rw [BitVec.toNat_or, htotal0, htotal1, height, hor, Nat.or_comm]
  have hsplit : lengthBytes msg.length =
      ((List.range 4).map fun i => ⟨(BitVec.ofNat 64 (8 * msg.length) >>> (8 * i)).setWidth 8⟩) ++
        (List.range 4).map fun i =>
          ⟨(BitVec.ofNat 64 (8 * msg.length) >>> (8 * (4 + i))).setWidth 8⟩ := rfl
  rw [hsplit]
  congr 1
  all_goals
    refine List.map_congr_left fun i hi => ?_
    have hi : i < 4 := List.mem_range.mp hi
    congr 1
    apply BitVec.eq_of_toNat_eq
    simp only [BitVec.toNat_setWidth, BitVec.toNat_ushiftRight, BitVec.toNat_ofNat, hlow, hhigh,
      Nat.shiftRight_eq_div_pow]
    interval_cases i <;> omega

theorem padding_eq (length : ℕ) : md5Padding.take
    (if length % 64 < 56 then 56 - length % 64 else 120 - length % 64) = paddingBytes length := by
  have hlt : length % 64 < 64 := Nat.mod_lt _ (by decide)
  have hpad (k : ℕ) (hk : k ≤ 63) : md5Padding.take (k + 1) = 0x80 :: List.replicate k 0 := by
    rw [md5Padding, List.take_succ_cons, List.take_replicate, Nat.min_eq_left hk]
  rw [paddingBytes]
  split
  · rename_i hshort
    have hmod : (119 - length % 64) % 64 = 55 - length % 64 := by omega
    rw [hmod, ← hpad _ (by omega)]
    congr 1
    omega
  · have hmod : (119 - length % 64) % 64 = 119 - length % 64 := by omega
    rw [hmod, ← hpad _ (by omega)]
    congr 1
    omega

theorem md5End (h : Absorbed ctx msg) :
    (md5End ctx).1.buffer.length = 64 ∧ (md5End ctx).2 = messageDigest msg := by
  have hpad : (paddingBytes msg.length).length < 2 ^ 32 := by
    have : (119 - msg.length % 64) % 64 < 64 := Nat.mod_lt _ (by decide)
    simp only [paddingBytes, List.length_cons, List.length_replicate]
    omega
  have hlen : (lengthBytes msg.length).length < 2 ^ 32 := by simp [lengthBytes]
  have hall := (h.md5Hash hpad).md5Hash hlen
  have hstate := hall.state
  simp only [Opticon.md5End, h.left, h.lengthBytes_eq, padding_eq]
  refine ⟨hall.length_buffer, ?_⟩
  simp only [putUint32_eq, messageDigest, ← hstate, Md5State.narrow]

end Absorbed

/-- Hashed in whatever pieces, by words of 64 bits and over whatever was in the buffer, a message
gets the digest that it has as a whole. -/
theorem digest_pieces {ctx : Md5Context} (hbuffer : ctx.buffer.length = 64)
    {pieces : List (List UInt8)} (hlen : ∀ piece ∈ pieces, piece.length < 2 ^ 32) :
    (md5End (pieces.foldl md5Hash (md5Begin ctx))).1.buffer.length = 64 ∧
      (md5End (pieces.foldl md5Hash (md5Begin ctx))).2 = messageDigest pieces.flatten := by
  have h : ∀ (pieces : List (List UInt8)) (ctx : Md5Context) (msg : List UInt8),
      (∀ piece ∈ pieces, piece.length < 2 ^ 32) → Absorbed ctx msg →
        Absorbed (pieces.foldl md5Hash ctx) (msg ++ pieces.flatten) := by
    intro pieces
    induction pieces with
    | nil => exact fun ctx msg _ h => by simpa using h
    | cons piece pieces ih =>
      intro ctx msg hlen h
      obtain ⟨hpiece, hpieces⟩ := List.forall_mem_cons.mp hlen
      rw [List.foldl_cons, List.flatten_cons, ← List.append_assoc]
      exact ih _ _ hpieces (h.md5Hash hpiece)
  exact (h pieces _ [] hlen (absorbed_begin hbuffer)).md5End

theorem md5_digest (ctx : Md5Context) (hbuffer : ctx.buffer.length = 64) {pieces : List (List UInt8)}
    (hlen : ∀ piece ∈ pieces, piece.length < 2 ^ 32) :
    (md5End (pieces.foldl md5Hash (md5Begin ctx))).2 = messageDigest pieces.flatten :=
  (digest_pieces hbuffer hlen).2

/-- Two pieces, with other bytes in the buffer. -/
theorem md5_digest_pieces : (md5End ([[97], [98, 99]].foldl md5Hash
    (md5Begin ⟨0, 0, ⟨0, 0, 0, 0⟩, List.replicate 64 7⟩))).2 = messageDigest [97, 98, 99] :=
  md5_digest _ (by simp) (by decide)

example : messageDigest [97, 98, 99] =
    [0x90, 0x01, 0x50, 0x98, 0x3c, 0xd2, 0x4f, 0xb0, 0xd6, 0x96, 0x3f, 0x7d, 0x28, 0xe1, 0x7f, 0x72] := by
  decide +kernel

end Opticon
