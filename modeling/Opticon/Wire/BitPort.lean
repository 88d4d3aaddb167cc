import Opticon.Lib.BitStream
import Opticon.Wire.Ioport

/-! Writing and reading single bits through a port. -/

namespace Opticon

open BitStream

theorem bitmask_getLsbD {k : Nat} (hk : k ≤ 8) (j : Nat) :
    (bitmask k).getLsbD j = decide (j < k) := by
  by_cases hj : j < 8
  · revert k j
    decide
  · rw [BitVec.getLsbD_of_ge _ _ (by omega)]
    simp only [Bool.false_eq, decide_eq_false_iff_not]
    omega

namespace Ioport

/-- The bits that wait in the buffer for their byte to become full. -/
def pending (io : Ioport) : List Bool := (low 8 io.bitbuffer).take io.bitpos

structure Writable (io : Ioport) : Prop where
  bitpos_lt : io.bitpos < 8
  zero : ∀ j < 8 - io.bitpos, io.bitbuffer.getLsbD j = false

def bitsWritten (io : Ioport) : List Bool := bytes io.written ++ io.pending

end Ioport

theorem getLsbD_field (x : BitVec 8) {k : Nat} (hk : k ≤ 8) (s : Nat) {j : Nat} (hj : j < 8) :
    ((x &&& bitmask k) <<< s).getLsbD j =
      (decide (s ≤ j ∧ j - s < k) && x.getLsbD (j - s)) := by
  rw [BitVec.getLsbD_shiftLeft, BitVec.getLsbD_and, bitmask_getLsbD hk]
  by_cases h₁ : j < s
  · simp [h₁, Nat.not_le.mpr h₁]
  · simp [hj, h₁, Nat.not_lt.mp h₁, Bool.and_comm]

/-- A field of `k` bits put behind `p` bits that are already there. -/
theorem take_low_or (buf x : BitVec 8) {p k : Nat} (hpk : p + k ≤ 8)
    (hz : ∀ j < 8 - p, buf.getLsbD j = false) :
    (low 8 (buf ||| (x &&& bitmask k) <<< (8 - p - k))).take (p + k) =
      (low 8 buf).take p ++ low k x := by
  apply List.ext_getElem
  · simp; omega
  intro i h₁ h₂
  have hi : i < p + k := by simp at h₁; omega
  rw [List.getElem_take, getElem_low, BitVec.getLsbD_or, getLsbD_field x (by omega) _ (by omega),
    List.getElem_append]
  split
  · rename_i hip
    have hip : i < p := by simp at hip; omega
    have hout : ¬ (8 - p - k ≤ 8 - 1 - i ∧ 8 - 1 - i - (8 - p - k) < k) := by omega
    rw [List.getElem_take, getElem_low, decide_eq_false hout, Bool.false_and, Bool.or_false]
  · rename_i hip
    have hip : ¬ i < p := by simp at hip; omega
    have hin : 8 - p - k ≤ 8 - 1 - i ∧ 8 - 1 - i - (8 - p - k) < k := by omega
    have hidx : 8 - 1 - i - (8 - p - k) = k - 1 - (i - min p 8) := by omega
    rw [hz _ (by omega), getElem_low, decide_eq_true hin, Bool.true_and, Bool.false_or, hidx,
      List.length_take, length_low]

theorem ioportWriteBits_spec {io : Ioport} (hw : io.Writable) (d : BitVec 8) {n : Nat}
    (hn : n ≤ 8) :
    (ioportWriteBits io d n).2.Writable ∧
      (ioportWriteBits io d n).2.bitsWritten = io.bitsWritten ++ low n d ∧
      (ioportWriteBits io d n).1 = true ∧
      (ioportWriteBits io d n).2.unread = io.unread ∧
      (ioportWriteBits io d n).2.file = io.file := by
  obtain ⟨hp, hz⟩ := hw
  unfold ioportWriteBits
  simp only [if_neg (Nat.not_lt.mpr hn)]
  by_cases hlt : io.bitpos + n < 8
  · simp only [if_pos hlt, if_neg (Nat.not_lt.mpr (Nat.le_of_lt_succ hlt)), Nat.sub_self,
      BitVec.ushiftRight_zero]
    refine ⟨⟨hlt, ?_⟩, ?_, trivial, trivial, trivial⟩
    · intro j hj
      have hout : ¬ (8 - io.bitpos - n ≤ j ∧ j - (8 - io.bitpos - n) < n) := by
        simp only at hj
        omega
      rw [BitVec.getLsbD_or, hz j (by simp only at hj; omega),
        getLsbD_field d hn _ (by simp only at hj; omega), decide_eq_false hout, Bool.false_and,
        Bool.or_false]
    · simp only [Ioport.bitsWritten, Ioport.pending, take_low_or _ d (Nat.le_of_lt hlt) hz,
        List.append_assoc]
  · have hbits : n = (8 - io.bitpos) + (n - (8 - io.bitpos)) := by omega
    generalize n - (8 - io.bitpos) = bits₂ at hbits
    subst hbits
    have hfull := take_low_or io.bitbuffer (d >>> bits₂) (k := 8 - io.bitpos) (by omega) hz
    rw [List.take_of_length_le (by rw [length_low]; omega), Nat.sub_self] at hfull
    have hrest := take_low_or 0 d (p := 0) (k := bits₂) (by omega) (by simp)
    rw [if_neg hlt]
    simp only [Nat.add_sub_cancel_left, Nat.sub_self]
    rw [if_pos (by omega)]
    refine ⟨⟨by simp only; omega, ?_⟩, ?_, rfl, rfl, rfl⟩
    · intro j hj
      simp only at hj ⊢
      split
      · simp
      · rw [getLsbD_field d (by omega) _ (by omega),
          decide_eq_false (p := 8 - bits₂ ≤ j ∧ _) (by omega), Bool.false_and]
    · have hpend : (low 8 (if bits₂ = 0 then 0 else (d &&& bitmask bits₂) <<< (8 - bits₂))).take
          bits₂ = low bits₂ d := by
        split
        · rename_i h0
          simp [h0]
        · simpa using hrest
      simp only [Ioport.bitsWritten, Ioport.pending, bytes_append, bytes_cons, bytes_nil, hfull,
        hpend, low_append, List.append_assoc, List.append_nil]

/-- The bits a port still has to give: what is left of the byte it is in, and the bytes
behind that one. -/
def Ioport.remaining (io : Ioport) : List Bool :=
  (if io.bitpos = 0 then [] else (low 8 io.bitbuffer).drop io.bitpos) ++ bytes io.unread

theorem ioportRead_enough (io : Ioport) (data rest : List UInt8)
    (h : io.unread = data ++ rest) :
    ioportRead io data.length =
      (true, data, { io with unread := rest, bitpos := 0, bitbuffer := 0 }) := by
  simp [ioportRead, h]

theorem ioportReadByte_cons (io : Ioport) (b : UInt8) (rest : List UInt8)
    (h : io.unread = b :: rest) :
    ioportReadByte io = (b, { io with unread := rest, bitpos := 0, bitbuffer := 0 }) := by
  have hread := ioportRead_enough io [b] rest h
  simp only [List.length_singleton] at hread
  simp [ioportReadByte, hread]

theorem getLsbD_extract (x : BitVec 8) {k s : Nat} (hs : s + k ≤ 8) (j : Nat) :
    ((x &&& bitmask k <<< s) >>> s).getLsbD j = (decide (j < k) && x.getLsbD (s + j)) := by
  rw [BitVec.getLsbD_ushiftRight, BitVec.getLsbD_and, BitVec.getLsbD_shiftLeft,
    bitmask_getLsbD (by omega)]
  by_cases hj : j < k
  · simp [hj, show s + j < 8 by omega]
  · simp [hj]

theorem toNat_lt_of_getLsbD {x : BitVec 8} {n : Nat} (h : ∀ j, n ≤ j → x.getLsbD j = false) :
    x.toNat < 2 ^ n := by
  apply Nat.lt_pow_two_of_testBit
  exact h

theorem low_extract (x : BitVec 8) {p k : Nat} (hpk : p + k ≤ 8) :
    low k ((x &&& bitmask k <<< (8 - p - k)) >>> (8 - p - k)) = ((low 8 x).drop p).take k := by
  apply List.ext_getElem
  · simp; omega
  intro i h₁ h₂
  rw [length_low] at h₁
  rw [getElem_low, getLsbD_extract x (by omega), List.getElem_take, List.getElem_drop,
    getElem_low, decide_eq_true (by omega), Bool.true_and]
  congr 1
  omega

/-- Two fields, the second of them of `b` bits, put together to one of `a + b` bits. -/
theorem low_join {x y : BitVec 8} {a b : Nat} (hab : a + b ≤ 8)
    (hx : ∀ j, a ≤ j → x.getLsbD j = false) (hy : ∀ j, b ≤ j → y.getLsbD j = false) :
    low (a + b) (x <<< b ||| y) = low a x ++ low b y ∧
      ∀ j, a + b ≤ j → (x <<< b ||| y).getLsbD j = false := by
  constructor
  · rw [low_append]
    congr 1
    · apply List.ext_getElem
      · simp
      intro i h₁ h₂
      rw [length_low] at h₁
      rw [getElem_low, getElem_low, BitVec.getLsbD_ushiftRight, BitVec.getLsbD_or,
        BitVec.getLsbD_shiftLeft, hy _ (by omega)]
      simp [show b + (a - 1 - i) < 8 by omega]
    · apply List.ext_getElem
      · simp
      intro i h₁ h₂
      rw [length_low] at h₁
      rw [getElem_low, getElem_low, BitVec.getLsbD_or, BitVec.getLsbD_shiftLeft]
      simp [show b - 1 - i < b by omega]
  · intro j hj
    rw [BitVec.getLsbD_or, BitVec.getLsbD_shiftLeft, hy j (by omega), hx (j - b) (by omega)]
    simp

theorem ioportReadBits_spec {io : Ioport} (hp : io.bitpos ≤ 8) {n : Nat} (h1 : 1 ≤ n)
    (h8 : n ≤ 8) (hlen : n ≤ io.remaining.length) :
    low n (ioportReadBits io n).1 = io.remaining.take n ∧
      (∀ j, n ≤ j → (ioportReadBits io n).1.getLsbD j = false) ∧
      (ioportReadBits io n).2.remaining = io.remaining.drop n ∧
      (ioportReadBits io n).2.bitpos ∈ Set.Icc 1 8 ∧
      (ioportReadBits io n).2.unread <:+ io.unread ∧
      (ioportReadBits io n).2.written = io.written ∧
      (ioportReadBits io n).2.file = io.file := by
  have hn0 : n ≠ 0 := Nat.pos_iff_ne_zero.mp h1
  unfold ioportReadBits
  simp only [if_neg (Nat.not_lt.mpr h8), if_neg hn0]
  by_cases h0 : io.bitpos = 0
  · -- a fresh byte, which has all the bits
    obtain ⟨b, rest, hb⟩ : ∃ b rest, io.unread = b :: rest := by
      cases hu : io.unread with
      | nil => simp [Ioport.remaining, h0, hu] at hlen; omega
      | cons b rest => exact ⟨b, rest, rfl⟩
    simp only [if_pos h0, ioportReadByte_cons io b rest hb, Nat.add_zero, if_neg (Nat.not_lt.mpr h8),
      Nat.sub_self, Nat.zero_add, if_true, BitVec.shiftLeft_zero, Ioport.remaining, hb,
      List.nil_append, bytes_cons, if_neg hn0]
    refine ⟨?_, ?_, ?_, ⟨h1, h8⟩, List.suffix_cons _ _, trivial, trivial⟩
    · rw [low_extract _ (by omega), List.take_append_of_le_length (by simpa using h8)]
      rfl
    · intro j hj
      rw [getLsbD_extract _ (by omega), decide_eq_false (by omega), Bool.false_and]
    · rw [List.drop_append_of_le_length (by simpa using h8)]
  · by_cases hin : n + io.bitpos ≤ 8
    · -- the byte the port is in has all the bits
      simp only [if_neg h0, if_neg (Nat.not_lt.mpr hin), Nat.sub_self, if_true,
        BitVec.shiftLeft_zero, Ioport.remaining, Nat.add_comm io.bitpos n,
        if_neg (show n + io.bitpos ≠ 0 by omega)]
      refine ⟨?_, ?_, ?_, ⟨by omega, hin⟩, List.suffix_refl _, trivial, trivial⟩
      · rw [low_extract _ (by omega), List.take_append_of_le_length (by simp; omega)]
      · intro j hj
        rw [getLsbD_extract _ (by omega), decide_eq_false (by omega), Bool.false_and]
      · rw [List.drop_append_of_le_length (by simp; omega), List.drop_drop, Nat.add_comm]
    · -- the bits run over into the next byte
      obtain ⟨b, rest, hb⟩ : ∃ b rest, io.unread = b :: rest := by
        cases hu : io.unread with
        | nil => simp [Ioport.remaining, h0, hu] at hlen; omega
        | cons b rest => exact ⟨b, rest, rfl⟩
      have hbits : n = (8 - io.bitpos) + (n - (8 - io.bitpos)) := by omega
      have hpos : 0 < n - (8 - io.bitpos) := by omega
      generalize n - (8 - io.bitpos) = bits₂ at hbits hpos
      subst hbits
      have hx := low_extract io.bitbuffer (p := io.bitpos) (k := 8 - io.bitpos) (by omega)
      have hy := low_extract b.toBitVec (p := 0) (k := bits₂) (by omega)
      obtain ⟨hjoin, hzero⟩ := low_join (a := 8 - io.bitpos) (b := bits₂) (by omega)
        (x := (io.bitbuffer &&& bitmask (8 - io.bitpos) <<< (8 - io.bitpos - (8 - io.bitpos))) >>>
          (8 - io.bitpos - (8 - io.bitpos)))
        (y := (b.toBitVec &&& bitmask bits₂ <<< (8 - bits₂)) >>> (8 - bits₂))
        (fun j hj => by
          rw [getLsbD_extract _ (by omega), decide_eq_false (by omega), Bool.false_and])
        (fun j hj => by
          rw [getLsbD_extract _ (by omega), decide_eq_false (by omega), Bool.false_and])
      simp only [if_neg h0, if_pos (Nat.lt_of_not_le hin), Nat.add_sub_cancel_left,
        if_neg (Nat.pos_iff_ne_zero.mp hpos), ioportReadByte_cons io b rest hb, Ioport.remaining, hb,
        bytes_cons]
      refine ⟨?_, hzero, ?_, ⟨hpos, by omega⟩, List.suffix_cons _ _, trivial, trivial⟩
      · rw [hjoin, hx, hy]
        generalize hd : (low 8 io.bitbuffer).drop io.bitpos = left
        have hl : left.length = 8 - io.bitpos := by simp [← hd]
        rw [← hl, List.take_length_add_append, List.take_length,
          List.take_append_of_le_length (by rw [length_low]; omega), List.drop_zero]
      · generalize hd : (low 8 io.bitbuffer).drop io.bitpos = left
        have hl : left.length = 8 - io.bitpos := by simp [← hd]
        rw [← hl, List.drop_length_add_append,
          List.drop_append_of_le_length (by rw [length_low]; omega)]

end Opticon
