import Opticon.Wire.RoundTrip

/-! Integers in groups of seven bits. -/

namespace Opticon

variable {i : BitVec 64} {w : List UInt8}

/-- The places of the last `n` groups. -/
def places : Nat → List Nat
  | 0 => []
  | n + 1 => 7 * n :: places n

/-- The byte of a group, with the mask that is wide enough. -/
def groupByte (i : BitVec 64) (p : Nat) : BitVec 8 := ((i &&& encintMask p) >>> p).setWidth 8

theorem encintLoop_skip {p : Nat} (h : groupByte i p = 0) (ps : List Nat) (io : Ioport) :
    encintLoop i (p :: ps) false io = encintLoop i ps false io := by
  have hbyte : ¬ (groupByte i p ≠ 0 ∨ false = true) := by simp [h]
  exact if_neg hbyte

theorem encintLoop_put {p : Nat} {started : Bool} (h : groupByte i p ≠ 0 ∨ started = true)
    (ps : List Nat) (w : List UInt8) :
    encintLoop i (p :: ps) started (.port w) =
      encintLoop i ps true (.port
        (w ++ [UInt8.ofBitVec (if p ≠ 0 then groupByte i p ||| 0x80 else groupByte i p)])) :=
  if_pos h

/-- The four low places have their mask in the low half of the word. -/
theorem groupByte_low {n : Nat} (hn : n < 4) :
    (groupByte i (7 * n)).toNat = i.toNat / 2 ^ (7 * n) % 128 := by
  have hmask : encintMask (7 * n) >>> (7 * n) = 0x7f := by
    revert n
    decide
  rw [groupByte, BitVec.ushiftRight_and_distrib, hmask, BitVec.toNat_setWidth, BitVec.toNat_and,
    BitVec.toNat_ushiftRight, Nat.shiftRight_eq_div_pow]
  have hand := Nat.and_two_pow_sub_one_eq_mod (i.toNat / 2 ^ (7 * n)) 7
  have hsmall : ((0x7f : BitVec 64)).toNat = 2 ^ 7 - 1 := rfl
  rw [hsmall, hand]
  omega

/-- The mask of the fifth place is negative, so the byte has a bit too many. -/
theorem groupByte_fifth : (groupByte i 28).toNat = i.toNat / 2 ^ 28 % 256 := by
  have hmask : (encintMask 28 >>> 28).setWidth 8 = 0xff := by decide
  rw [groupByte, BitVec.ushiftRight_and_distrib, BitVec.setWidth_and, hmask]
  have hall : (0xff : BitVec 8) = BitVec.allOnes 8 := rfl
  rw [hall, BitVec.and_allOnes, BitVec.toNat_setWidth, BitVec.toNat_ushiftRight,
    Nat.shiftRight_eq_div_pow]

/-- The masks of the places above are those of low places, and the shift leaves nothing. -/
theorem groupByte_high {p : Nat} (hp : p ∈ [56, 49, 42, 35]) : groupByte i p = 0 := by
  have hmask : ∀ p ∈ [56, 49, 42, 35], encintMask p >>> p = 0 := by decide
  rw [groupByte, BitVec.ushiftRight_and_distrib, hmask p hp]
  simp

theorem uint8_marks : ∀ d : BitVec 8, (UInt8.ofBitVec d &&& 0x80 ≠ 0 ↔ 128 ≤ d.toNat) ∧
    (UInt8.ofBitVec d &&& 0x7f).toBitVec.toNat = d.toNat % 128 := by
  decide

/-- A byte gives its low seven bits, and the high one tells whether more follow. -/
theorem readEncintLoop_cons {d : UInt8} {rest : List UInt8} {res r : BitVec 64}
    (hr : r.toNat = res.toNat * 128 + d.toNat % 128) :
    readEncintLoop (d :: rest) res = if 128 ≤ d.toNat then readEncintLoop rest r else (r, rest) := by
  obtain ⟨hmark, hlow⟩ := uint8_marks d.toBitVec
  have hshift : (if res ≠ 0 then res <<< 7 else res) = res <<< 7 := by
    by_cases h : res = 0
    · simp [h]
    · exact if_pos h
  have hlt := r.isLt
  have hres : res <<< 7 ||| (d &&& 0x7f).toBitVec.setWidth 64 = r := by
    apply BitVec.eq_of_toNat_eq
    rw [BitVec.toNat_or, BitVec.toNat_shiftLeft, BitVec.toNat_setWidth]
    have hd : (d &&& 0x7f).toBitVec.toNat = d.toNat % 128 := hlow
    rw [hd, Nat.mod_eq_of_lt (by rw [Nat.shiftLeft_eq]; omega),
      Nat.mod_eq_of_lt (show d.toNat % 128 < 2 ^ 64 by omega),
      ← Nat.shiftLeft_add_eq_or_of_lt (by omega), Nat.shiftLeft_eq, hr]
  have hmark' : d &&& 0x80 ≠ 0 ↔ 128 ≤ d.toNat := hmark
  simp only [readEncintLoop, hshift, hres, hmark']

theorem mark_byte : ∀ x : BitVec 8, (UInt8.ofBitVec (x ||| 0x80)).toNat = x.toNat % 128 + 128 := by
  decide

/-- Reading the bytes gives the number, and goes no further. -/
def Gives (bs : List UInt8) (res : BitVec 64) (v : Nat) : Prop :=
  ∀ rest, readEncintLoop (bs ++ rest) res = (BitVec.ofNat 64 v, rest)

theorem Gives.more {bs : List UInt8} {res : BitVec 64} {v : Nat} {x : BitVec 8}
    (hres : res.toNat * 128 + 128 ≤ 2 ^ 64)
    (h : Gives bs (BitVec.ofNat 64 (res.toNat * 128 + x.toNat % 128)) v) :
    Gives (UInt8.ofBitVec (x ||| 0x80) :: bs) res v := by
  intro rest
  have hx := mark_byte x
  rw [List.cons_append, readEncintLoop_cons
    (r := BitVec.ofNat 64 (res.toNat * 128 + x.toNat % 128)), if_pos (by omega)]
  · exact h rest
  · rw [BitVec.toNat_ofNat, Nat.mod_eq_of_lt (by omega), hx]
    omega

theorem Gives.last {r : BitVec 64} {x : BitVec 8} (hres : r.toNat * 128 + 128 ≤ 2 ^ 64)
    (hx : x.toNat < 128) : Gives [UInt8.ofBitVec x] r (r.toNat * 128 + x.toNat) := by
  intro rest
  have htoNat : (UInt8.ofBitVec x).toNat = x.toNat := rfl
  rw [List.singleton_append, readEncintLoop_cons
    (r := BitVec.ofNat 64 (r.toNat * 128 + x.toNat)), if_neg (by omega)]
  rw [BitVec.toNat_ofNat, Nat.mod_eq_of_lt (by omega), htoNat, Nat.mod_eq_of_lt hx]

/-- The first byte that is written is the first one that is not zero. -/
theorem encintLoop_first {p : Nat} (h : groupByte i p ≠ 0) (ps : List Nat) (io : Ioport) :
    encintLoop i (p :: ps) false io = encintLoop i (p :: ps) true io := by
  exact (if_pos (Or.inl h)).trans (if_pos (Or.inl h)).symm

/-- Once a byte was written, all the groups behind it are. -/
theorem encintLoop_started {n : Nat} (hn : n < 4) {r : BitVec 64}
    (hres : r.toNat * 2 ^ (7 * (n + 1)) + 2 ^ (7 * (n + 1)) ≤ 2 ^ 64) :
    ∃ bs, (∀ w, encintLoop i (places (n + 1)) true (.port w) = .port (w ++ bs)) ∧
      Gives bs r (r.toNat * 2 ^ (7 * (n + 1)) + i.toNat % 2 ^ (7 * (n + 1))) := by
  induction n generalizing r with
  | zero =>
    have hbyte := groupByte_low (i := i) (n := 0) (by decide)
    simp only [Nat.mul_zero, Nat.pow_zero, Nat.div_one] at hbyte
    refine ⟨[UInt8.ofBitVec (groupByte i 0)], fun w => encintLoop_put (.inr rfl) [] w, ?_⟩
    have hlast := Gives.last (r := r) (x := groupByte i 0) (by omega) (by omega)
    rwa [hbyte] at hlast
  | succ n ih =>
    have hbyte := groupByte_low (i := i) hn
    have hpow : 2 ^ (7 * (n + 1 + 1)) = 2 ^ (7 * (n + 1)) * 128 := by
      rw [Nat.mul_succ 7 (n + 1), Nat.pow_add]
    have hbytelt : (groupByte i (7 * (n + 1))).toNat < 128 := by omega
    rw [hpow, ← Nat.mul_assoc] at hres
    rw [hpow, Nat.mod_mul, ← hbyte]
    have hpos := Nat.two_pow_pos (7 * (n + 1))
    have hsmall : r.toNat * 128 + 128 ≤ 2 ^ 64 := by nlinarith
    have htoNat : (BitVec.ofNat 64 (r.toNat * 128 + (groupByte i (7 * (n + 1))).toNat)).toNat =
        r.toNat * 128 + (groupByte i (7 * (n + 1))).toNat := by
      rw [BitVec.toNat_ofNat, Nat.mod_eq_of_lt (by omega)]
    obtain ⟨bs, hbs, hgives⟩ := ih (by omega)
      (r := BitVec.ofNat 64 (r.toNat * 128 + (groupByte i (7 * (n + 1))).toNat))
      (by rw [htoNat]; nlinarith)
    refine ⟨UInt8.ofBitVec (groupByte i (7 * (n + 1)) ||| 0x80) :: bs, fun w => ?_, ?_⟩
    · rw [places, encintLoop_put (.inr rfl), if_pos (by omega), hbs, List.append_assoc]
      rfl
    · apply Gives.more hsmall
      rw [htoNat] at hgives
      rw [Nat.mod_eq_of_lt hbytelt]
      convert hgives using 1
      ring

/-- Groups of zeros in front are left out, and nothing is written if there are no others. -/
theorem encintLoop_unstarted {n : Nat} (hn : n ≤ 4) :
    (i.toNat % 2 ^ (7 * n) = 0 ∧ ∀ w, encintLoop i (places n) false (.port w) = .port w) ∨
      ∃ bs, (∀ w, encintLoop i (places n) false (.port w) = .port (w ++ bs)) ∧
        Gives bs 0 (i.toNat % 2 ^ (7 * n)) := by
  induction n with
  | zero => exact .inl ⟨Nat.mod_one _, fun w => rfl⟩
  | succ n ih =>
    by_cases hbyte : groupByte i (7 * n) = 0
    · have hmod : i.toNat % 2 ^ (7 * (n + 1)) = i.toNat % 2 ^ (7 * n) := by
        have hgroup := groupByte_low (i := i) (show n < 4 by omega)
        rw [hbyte] at hgroup
        rw [Nat.mul_succ, Nat.pow_add, Nat.mod_mul, ← hgroup]
        simp
      rw [hmod]
      simp only [places, encintLoop_skip hbyte]
      exact ih (by omega)
    · have hpow : 2 ^ (7 * (n + 1)) ≤ 2 ^ 64 := Nat.pow_le_pow_right (by decide) (by omega)
      obtain ⟨bs, hbs, hgives⟩ := encintLoop_started (i := i) (show n < 4 by omega) (r := 0)
        (by simpa using hpow)
      refine .inr ⟨bs, fun w => ?_, by simpa using hgives⟩
      rw [places, encintLoop_first hbyte]
      exact hbs w

/-- What is written is read back modulo 2³⁵, unless nothing was written at all. -/
theorem ioportWriteEncint_gives (i : BitVec 64) :
    (i ≠ 0 ∧ i.toNat % 2 ^ 36 = 0 ∧ ∀ w, ioportWriteEncint (.port w) i = .port w) ∨
      ∃ bs, (∀ w, ioportWriteEncint (.port w) i = .port (w ++ bs)) ∧
        Gives bs 0 (i.toNat % 2 ^ 35) := by
  by_cases hi : i = 0
  · subst hi
    refine .inr ⟨[0], fun w => rfl, fun rest => ?_⟩
    simp [readEncintLoop]
  have hhigh : ∀ io, ioportWriteEncint io i = encintLoop i (28 :: places 4) false io := by
    intro io
    rw [ioportWriteEncint, if_neg hi, encintLoop_skip (groupByte_high (by simp)),
      encintLoop_skip (groupByte_high (by simp)), encintLoop_skip (groupByte_high (by simp)),
      encintLoop_skip (groupByte_high (by simp))]
    rfl
  have hfifth := groupByte_fifth (i := i)
  simp only [hhigh]
  by_cases hbyte : groupByte i 28 = 0
  · rw [hbyte] at hfifth
    have hfifth : i.toNat / 2 ^ 28 % 256 = 0 := hfifth.symm
    simp only [encintLoop_skip hbyte]
    obtain ⟨hmod, hw⟩ | ⟨bs, hbs, hgives⟩ := encintLoop_unstarted (i := i) (n := 4) le_rfl
    · exact .inl ⟨hi, by omega, hw⟩
    · refine .inr ⟨bs, hbs, ?_⟩
      convert hgives using 1
      omega
  · have htoNat : (BitVec.ofNat 64 ((groupByte i 28).toNat % 128)).toNat =
        (groupByte i 28).toNat % 128 := by
      rw [BitVec.toNat_ofNat]
      omega
    obtain ⟨bs, hbs, hgives⟩ := encintLoop_started (i := i) (n := 3) (by decide)
      (r := BitVec.ofNat 64 ((groupByte i 28).toNat % 128)) (by rw [htoNat]; omega)
    refine .inr ⟨UInt8.ofBitVec (groupByte i 28 ||| 0x80) :: bs, fun w => ?_, ?_⟩
    · rw [encintLoop_put (.inl hbyte), if_pos (by decide), hbs, List.append_assoc]
      rfl
    · apply Gives.more (by decide)
      rw [htoNat] at hgives
      convert hgives using 1
      · simp
      · rw [hfifth]
        omega

theorem ioportWriteEncint_written (hlt : i.toNat < 2 ^ 35) :
    ∃ bs, (∀ w, ioportWriteEncint (.port w) i = .port (w ++ bs)) ∧
      ∀ rest, readEncintLoop (bs ++ rest) 0 = (i, rest) := by
  obtain ⟨hi, hmod, -⟩ | ⟨bs, hbs, hgives⟩ := ioportWriteEncint_gives i
  · rw [Nat.mod_eq_of_lt (by omega)] at hmod
    exact absurd (BitVec.eq_of_toNat_eq hmod) hi
  · rw [Nat.mod_eq_of_lt hlt, Gives, BitVec.ofNat_toNat, BitVec.setWidth_eq] at hgives
    exact ⟨bs, hbs, hgives⟩

/-- The bytes of the integer, wherever they are written and whatever follows them, are read back
as the integer, and no others are read. -/
def EncintRoundTrips (i : BitVec 64) : Prop :=
  ∀ w, ∃ bs, ioportWriteEncint (.port w) i = .port (w ++ bs) ∧
    ∀ io rest, io.unread = bs ++ rest →
      (ioportReadEncint io).1 = i ∧ (ioportReadEncint io).2.unread = rest

/-- An integer comes back if and only if it has no more than 35 bits. -/
theorem encintRoundTrips_iff (i : BitVec 64) : EncintRoundTrips i ↔ i.toNat < 2 ^ 35 := by
  constructor
  · intro h
    obtain ⟨bs, hport, hread⟩ := h []
    have hval := (hread (.reader bs) [] (List.append_nil bs).symm).1
    obtain ⟨hi, -, hw⟩ | ⟨bs', hbs, hgives⟩ := ioportWriteEncint_gives i
    · rw [hw] at hport
      obtain rfl : [] = bs := congrArg Ioport.written hport
      exact absurd hval.symm hi
    · rw [hbs] at hport
      obtain rfl : bs' = bs := congrArg Ioport.written hport
      have hgives := hgives []
      rw [List.append_nil] at hgives
      simp only [ioportReadEncint, Ioport.reader, hgives] at hval
      rw [← hval, BitVec.toNat_ofNat]
      omega
  · intro hlt w
    obtain ⟨bs, hbs, hread⟩ := ioportWriteEncint_written hlt
    refine ⟨bs, hbs w, fun io rest hio => ?_⟩
    simp only [ioportReadEncint, hio, hread rest, and_self]

/-- The integer with only its bit 35 set. -/
theorem bit35_lost : (0x800000000#64).toNat < 2 ^ 63 ∧ ¬ EncintRoundTrips 0x800000000#64 ∧
    ioportReadEncint (.reader (ioportWriteEncint .writer 0x800000000#64).written) =
      (0, .reader []) := by
  have hread : ioportReadEncint (.reader (ioportWriteEncint .writer 0x800000000#64).written) =
      (0, .reader []) := by decide
  refine ⟨by decide, fun h => ?_, hread⟩
  obtain ⟨bs, hbs, hback⟩ := h []
  have hwritten : (ioportWriteEncint .writer 0x800000000#64).written = bs :=
    congrArg Ioport.written hbs
  have hval := (hback (.reader bs) [] (List.append_nil bs).symm).1
  rw [← hwritten, hread] at hval
  exact absurd hval (by decide)

end Opticon
