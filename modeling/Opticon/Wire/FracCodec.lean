import Opticon.Lib.Dyadic
import Opticon.Wire.ValueCodec

/-! How far a fraction that was written and read is from what it was. -/

namespace Opticon

/-- The fraction that is read where `d` was written. -/
def decodedFrac (d : Double) : Double :=
  (ioportReadEncfrac (.reader (ioportWriteEncfrac .writer d).written)).1

instance : LE Double where
  le
    | .fin d, .fin d' => d ≤ d'
    | .inf, .fin _ => False
    | _, .inf => True

@[simp] theorem Double.fin_le_fin {d d' : ℚ} : Double.fin d ≤ .fin d' ↔ d ≤ d' := Iff.rfl

@[simp] theorem Double.le_inf (d : Double) : d ≤ .inf := by
  cases d <;> trivial

@[simp] theorem Double.not_inf_le_fin (d : ℚ) : ¬ Double.inf ≤ .fin d := fun h => h

/-- Below 192 a fraction is read as at most 1/128 less, and from there on as at most 1/96 of it
less, until it is read as infinity. -/
def FracBound : Double → Double → Prop
  | .fin d, .fin q => q ≤ d ∧ (d < 192 → d - q ≤ 1 / 128) ∧ (192 ≤ d → d - q ≤ d / 96) ∧
      d < 255 * 2 ^ 64
  | .fin d, .inf => 255 * 2 ^ 64 ≤ d
  | .inf, q => q = .inf

/-- The factor of the reader fits in an `int`, or is not needed. -/
def FracHeld : Double → Prop
  | .fin d => d < 2 ^ 38 ∨ 255 * 2 ^ 64 ≤ d
  | .inf => True

variable {d : ℚ}

theorem encfracScale_spec {n i : ℕ} {k : ℤ} (h : DyadicCell k (i + 1) d) (hk : 96 ≤ k)
    (hfirst : i = 0 ∨ 128 ≤ k) (hn : 63 ≤ i + n) (hi : i ≤ 63) :
    ∃ (k' : ℤ) (j : ℕ), encfracScale n (k : ℚ) i = ((k' : ℚ), j) ∧ DyadicCell k' (j + 1) d ∧
      96 ≤ k' ∧ (j = 0 ∨ 128 ≤ k') ∧ j ≤ 63 ∧ (k' ≤ 255 ∨ j = 63) := by
  induction n generalizing i k with
  | zero => exact ⟨k, i, rfl, h, hk, hfirst, hi, .inr (by omega)⟩
  | succ n ih =>
    unfold encfracScale
    split
    · rename_i hmore
      have h255 : 255 < k := by exact_mod_cast hmore.1
      have h128 : 128 ≤ ⌊(k : ℚ) / 2⌋ := by
        have hk : (256 : ℚ) ≤ k := by exact_mod_cast h255
        rw [Int.le_floor]
        push_cast
        linarith
      exact ih h.halve (by omega) (.inr h128) (by omega) (by omega)
    · rename_i hdone
      refine ⟨k, i, rfl, h, hk, hfirst, hi, ?_⟩
      by_cases h63 : i = 63
      · exact .inr h63
      · refine .inl (not_lt.mp fun h255 => hdone ⟨?_, by omega⟩)
        exact_mod_cast h255

theorem ioportReadEncfrac_bytes (a b : UInt8) :
    (ioportReadEncfrac (.reader [a, b])).1 =
      if a < 192 then .fin (a.toNat + b.toNat / 256)
      else if b = 255 ∧ a = 255 then .inf
      else .fin (b.toNat * shlTwo (a.toNat - 192)) := by
  unfold ioportReadEncfrac
  rw [ioportReadByte_cons (.reader [a, b]) a [b] rfl]
  simp only
  rw [ioportReadByte_cons _ b [] rfl]
  simp only
  split
  · rfl
  · split <;> rfl

theorem toNat_ofNat_byte {n : ℕ} (h : n < 256) : (UInt8.ofNat n).toNat = n := by
  rw [UInt8.toNat_ofNat']
  omega

theorem cast_toNat {n : ℤ} (h : 0 ≤ n) : ((n.toNat : ℕ) : ℚ) = n := by
  exact_mod_cast Int.toNat_of_nonneg h

theorem floor_frac (d : ℚ) : 0 ≤ ⌊(d - (⌊d⌋ : ℤ)) * 255⌋ ∧ ⌊(d - (⌊d⌋ : ℤ)) * 255⌋ < 255 := by
  have hle := Int.floor_le d
  have hlt := Int.lt_floor_add_one d
  constructor
  · apply Int.floor_nonneg.mpr
    linarith
  · apply Int.floor_lt.mpr
    push_cast
    linarith

/-- A fraction below 192 is read as its integral part and as many 256th as it has 255th. -/
theorem decodedFrac_small (hpos : 0 < d) (hlt : d < 192) :
    decodedFrac (.fin d) = .fin ((⌊d⌋ : ℤ) + (⌊(d - (⌊d⌋ : ℤ)) * 255⌋ : ℤ) / 256) := by
  have hint : 0 ≤ ⌊d⌋ := Int.floor_nonneg.mpr hpos.le
  have hint' : ⌊d⌋ < 192 := Int.floor_lt.mpr (by exact_mod_cast hlt)
  obtain ⟨hfrac, hfrac'⟩ := floor_frac d
  have hwritten : (ioportWriteEncfrac .writer (.fin d)).written =
      [UInt8.ofNat ⌊d⌋.toNat, UInt8.ofNat ⌊(d - (⌊d⌋ : ℤ)) * 255⌋.toNat] := by
    rw [ioportWriteEncfrac, if_neg (not_le.mpr hpos), if_neg (not_le.mpr hlt)]
    simp only [Int.floor_intCast]
    rfl
  have hbyte := toNat_ofNat_byte (show ⌊d⌋.toNat < 256 by omega)
  have hbyte' := toNat_ofNat_byte (show ⌊(d - (⌊d⌋ : ℤ)) * 255⌋.toNat < 256 by omega)
  have hsmall : UInt8.ofNat ⌊d⌋.toNat < 192 := by
    rw [UInt8.lt_iff_toNat_lt, hbyte]
    exact (by omega : ⌊d⌋.toNat < 192)
  rw [decodedFrac, hwritten, ioportReadEncfrac_bytes, if_pos hsmall, hbyte, hbyte',
    cast_toNat hint, cast_toNat hfrac]

/-- From 192 on a fraction is read as a place of 8 bits times the factor of the reader. -/
theorem decodedFrac_large (hge : 192 ≤ d) :
    (∃ (k : ℤ) (j : ℕ), DyadicCell.Normal k (j + 1) d 1 ∧ 96 ≤ k ∧ j ≤ 63 ∧
        decodedFrac (.fin d) = if k = 255 ∧ j = 63 then .inf else .fin (k * shlTwo j)) ∨
      256 * 2 ^ 64 ≤ d ∧ decodedFrac (.fin d) = .inf := by
  have hfloor := DyadicCell.floor d 1
  rw [pow_one] at hfloor
  have h96 : 96 ≤ ⌊d / 2⌋ := by
    rw [Int.le_floor]
    push_cast
    linarith
  obtain ⟨k, j, hscale, hcell, hk, hhigh, hj, hstop⟩ :=
    encfracScale_spec (n := 63) (i := 0) hfloor h96 (.inl rfl) le_rfl (by decide)
  have hpos : ¬ d ≤ 0 := by linarith
  by_cases h255 : (255 : ℚ) < k
  · refine .inr ⟨?_, ?_⟩
    · have h256 : (256 : ℚ) ≤ k := by exact_mod_cast (by exact_mod_cast h255 : (255 : ℤ) < k)
      obtain rfl : j = 63 := hstop.resolve_left (not_le.mpr (by exact_mod_cast h255))
      exact le_trans (mul_le_mul_of_nonneg_right h256 (by positivity)) hcell.le
    · have hwritten : (ioportWriteEncfrac .writer (.fin d)).written = [255, 255] := by
        simp only [ioportWriteEncfrac, if_neg hpos, if_pos hge, hscale, if_pos h255]
        rfl
      rw [decodedFrac, hwritten, ioportReadEncfrac_bytes, if_neg (by decide), if_pos (by decide)]
  · have hle : k ≤ 255 := not_lt.mp fun h => h255 (by exact_mod_cast h)
    refine .inl ⟨k, j, ⟨hcell, hle, hhigh.imp (fun h => by omega) id, by omega⟩, hk, hj, ?_⟩
    have hwritten : (ioportWriteEncfrac .writer (.fin d)).written =
        [UInt8.ofNat (192 + j), UInt8.ofNat k.toNat] := by
      simp only [ioportWriteEncfrac, if_neg hpos, if_pos hge, hscale, if_neg h255,
        Int.floor_intCast]
      rfl
    have hbyte := toNat_ofNat_byte (show 192 + j < 256 by omega)
    have hbyte' := toNat_ofNat_byte (show k.toNat < 256 by omega)
    have hbig : ¬ UInt8.ofNat (192 + j) < 192 := by
      rw [UInt8.lt_iff_toNat_lt, hbyte]
      exact not_lt.mpr (Nat.le_add_right 192 j)
    have hinf : (UInt8.ofNat k.toNat = 255 ∧ UInt8.ofNat (192 + j) = 255) ↔ k = 255 ∧ j = 63 := by
      rw [← UInt8.toNat_inj, ← UInt8.toNat_inj, hbyte, hbyte']
      show k.toNat = 255 ∧ 192 + j = 255 ↔ k = 255 ∧ j = 63
      omega
    rw [decodedFrac, hwritten, ioportReadEncfrac_bytes, if_neg hbig, hbyte, hbyte',
      cast_toNat (by omega), Nat.add_sub_cancel_left]
    simp only [hinf]

theorem shlTwo_eq {j : ℕ} (hj : j ≤ 29) : (shlTwo j : ℚ) = 2 ^ (j + 1) := by
  have hall : ∀ j ≤ 29, shlTwo j = 2 ^ (j + 1) := by decide
  rw [hall j hj]
  push_cast
  rfl

/-- Behind bit 31 of the `int` the factor starts over. -/
theorem shlTwo_over {j : ℕ} (hj : 30 ≤ j) (hj' : j ≤ 63) :
    shlTwo j ≤ 2 ^ 30 ∧ (j < 32 → shlTwo j ≤ 0) := by
  revert j
  decide

section Normal

variable {k : ℤ} {j : ℕ} (h : DyadicCell.Normal k (j + 1) d 1)
include h

theorem Normal.lt_of_le {n : ℕ} (hj : j + 1 ≤ n) : d < 256 * 2 ^ n := by
  have hk : (k : ℚ) + 1 ≤ 256 := by exact_mod_cast (by have := h.byte; omega : k + 1 ≤ 256)
  calc d < (k + 1) * 2 ^ (j + 1) := h.lt
    _ ≤ 256 * 2 ^ (j + 1) := mul_le_mul_of_nonneg_right hk (by positivity)
    _ ≤ 256 * 2 ^ n :=
      mul_le_mul_of_nonneg_left (pow_le_pow_right₀ (by norm_num) hj) (by norm_num)

theorem Normal.le_of_le {n : ℕ} (hn : 1 < n) (hj : n ≤ j + 1) : 128 * 2 ^ n ≤ d := by
  have hk : (128 : ℚ) ≤ k := by exact_mod_cast h.high.resolve_left (by omega)
  calc (128 : ℚ) * 2 ^ n ≤ 128 * 2 ^ (j + 1) :=
      mul_le_mul_of_nonneg_left (pow_le_pow_right₀ (by norm_num) hj) (by norm_num)
    _ ≤ k * 2 ^ (j + 1) := mul_le_mul_of_nonneg_right hk (by positivity)
    _ ≤ d := h.le

theorem Normal.saturated_iff (hj : j ≤ 63) : (k = 255 ∧ j = 63) ↔ 255 * 2 ^ 64 ≤ d := by
  constructor
  · rintro ⟨rfl, rfl⟩
    exact_mod_cast h.le
  · intro hd
    have hj : j = 63 := by
      by_contra hne
      have hlt := Normal.lt_of_le h (show j + 1 ≤ 63 by omega)
      norm_num at hd hlt
      linarith
    subst hj
    refine ⟨?_, rfl⟩
    have hlt : (255 : ℚ) * 2 ^ 64 < (k + 1) * 2 ^ 64 := hd.trans_lt h.lt
    have hlt : (255 : ℚ) < k + 1 := lt_of_mul_lt_mul_right hlt (by positivity)
    have hlt : 255 < k + 1 := by exact_mod_cast hlt
    have := h.byte
    omega

end Normal

theorem decodedFrac_saturated (hge : 255 * 2 ^ 64 ≤ d) : decodedFrac (.fin d) = .inf := by
  obtain ⟨k, j, hcell, -, hj, heq⟩ | ⟨-, heq⟩ := decodedFrac_large (le_trans (by norm_num) hge)
  · rw [heq, if_pos ((Normal.saturated_iff hcell hj).mpr hge)]
  · exact heq

theorem decodedFrac_place (hge : 192 ≤ d) (hlt : d < 255 * 2 ^ 64) :
    ∃ (k : ℤ) (j : ℕ), DyadicCell.Normal k (j + 1) d 1 ∧ 96 ≤ k ∧ j ≤ 63 ∧
      decodedFrac (.fin d) = .fin (k * shlTwo j) := by
  obtain ⟨k, j, hcell, hk, hj, heq⟩ | ⟨hbig, -⟩ := decodedFrac_large hge
  · refine ⟨k, j, hcell, hk, hj, ?_⟩
    rw [heq, if_neg fun h => not_lt.mpr ((Normal.saturated_iff hcell hj).mp h) hlt]
  · norm_num at hbig hlt
    linarith

theorem decodedFrac_held (hge : 192 ≤ d) (hlt : d < 2 ^ 38) :
    ∃ (k : ℤ) (j : ℕ), DyadicCell.Normal k (j + 1) d 1 ∧ 96 ≤ k ∧
      decodedFrac (.fin d) = .fin (k * 2 ^ (j + 1)) := by
  obtain ⟨k, j, hcell, hk, -, heq⟩ := decodedFrac_place hge (hlt.trans_le (by norm_num))
  have hj : j ≤ 29 := by
    by_contra hj
    have hle := Normal.le_of_le hcell (show 1 < 31 by decide) (by omega)
    norm_num at hle hlt
    linarith
  exact ⟨k, j, hcell, hk, by rw [heq, shlTwo_eq hj]⟩

/-- Where the factor does not fit in the `int`, too little is read. -/
theorem decodedFrac_over (hge : 2 ^ 38 ≤ d) (hlt : d < 255 * 2 ^ 64) :
    ∃ q, decodedFrac (.fin d) = .fin q ∧ d / 96 < d - q := by
  obtain ⟨k, j, hcell, hk, hj, heq⟩ := decodedFrac_place (le_trans (by norm_num) hge) hlt
  refine ⟨_, heq, ?_⟩
  have hj' : 30 ≤ j := by
    by_contra hj'
    have hlt := Normal.lt_of_le hcell (show j + 1 ≤ 30 by omega)
    norm_num at hge hlt
    linarith
  obtain ⟨hfactor, hnone⟩ := shlTwo_over hj' hj
  have hk0 : (0 : ℚ) ≤ k := by exact_mod_cast (by omega : (0 : ℤ) ≤ k)
  have hk255 : (k : ℚ) ≤ 255 := by exact_mod_cast hcell.byte
  by_cases h32 : j < 32
  · have hneg : (shlTwo j : ℚ) ≤ 0 := by exact_mod_cast hnone h32
    have hread : (k : ℚ) * shlTwo j ≤ 0 := mul_nonpos_of_nonneg_of_nonpos hk0 hneg
    norm_num at hge
    linarith
  · have hbig := Normal.le_of_le hcell (show 1 < 33 by decide) (by omega)
    have hfactor : (shlTwo j : ℚ) ≤ 2 ^ 30 := by exact_mod_cast hfactor
    have hread : (k : ℚ) * shlTwo j ≤ 255 * 2 ^ 30 :=
      (mul_le_mul_of_nonneg_left hfactor hk0).trans
        (mul_le_mul_of_nonneg_right hk255 (by positivity))
    norm_num at hbig hread
    linarith

/-- What is read of a fraction below 192. -/
def smallRead (d : ℚ) : ℚ := (⌊d⌋ : ℤ) + (⌊(d - (⌊d⌋ : ℤ)) * 255⌋ : ℤ) / 256

theorem smallRead_bound (d : ℚ) : smallRead d ≤ d ∧ d - smallRead d ≤ 1 / 128 := by
  have hle := Int.floor_le d
  have hlt := Int.lt_floor_add_one d
  have hle' := Int.floor_le ((d - (⌊d⌋ : ℤ)) * 255)
  have hlt' := Int.lt_floor_add_one ((d - (⌊d⌋ : ℤ)) * 255)
  unfold smallRead
  constructor <;> linarith

theorem smallRead_mono {d d' : ℚ} (hle : d ≤ d') : smallRead d ≤ smallRead d' := by
  unfold smallRead
  obtain heq | hlt := (Int.floor_mono hle).eq_or_lt
  · rw [heq]
    have hfloor : ⌊(d - (⌊d'⌋ : ℤ)) * 255⌋ ≤ ⌊(d' - (⌊d'⌋ : ℤ)) * 255⌋ :=
      Int.floor_mono (by linarith)
    have hfloor : ((⌊(d - (⌊d'⌋ : ℤ)) * 255⌋ : ℤ) : ℚ) ≤ (⌊(d' - (⌊d'⌋ : ℤ)) * 255⌋ : ℤ) := by
      exact_mod_cast hfloor
    linarith
  · have hlt : ((⌊d⌋ : ℤ) : ℚ) + 1 ≤ (⌊d'⌋ : ℤ) := by exact_mod_cast hlt
    have hbelow : ((⌊(d - (⌊d⌋ : ℤ)) * 255⌋ : ℤ) : ℚ) ≤ 255 := by
      exact_mod_cast (floor_frac d).2.le
    have habove : (0 : ℚ) ≤ (⌊(d' - (⌊d'⌋ : ℤ)) * 255⌋ : ℤ) := by
      exact_mod_cast (floor_frac d').1
    linarith

theorem decodedFrac_eq_smallRead (hpos : 0 ≤ d) (hlt : d < 192) :
    decodedFrac (.fin d) = .fin (smallRead d) := by
  obtain rfl | hpos := hpos.eq_or_lt
  · have hread : decodedFrac (.fin 0) = .fin 0 := by decide +kernel
    rw [hread, smallRead]
    norm_num
  · exact decodedFrac_small hpos hlt

theorem fracBound_iff {d : Double} (hd : .fin 0 ≤ d) :
    FracBound d (decodedFrac d) ↔ FracHeld d := by
  cases d with
  | inf =>
    have hread : decodedFrac .inf = .inf := by decide
    rw [hread]
    exact ⟨fun _ => trivial, fun _ => rfl⟩
  | fin d =>
    have hd : 0 ≤ d := hd
    by_cases h192 : d < 192
    · obtain ⟨hle, herr⟩ := smallRead_bound d
      rw [decodedFrac_eq_smallRead hd h192]
      refine ⟨fun _ => .inl (h192.trans (by norm_num)), fun _ => ⟨hle, fun _ => herr,
        fun h => absurd h192 (not_lt.mpr h), h192.trans (by norm_num)⟩⟩
    have h192 := not_lt.mp h192
    by_cases h38 : d < 2 ^ 38
    · obtain ⟨k, j, hcell, hk, heq⟩ := decodedFrac_held h192 h38
      have hk : (96 : ℚ) ≤ k := by exact_mod_cast hk
      have hpow : (0 : ℚ) < 2 ^ (j + 1) := by positivity
      have hstep : (96 : ℚ) * 2 ^ (j + 1) ≤ k * 2 ^ (j + 1) :=
        mul_le_mul_of_nonneg_right hk hpow.le
      have hlt := hcell.lt
      have hle := hcell.le
      rw [heq]
      refine ⟨fun _ => .inl h38, fun _ => ⟨hle, fun h => absurd h (not_lt.mpr h192), fun _ => ?_,
        h38.trans (by norm_num)⟩⟩
      linarith
    have h38 := not_lt.mp h38
    by_cases hsat : d < 255 * 2 ^ 64
    · obtain ⟨q, heq, herr⟩ := decodedFrac_over h38 hsat
      rw [heq]
      refine ⟨fun h => absurd (h.2.2.1 h192) (not_le.mpr herr), fun h => ?_⟩
      obtain h | h := h
      · exact absurd h (not_lt.mpr h38)
      · exact absurd hsat (not_lt.mpr h)
    · have hsat := not_lt.mp hsat
      rw [decodedFrac_saturated hsat]
      exact ⟨fun _ => .inr hsat, fun _ => hsat⟩

/-- Below 2³⁸ the order is kept. -/
theorem decodedFrac_mono_held {d d' : ℚ} (hd : 0 ≤ d) (hle : d ≤ d') (hd' : d' < 2 ^ 38) :
    decodedFrac (.fin d) ≤ decodedFrac (.fin d') := by
  by_cases h192' : d' < 192
  · rw [decodedFrac_eq_smallRead hd (hle.trans_lt h192'),
      decodedFrac_eq_smallRead (hd.trans hle) h192']
    exact smallRead_mono hle
  have h192' := not_lt.mp h192'
  obtain ⟨k', j', hcell', hk', heq'⟩ := decodedFrac_held h192' hd'
  rw [heq']
  by_cases h192 : d < 192
  · rw [decodedFrac_eq_smallRead hd h192, Double.fin_le_fin]
    have hk' : (96 : ℚ) ≤ k' := by exact_mod_cast hk'
    have hpow : (2 : ℚ) ^ 1 ≤ 2 ^ (j' + 1) := pow_le_pow_right₀ (by norm_num) (by omega)
    calc smallRead d ≤ 96 * 2 ^ 1 := by linarith [(smallRead_bound d).1]
      _ ≤ k' * 2 ^ (j' + 1) := mul_le_mul hk' hpow (by positivity) (by linarith)
  · obtain ⟨k, j, hcell, -, heq⟩ := decodedFrac_held (not_lt.mp h192) (hle.trans_lt hd')
    rw [heq, Double.fin_le_fin]
    exact hcell.value_mono hcell' hle

theorem decodedFrac_mono {d d' : Double} (hd : .fin 0 ≤ d) (hle : d ≤ d') (h : FracHeld d)
    (h' : FracHeld d') : decodedFrac d ≤ decodedFrac d' := by
  have hinf : decodedFrac .inf = .inf := by decide
  cases d' with
  | inf =>
    rw [hinf]
    exact Double.le_inf _
  | fin d' =>
    cases d with
    | inf => exact absurd hle (Double.not_inf_le_fin d')
    | fin d =>
      obtain h' | h' := h'
      · exact decodedFrac_mono_held hd hle h'
      · rw [decodedFrac_saturated h']
        exact Double.le_inf _

/-- Two fractions come back within the bounds and in their order, if and only if none of them
is from 2³⁸ on without being read as infinity. -/
theorem encfrac_faithful_iff {d d' : Double} (hd : .fin 0 ≤ d) (hle : d ≤ d') :
    (FracBound d (decodedFrac d) ∧ FracBound d' (decodedFrac d') ∧
        decodedFrac d ≤ decodedFrac d') ↔ FracHeld d ∧ FracHeld d' := by
  have hd' : Double.fin 0 ≤ d' := by
    cases d' with
    | inf => exact Double.le_inf _
    | fin d' =>
      cases d with
      | inf => exact absurd hle (Double.not_inf_le_fin d')
      | fin d => exact le_trans (show (0 : ℚ) ≤ d from hd) hle
  rw [fracBound_iff hd, fracBound_iff hd']
  exact ⟨fun h => ⟨h.1, h.2.1⟩, fun h => ⟨h.1, h.2, decodedFrac_mono hd hle h.1 h.2⟩⟩

theorem encfrac_faithful_iff_200 :
    (FracBound (.fin (1 / 2)) (decodedFrac (.fin (1 / 2))) ∧
        FracBound (.fin 200) (decodedFrac (.fin 200)) ∧
        decodedFrac (.fin (1 / 2)) ≤ decodedFrac (.fin 200)) ↔
      FracHeld (.fin (1 / 2)) ∧ FracHeld (.fin 200) :=
  encfrac_faithful_iff (by norm_num) (by norm_num)

/-- 2³⁸ is read as a negative number, and 2³⁹ as nothing. -/
theorem large_frac_negative :
    decodedFrac (.fin (2 ^ 38)) = .fin (-2 ^ 38) ∧ decodedFrac (.fin (2 ^ 39)) = .fin 0 ∧
      ¬ FracBound (.fin (2 ^ 39)) (decodedFrac (.fin (2 ^ 39))) ∧
      ¬ decodedFrac (.fin 1) ≤ decodedFrac (.fin (2 ^ 38)) := by
  have h1 : decodedFrac (.fin 1) = .fin 1 := by decide +kernel
  have h38 : decodedFrac (.fin (2 ^ 38)) = .fin (-2 ^ 38) := by decide +kernel
  have h39 : decodedFrac (.fin (2 ^ 39)) = .fin 0 := by decide +kernel
  refine ⟨h38, h39, ?_, ?_⟩
  · rw [h39]
    intro h
    have herr := h.2.2.1 (by norm_num)
    norm_num at herr
  · rw [h1, h38, Double.fin_le_fin]
    norm_num

end Opticon
