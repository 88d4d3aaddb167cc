import Mathlib.Data.Nat.ModEq
import Mathlib.Tactic.Ring

/-! Sums of digits in a base, whose carries are added to them. -/

namespace EndAround

variable {b s t : ℕ}

def around (b s : ℕ) : ℕ := s / b + s % b

/-- Twice is enough for what has two digits. -/
def fold (b s : ℕ) : ℕ := around b (around b s)

/-- The base is one more than a multiple of what the sum is taken of. -/
theorem around_modEq (hb : 0 < b) (s : ℕ) : around b s ≡ s [MOD b - 1] := by
  have hone : b ≡ 1 [MOD b - 1] := (Nat.modEq_iff_dvd' hb).mpr dvd_rfl |>.symm
  calc s / b + s % b ≡ b * (s / b) + s % b [MOD b - 1] := by
        refine Nat.ModEq.add_right _ ?_
        simpa using (hone.mul_right (s / b)).symm
    _ = s := Nat.div_add_mod s b

theorem fold_modEq (hb : 0 < b) (s : ℕ) : fold b s ≡ s [MOD b - 1] :=
  (around_modEq hb _).trans (around_modEq hb s)

theorem around_eq_zero : around b s = 0 ↔ s = 0 := by
  rw [around, Nat.add_eq_zero_iff]
  refine ⟨fun ⟨hq, hr⟩ => ?_, fun h => by simp [h]⟩
  rw [← Nat.div_add_mod s b, hq, hr]
  rfl

theorem fold_lt (hb : 1 < b) (hs : s < b * b) : fold b s < b := by
  have hq : s / b < b := Nat.div_lt_of_lt_mul hs
  have hr : s % b < b := Nat.mod_lt _ (by omega)
  have hsum : around b s < 2 * b - 1 := by
    rw [around]
    omega
  rw [fold]
  generalize around b s = t at hsum ⊢
  rw [around]
  obtain ht | ht := Nat.lt_or_ge t b
  · rw [Nat.div_eq_of_lt ht, Nat.mod_eq_of_lt ht]
    omega
  · have hdiv : t / b = 1 := Nat.div_eq_of_lt_le (by omega) (by omega)
    have hmod : t % b = t - b := by
      rw [Nat.mod_eq_sub_mod ht, Nat.mod_eq_of_lt (by omega)]
    omega

/-- The largest digit is what is left of the multiples that are not zero. -/
theorem fold_eq_last_iff (hb : 2 < b) (hs : s < b * b) : fold b s = b - 1 ↔ s ≠ 0 ∧ (b - 1) ∣ s := by
  have hmod := fold_modEq (by omega : 0 < b) s
  have hlt := fold_lt (by omega) hs
  have hzero : fold b s = 0 ↔ s = 0 := around_eq_zero.trans around_eq_zero
  rw [← Nat.modEq_zero_iff_dvd]
  constructor
  · intro heq
    rw [heq] at hmod
    exact ⟨fun h => by rw [hzero.mpr h] at heq; omega, hmod.symm.trans (Nat.modEq_zero_iff_dvd.mpr dvd_rfl)⟩
  · rintro ⟨hne, hdvd⟩
    obtain ⟨k, hk⟩ := Nat.modEq_zero_iff_dvd.mp (hmod.trans hdvd)
    have hpos : fold b s ≠ 0 := fun h => hne (hzero.mp h)
    obtain _ | _ | k := k
    · rw [Nat.mul_zero] at hk
      exact absurd hk hpos
    · rw [hk]
      ring
    · have : (b - 1) * 2 ≤ (b - 1) * (k + 1 + 1) := Nat.mul_le_mul_left _ (by omega)
      omega

/-- What the sum lacks, added to it, makes it the largest digit. -/
theorem fold_completed (hb : 2 < b) (hs : s + (b - 1 - fold b s) < b * b) :
    fold b (s + (b - 1 - fold b s)) = b - 1 := by
  have hlt := fold_lt (by omega : 1 < b) (by omega : s < b * b)
  rw [fold_eq_last_iff hb hs]
  constructor
  · intro h
    obtain ⟨rfl, hlast⟩ := Nat.add_eq_zero_iff.mp h
    have hzero : fold b 0 = 0 := around_eq_zero.mpr (around_eq_zero.mpr rfl)
    omega
  · have hmod := (fold_modEq (by omega : 0 < b) s).symm.add_right (b - 1 - fold b s)
    rw [Nat.add_sub_cancel' (by omega)] at hmod
    exact Nat.modEq_zero_iff_dvd.mp (hmod.trans (Nat.modEq_zero_iff_dvd.mpr dvd_rfl))

/-- Two digits that complete the same sum are the same, but for the two that count as nothing. -/
theorem completing_digits {x y : ℕ} (hb : 2 < b) (hx : x < b) (hy : y < b) (hsx : s + x < b * b)
    (hsy : s + y < b * b) (hfx : fold b (s + x) = b - 1) (hfy : fold b (s + y) = b - 1) :
    x = y ∨ x = 0 ∧ y = b - 1 ∨ x = b - 1 ∧ y = 0 := by
  obtain ⟨-, hdx⟩ := (fold_eq_last_iff hb hsx).mp hfx
  obtain ⟨-, hdy⟩ := (fold_eq_last_iff hb hsy).mp hfy
  have hmod : x ≡ y [MOD b - 1] := Nat.ModEq.add_left_cancel' s
    ((Nat.modEq_zero_iff_dvd.mpr hdx).trans (Nat.modEq_zero_iff_dvd.mpr hdy).symm)
  obtain hxl | hxl := Nat.lt_or_ge x (b - 1)
  · obtain hyl | hyl := Nat.lt_or_ge y (b - 1)
    · exact .inl (Nat.ModEq.eq_of_lt_of_lt hmod hxl hyl)
    · obtain rfl : y = b - 1 := by omega
      have hzero := hmod.trans (Nat.modEq_zero_iff_dvd.mpr dvd_rfl)
      exact .inr (.inl ⟨Nat.ModEq.eq_of_lt_of_lt hzero hxl (by omega), rfl⟩)
  · obtain rfl : x = b - 1 := by omega
    obtain hyl | hyl := Nat.lt_or_ge y (b - 1)
    · have hzero := hmod.symm.trans (Nat.modEq_zero_iff_dvd.mpr dvd_rfl)
      exact .inr (.inr ⟨rfl, Nat.ModEq.eq_of_lt_of_lt hzero hyl (by omega)⟩)
    · exact .inl (by omega)

end EndAround
