import Mathlib.Algebra.Order.Floor.Ring
import Mathlib.Data.Rat.Floor
import Mathlib.Tactic.Linarith
import Mathlib.Tactic.Positivity
import Mathlib.Tactic.Ring

/-! Numbers between two neighbours of a grid, which is halved from step to step. -/

/-- The number is on the place `k` of the grid with steps of `2 ^ e`, or before the next one. -/
structure DyadicCell (k : ℤ) (e : ℕ) (d : ℚ) : Prop where
  le : k * 2 ^ e ≤ d
  lt : d < (k + 1) * 2 ^ e

namespace DyadicCell

variable {k k' : ℤ} {e e' : ℕ} {d d' : ℚ}

theorem floor (d : ℚ) (e : ℕ) : DyadicCell ⌊d / 2 ^ e⌋ e d := by
  have hpos : (0 : ℚ) < 2 ^ e := by positivity
  constructor
  · exact (le_div_iff₀ hpos).mp (Int.floor_le _)
  · exact (div_lt_iff₀ hpos).mp (Int.lt_floor_add_one _)

theorem halve (h : DyadicCell k e d) : DyadicCell ⌊(k : ℚ) / 2⌋ (e + 1) d := by
  have hpos : (0 : ℚ) < 2 ^ e := by positivity
  have hle : (⌊(k : ℚ) / 2⌋ : ℚ) ≤ k / 2 := Int.floor_le _
  have hlt : k + 1 ≤ 2 * (⌊(k : ℚ) / 2⌋ + 1) := by
    have hfloor := Int.lt_floor_add_one ((k : ℚ) / 2)
    have hk : (k : ℚ) < 2 * (⌊(k : ℚ) / 2⌋ + 1) := by linarith
    exact_mod_cast hk
  have hlt : (k : ℚ) + 1 ≤ 2 * (⌊(k : ℚ) / 2⌋ + 1) := by exact_mod_cast hlt
  constructor
  · calc (⌊(k : ℚ) / 2⌋ : ℚ) * 2 ^ (e + 1) = 2 * ⌊(k : ℚ) / 2⌋ * 2 ^ e := by ring
      _ ≤ k * 2 ^ e := mul_le_mul_of_nonneg_right (by linarith) hpos.le
      _ ≤ d := h.le
  · calc d < (k + 1) * 2 ^ e := h.lt
      _ ≤ 2 * (⌊(k : ℚ) / 2⌋ + 1) * 2 ^ e := mul_le_mul_of_nonneg_right hlt hpos.le
      _ = (⌊(k : ℚ) / 2⌋ + 1) * 2 ^ (e + 1) := by ring

/-- On one grid the places are in the order of the numbers. -/
theorem place_mono (h : DyadicCell k e d) (h' : DyadicCell k' e d') (hle : d ≤ d') : k ≤ k' := by
  have hpos : (0 : ℚ) < 2 ^ e := by positivity
  have hlt : (k : ℚ) * 2 ^ e < (k' + 1) * 2 ^ e := by linarith [h.le, h'.lt]
  have hlt : (k : ℚ) < k' + 1 := lt_of_mul_lt_mul_right hlt hpos.le
  exact Int.lt_add_one_iff.mp (by exact_mod_cast hlt)

/-- A place of 8 bits of a grid is below every place of 8 bits of a wider one that has its
highest bit. -/
theorem lt_wider (h : DyadicCell k e d) (hk : k ≤ 255) (hk' : 128 ≤ k') (he : e < e') :
    d < k' * 2 ^ e' := by
  obtain ⟨n, rfl⟩ := Nat.exists_eq_add_of_lt he
  have hpos : (0 : ℚ) < 2 ^ e := by positivity
  have hk : (k : ℚ) + 1 ≤ 256 := by exact_mod_cast (by omega : k + 1 ≤ 256)
  have hk' : (128 : ℚ) ≤ k' := by exact_mod_cast hk'
  have hn : (1 : ℚ) ≤ 2 ^ n := one_le_pow₀ (by norm_num)
  calc d < (k + 1) * 2 ^ e := h.lt
    _ ≤ 256 * 2 ^ e := mul_le_mul_of_nonneg_right hk hpos.le
    _ ≤ 256 * 2 ^ e * 2 ^ n := le_mul_of_one_le_right (by positivity) hn
    _ = 128 * 2 ^ (e + n + 1) := by ring
    _ ≤ k' * 2 ^ (e + n + 1) := mul_le_mul_of_nonneg_right hk' (by positivity)

/-- A place of 8 bits, with its highest bit but for the narrowest grid. -/
structure Normal (k : ℤ) (e : ℕ) (d : ℚ) (first : ℕ) : Prop extends DyadicCell k e d where
  byte : k ≤ 255
  high : e = first ∨ 128 ≤ k
  first_le : first ≤ e

theorem Normal.value_mono {first : ℕ} (h : Normal k e d first) (h' : Normal k' e' d' first)
    (hle : d ≤ d') : (k : ℚ) * 2 ^ e ≤ k' * 2 ^ e' := by
  obtain hlt | rfl | hgt := Nat.lt_trichotomy e e'
  · have hk' : 128 ≤ k' := h'.high.resolve_left (by have := h.first_le; omega)
    exact (h.le.trans_lt (h.lt_wider h.byte hk' hlt)).le
  · have hk : (k : ℚ) ≤ k' := by exact_mod_cast h.place_mono h'.toDyadicCell hle
    exact mul_le_mul_of_nonneg_right hk (by positivity)
  · have hk : 128 ≤ k := h.high.resolve_left (by have := h'.first_le; omega)
    have hlt := h'.lt_wider h'.byte hk hgt
    linarith [h.le]

end DyadicCell
