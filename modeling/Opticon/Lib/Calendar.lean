import Mathlib.Algebra.BigOperators.Group.List.Basic
import Mathlib.Algebra.Ring.Nat

/-! Dates of the Gregorian calendar, from 1970 on. -/

namespace Calendar

def leap (y : Nat) : Bool := y % 4 = 0 && (y % 100 ≠ 0 || y % 400 = 0)

def yearLength (y : Nat) : Nat := if leap y then 366 else 365

def monthLengths (y : Nat) : List Nat :=
  [31, if leap y then 29 else 28, 31, 30, 31, 30, 31, 31, 30, 31, 30, 31]

/-- The year a number of days from the start of year `y` on leads to, and the days left. -/
def yearOf : Nat → Nat → Nat → Nat × Nat
  | 0, y, d => (y, d)
  | n + 1, y, d => if d < yearLength y then (y, d) else yearOf n (y + 1) (d - yearLength y)

/-- The same for months of the given lengths. -/
def monthOf : List Nat → Nat → Nat → Nat × Nat
  | [], m, d => (m, d)
  | l :: ls, m, d => if d < l then (m, d) else monthOf ls (m + 1) (d - l)

@[ext] structure Date where
  year : Nat
  month : Nat
  day : Nat
  deriving DecidableEq

/-- The date a number of days after the first of January 1970. -/
def ofDays (days : Nat) : Date :=
  let y := yearOf (days + 1) 1970 days
  let m := monthOf (monthLengths y.1) 1 y.2
  ⟨y.1, m.1, m.2 + 1⟩

def daysOfYears : Nat → Nat → Nat
  | 0, _ => 0
  | n + 1, y => yearLength y + daysOfYears n (y + 1)

def toDays (t : Date) : Nat :=
  daysOfYears (t.year - 1970) 1970 + ((monthLengths t.year).take (t.month - 1)).sum + (t.day - 1)

theorem yearLength_pos (y : Nat) : 0 < yearLength y := by
  unfold yearLength
  split <;> decide

theorem sum_monthLengths (y : Nat) : (monthLengths y).sum = yearLength y := by
  unfold monthLengths yearLength
  cases leap y <;> rfl

theorem monthLengths_le (y : Nat) : ∀ l ∈ monthLengths y, l ≤ 31 := by
  unfold monthLengths
  cases leap y <;> decide

theorem yearOf_spec {n y d : Nat} (h : d < n) :
    y ≤ (yearOf n y d).1 ∧ daysOfYears ((yearOf n y d).1 - y) y + (yearOf n y d).2 = d ∧
      (yearOf n y d).2 < yearLength (yearOf n y d).1 := by
  induction n generalizing y d with
  | zero => omega
  | succ n ih =>
    simp only [yearOf]
    split
    · exact ⟨Nat.le_refl y, by simp [daysOfYears], ‹_›⟩
    · have hpos := yearLength_pos y
      obtain ⟨hy, hsum, hlt⟩ := ih (y := y + 1) (d := d - yearLength y) (by omega)
      refine ⟨by omega, ?_, hlt⟩
      have hsub : (yearOf n (y + 1) (d - yearLength y)).1 - y =
          ((yearOf n (y + 1) (d - yearLength y)).1 - (y + 1)) + 1 := by
        omega
      rw [hsub, daysOfYears]
      omega

theorem monthOf_spec {ls : List Nat} {m d : Nat} (h : d < ls.sum) :
    ∃ k l, (monthOf ls m d).1 = m + k ∧ k < ls.length ∧ l ∈ ls ∧ (monthOf ls m d).2 < l ∧
      (ls.take k).sum + (monthOf ls m d).2 = d := by
  induction ls generalizing m d with
  | nil => simp at h
  | cons l ls ih =>
    simp only [monthOf]
    split
    · exact ⟨0, l, rfl, by simp, List.mem_cons_self, ‹_›, by simp⟩
    · rw [List.sum_cons] at h
      obtain ⟨k, l', hm, hk, hl', hlt, hsum⟩ := ih (m := m + 1) (d := d - l) (by omega)
      refine ⟨k + 1, l', by omega, by simpa using hk, List.mem_cons_of_mem l hl', hlt, ?_⟩
      rw [List.take_succ_cons, List.sum_cons]
      omega

theorem ofDays_spec (days : Nat) : toDays (ofDays days) = days ∧ (ofDays days).month < 100 ∧
    (ofDays days).day < 100 := by
  obtain ⟨hy, hyears, hlt⟩ := yearOf_spec (y := 1970) (Nat.lt_add_one days)
  rw [← sum_monthLengths] at hlt
  obtain ⟨k, l, hm, hk, hl, hd, hmonths⟩ := monthOf_spec (m := 1) hlt
  have hl := monthLengths_le _ l hl
  have hlen : ∀ y, (monthLengths y).length = 12 := fun _ => rfl
  rw [hlen] at hk
  simp only [toDays, ofDays]
  rw [hm, Nat.add_sub_cancel_left, Nat.add_sub_cancel]
  exact ⟨by omega, by omega, by omega⟩

theorem ofDays_bounds (days : Nat) : 1970 ≤ (ofDays days).year ∧ 1 ≤ (ofDays days).month ∧
    (ofDays days).month ≤ 12 ∧ 1 ≤ (ofDays days).day ∧ (ofDays days).day ≤ 31 := by
  obtain ⟨hy, -, hlt⟩ := yearOf_spec (y := 1970) (Nat.lt_add_one days)
  rw [← sum_monthLengths] at hlt
  obtain ⟨k, l, hm, hk, hl, hd, -⟩ := monthOf_spec (m := 1) hlt
  have hl := monthLengths_le _ l hl
  have hlen : ∀ y, (monthLengths y).length = 12 := fun _ => rfl
  rw [hlen] at hk
  simp only [ofDays]
  rw [hm]
  exact ⟨hy, by omega, by omega, by omega, by omega⟩

/-- More days lead to a later year, or further into the same one. -/
theorem yearOf_mono {n n' y d d' : Nat} (hn : d < n) (hn' : d' < n') (hd : d ≤ d') :
    (yearOf n y d).1 < (yearOf n' y d').1 ∨
      (yearOf n y d).1 = (yearOf n' y d').1 ∧ (yearOf n y d).2 ≤ (yearOf n' y d').2 := by
  induction n generalizing n' y d d' with
  | zero => omega
  | succ n ih =>
    obtain ⟨n', rfl⟩ : ∃ m, n' = m + 1 := ⟨n' - 1, by omega⟩
    simp only [yearOf]
    by_cases hlt : d < yearLength y
    · by_cases hlt' : d' < yearLength y
      · rw [if_pos hlt, if_pos hlt']
        exact .inr ⟨rfl, hd⟩
      · rw [if_pos hlt, if_neg hlt']
        have hpos := yearLength_pos y
        obtain ⟨hy, -⟩ := yearOf_spec (n := n') (y := y + 1) (d := d' - yearLength y) (by omega)
        exact .inl hy
    · have hpos := yearLength_pos y
      rw [if_neg hlt, if_neg (by omega)]
      exact ih (by omega) (by omega) (by omega)

theorem monthOf_mono {ls : List Nat} {m d d' : Nat} (hsum : d' < ls.sum) (hd : d ≤ d') :
    (monthOf ls m d).1 < (monthOf ls m d').1 ∨
      (monthOf ls m d).1 = (monthOf ls m d').1 ∧ (monthOf ls m d).2 ≤ (monthOf ls m d').2 := by
  induction ls generalizing m d d' with
  | nil => simp at hsum
  | cons l ls ih =>
    rw [List.sum_cons] at hsum
    simp only [monthOf]
    by_cases hlt : d < l
    · by_cases hlt' : d' < l
      · rw [if_pos hlt, if_pos hlt']
        exact .inr ⟨rfl, hd⟩
      · rw [if_pos hlt, if_neg hlt']
        have hleft : d' - l < ls.sum := by omega
        obtain ⟨k, -, hm, -⟩ := monthOf_spec (m := m + 1) hleft
        exact .inl (by omega)
    · rw [if_neg hlt, if_neg (by omega)]
      exact ih (by omega) (by omega)

theorem ofDays_mono {d d' : Nat} (hd : d ≤ d') :
    (ofDays d).year < (ofDays d').year ∨ (ofDays d).year = (ofDays d').year ∧
      ((ofDays d).month < (ofDays d').month ∨
        (ofDays d).month = (ofDays d').month ∧ (ofDays d).day ≤ (ofDays d').day) := by
  simp only [ofDays]
  obtain hlt | ⟨hyear, hrest⟩ := yearOf_mono (y := 1970) (Nat.lt_add_one d) (Nat.lt_add_one d') hd
  · exact .inl hlt
  · refine .inr ⟨hyear, ?_⟩
    obtain ⟨-, -, hlt⟩ := yearOf_spec (y := 1970) (Nat.lt_add_one d')
    rw [← sum_monthLengths] at hlt
    rw [hyear]
    obtain hmonth | ⟨hmonth, hday⟩ := monthOf_mono (m := 1) hlt hrest
    · exact .inl hmonth
    · exact .inr ⟨hmonth, Nat.succ_le_succ hday⟩

end Calendar
