import Mathlib.Data.List.Basic

/-! Wildcard patterns: sequences of items that stand for one element or for a run of them. -/

universe u

namespace Wildcard

variable {α : Type u}

inductive Item (α : Type u)
  | one (p : α → Bool)
  | many (p : α → Bool)

/-- The lists that a pattern stands for. -/
inductive Matches : List (Item α) → List α → Prop
  | nil : Matches [] []
  | one {p : α → Bool} {ts : List (Item α)} {c : α} {s : List α} :
      p c = true → Matches ts s → Matches (.one p :: ts) (c :: s)
  | many {p : α → Bool} {ts : List (Item α)} {s : List α} (u : List α) :
      (∀ c ∈ u, p c = true) → Matches ts s → Matches (.many p :: ts) (u ++ s)

variable {p : α → Bool} {ts ts' : List (Item α)} {c : α} {s : List α}

@[simp] theorem matches_nil_iff : Matches [] s ↔ s = [] := by
  constructor
  · intro h
    cases h
    rfl
  · rintro rfl
    exact .nil

@[simp] theorem not_matches_one_nil : ¬ Matches (.one p :: ts) [] := by
  intro h
  cases h

@[simp] theorem matches_one_cons : Matches (.one p :: ts) (c :: s) ↔ p c = true ∧ Matches ts s := by
  constructor
  · intro h
    cases h with
    | one hc h => exact ⟨hc, h⟩
  · rintro ⟨hc, h⟩
    exact .one hc h

theorem matches_many_iff : Matches (.many p :: ts) s ↔
    ∃ u v, s = u ++ v ∧ (∀ c ∈ u, p c = true) ∧ Matches ts v := by
  constructor
  · intro h
    cases h with
    | many u hu h => exact ⟨u, _, rfl, hu, h⟩
  · rintro ⟨u, v, rfl, hu, h⟩
    exact .many u hu h

@[simp] theorem matches_many_nil : Matches (.many p :: ts) [] ↔ Matches ts [] := by
  rw [matches_many_iff]
  constructor
  · rintro ⟨u, v, huv, -, h⟩
    obtain ⟨rfl, rfl⟩ := List.append_eq_nil_iff.mp huv.symm
    exact h
  · intro h
    exact ⟨[], [], rfl, by simp, h⟩

theorem Matches.skip (h : Matches ts s) : Matches (.many p :: ts) s := .many [] (by simp) h

/-- A run takes nothing or the first element. -/
@[simp] theorem matches_many_cons : Matches (.many p :: ts) (c :: s) ↔
    Matches ts (c :: s) ∨ p c = true ∧ Matches (.many p :: ts) s := by
  constructor
  · intro h
    obtain ⟨u, v, huv, hu, hv⟩ := matches_many_iff.mp h
    cases u with
    | nil =>
      rw [List.nil_append] at huv
      exact .inl (huv ▸ hv)
    | cons d u =>
      obtain ⟨rfl, rfl⟩ := List.cons.inj huv
      exact .inr ⟨hu _ (by simp), .many u (fun e he => hu e (by simp [he])) hv⟩
  · rintro (h | ⟨hc, h⟩)
    · exact h.skip
    · obtain ⟨u, v, rfl, hu, hv⟩ := matches_many_iff.mp h
      exact .many (c :: u) (by simpa using ⟨hc, hu⟩) hv

/-- A run of any elements takes whatever stands before the rest. -/
theorem matches_any_iff : Matches (.many (fun _ => true) :: ts) s ↔ ∃ k, Matches ts (s.drop k) := by
  rw [matches_many_iff]
  constructor
  · rintro ⟨u, v, rfl, -, h⟩
    exact ⟨u.length, by rwa [List.drop_left]⟩
  · rintro ⟨k, h⟩
    exact ⟨s.take k, s.drop k, (List.take_append_drop k s).symm, fun _ _ => rfl, h⟩

theorem matches_append_iff : Matches (ts ++ ts') s ↔
    ∃ u v, s = u ++ v ∧ Matches ts u ∧ Matches ts' v := by
  induction ts generalizing s with
  | nil => simp
  | cons t ts ih =>
    rw [List.cons_append]
    cases t with
    | one p =>
      cases s with
      | nil => simp
      | cons c s =>
        rw [matches_one_cons, ih]
        constructor
        · rintro ⟨hc, u, v, rfl, hu, hv⟩
          exact ⟨c :: u, v, rfl, .one hc hu, hv⟩
        · rintro ⟨u, v, huv, hu, hv⟩
          cases hu with
          | one hc hu =>
            obtain ⟨rfl, rfl⟩ := List.cons.inj huv
            exact ⟨hc, _, v, rfl, hu, hv⟩
    | many p =>
      rw [matches_many_iff]
      constructor
      · rintro ⟨u, v, rfl, hu, h⟩
        obtain ⟨v, w, rfl, hv, hw⟩ := ih.mp h
        exact ⟨u ++ v, w, (List.append_assoc u v w).symm, .many u hu hv, hw⟩
      · rintro ⟨u, w, rfl, hu, hw⟩
        cases hu with
        | many u hu hv =>
          exact ⟨u, _, List.append_assoc _ _ _, hu, ih.mpr ⟨_, w, rfl, hv, hw⟩⟩

/-- What matches a pattern has a part in front that matches the first part of the pattern. -/
theorem Matches.relax (h : Matches (ts ++ ts') s) :
    Matches (ts ++ [.many fun _ => true]) s := by
  obtain ⟨u, v, rfl, hu, -⟩ := matches_append_iff.mp h
  refine matches_append_iff.mpr ⟨u, v, rfl, hu, ?_⟩
  exact matches_any_iff.mpr ⟨v.length, by rw [List.drop_length]; exact .nil⟩

/-- Elements that are spelt out match themselves only. -/
theorem matches_spelt [DecidableEq α] {b : List α} :
    Matches (b.map (fun c => .one (· == c)) ++ ts) s ↔ ∃ v, s = b ++ v ∧ Matches ts v := by
  induction b generalizing s with
  | nil => simp
  | cons c b ih =>
    rw [List.map_cons, List.cons_append]
    cases s with
    | nil => simp
    | cons d s =>
      rw [matches_one_cons, ih, beq_iff_eq]
      constructor
      · rintro ⟨rfl, v, rfl, hv⟩
        exact ⟨v, rfl, hv⟩
      · rintro ⟨v, hs, hv⟩
        obtain ⟨rfl, rfl⟩ := List.cons.inj hs
        exact ⟨rfl, v, rfl, hv⟩

end Wildcard
