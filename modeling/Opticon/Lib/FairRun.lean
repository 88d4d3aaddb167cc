import Opticon.Lib.Transition
import Mathlib.Algebra.Order.Group.Nat

/-! Runs that never end, and what is reached on them when the schedule is fair. -/

universe u v w

namespace Transition

variable {σ : Type u} {ι : Type v} {τ : Type w} {S : Transition σ ι}

/-- An infinite run. The system may rest between two steps. -/
structure Endless (S : Transition σ ι) where
  state : ℕ → σ
  label : ℕ → Option ι
  init : S.init (state 0)
  step : ∀ k l, label k = some l → S.step (state k) l (state (k + 1))
  rest : ∀ k, label k = none → state (k + 1) = state k

namespace Endless

variable {ρ : S.Endless}

theorem reachable (ρ : S.Endless) (k : ℕ) : S.Reachable (ρ.state k) := by
  induction k with
  | zero => exact Reachable.init ρ.init
  | succ k ih =>
    cases hl : ρ.label k with
    | none => rwa [ρ.rest k hl]
    | some l => exact ih.step (ρ.step k l hl)

/-- Steps that are possible from some time on are not put off for ever. -/
def WeaklyFair (ρ : S.Endless) (T : ι → Prop) : Prop :=
  ∀ k, (∀ m ≥ k, ∃ l t, T l ∧ S.step (ρ.state m) l t) → ∃ m ≥ k, ∃ l, ρ.label m = some l ∧ T l

/-- Where nothing is possible in the end, the schedule is fair. -/
theorem WeaklyFair.of_rest {T : ι → Prop} {n : ℕ} {s : σ} (hrest : ∀ m ≥ n, ρ.state m = s)
    (hs : ∀ l t, T l → ¬ S.step s l t) : ρ.WeaklyFair T := by
  intro k henabled
  obtain ⟨l, t, hl, hstep⟩ := henabled (max k n) (le_max_left k n)
  rw [hrest (max k n) (le_max_right k n)] at hstep
  exact absurd hstep (hs l t hl)

/-- The rule of the helpful party: its next step is possible while the goal is ahead and
makes the rank smaller, the steps of the others leave rank and party or make the rank
smaller too. -/
theorem leadsTo {P Q : σ → Prop} {T : τ → ι → Prop} (rank : σ → ℕ) (helpful : σ → τ)
    (hfair : ∀ p, ρ.WeaklyFair (T p))
    (henabled : ∀ s, P s → ∃ l t, T (helpful s) l ∧ S.step s l t)
    (hstep : ∀ s l t, P s → S.step s l t → Q t ∨ P t ∧
      (rank t < rank s ∨ rank t = rank s ∧ helpful t = helpful s ∧ ¬ T (helpful s) l))
    {k : ℕ} (h : P (ρ.state k)) : ∃ m ≥ k, Q (ρ.state m) := by
  induction hr : rank (ρ.state k) using Nat.strongRecOn generalizing k with
  | ind r ih =>
  by_contra hno
  simp only [not_exists, not_and] at hno
  -- up to the goal no step can make the rank smaller
  have hsame : ∀ m ≥ k, P (ρ.state m) → rank (ρ.state m) = r → ∀ l, ρ.label m = some l →
      P (ρ.state (m + 1)) ∧ rank (ρ.state (m + 1)) = r ∧
        helpful (ρ.state (m + 1)) = helpful (ρ.state m) ∧ ¬ T (helpful (ρ.state m)) l := by
    intro m hm hp hrank l hl
    obtain hq | ⟨hp', hlt | ⟨heq, hparty, hT⟩⟩ := hstep _ l _ hp (ρ.step m l hl)
    · exact absurd hq (hno (m + 1) (by omega))
    · obtain ⟨m', hm', hq⟩ := ih _ (hrank ▸ hlt) hp' rfl
      exact absurd hq (hno m' (by omega))
    · exact ⟨hp', heq.trans hrank, hparty, hT⟩
  have hstay : ∀ m ≥ k, P (ρ.state m) ∧ rank (ρ.state m) = r ∧
      helpful (ρ.state m) = helpful (ρ.state k) := by
    intro m hm
    induction m, hm using Nat.le_induction with
    | base => exact ⟨h, hr, rfl⟩
    | succ m hm ihm =>
      obtain ⟨hp, hrank, hparty⟩ := ihm
      cases hl : ρ.label m with
      | none =>
        rw [ρ.rest m hl]
        exact ⟨hp, hrank, hparty⟩
      | some l =>
        obtain ⟨hp', hrank', hparty', -⟩ := hsame m hm hp hrank l hl
        exact ⟨hp', hrank', hparty'.trans hparty⟩
  obtain ⟨m, hm, l, hl, hT⟩ := hfair (helpful (ρ.state k)) k fun m hm => by
    rw [← (hstay m hm).2.2]
    exact henabled _ (hstay m hm).1
  obtain ⟨hp, hrank, hparty⟩ := hstay m hm
  rw [← hparty] at hT
  exact (hsame m hm hp hrank l hl).2.2.2 hT

end Endless

/-- After a finite run the system can rest for ever. -/
theorem History.endless {ls : List ι} {t : σ} (h : S.History ls t) :
    ∃ ρ : S.Endless, ∀ m ≥ ls.length, ρ.state m = t := by
  suffices hext : ∃ ρ : S.Endless, ∀ m ≥ ls.length, ρ.state m = t ∧ ρ.label m = none by
    obtain ⟨ρ, hρ⟩ := hext
    exact ⟨ρ, fun m hm => (hρ m hm).1⟩
  apply h.induction (I := fun ls t =>
    ∃ ρ : S.Endless, ∀ m ≥ ls.length, ρ.state m = t ∧ ρ.label m = none)
  · intro s hs
    exact ⟨⟨fun _ => s, fun _ => none, hs, fun _ _ hl => (by cases hl), fun _ _ => rfl⟩,
      fun _ _ => ⟨rfl, rfl⟩⟩
  · rintro ls s l t ⟨ρ, hρ⟩ hs
    refine ⟨⟨fun m => if m ≤ ls.length then ρ.state m else t,
      fun m => if m = ls.length then some l else ρ.label m, ?_, ?_, ?_⟩, ?_⟩
    · simpa using ρ.init
    · intro m l' hl
      obtain hlt | rfl | hgt := Nat.lt_trichotomy m ls.length
      · rw [if_neg hlt.ne] at hl
        rw [if_pos hlt.le, if_pos (Nat.succ_le_of_lt hlt)]
        exact ρ.step m l' hl
      · rw [if_pos rfl] at hl
        cases hl
        rw [if_pos le_rfl, if_neg (by omega), (hρ _ le_rfl).1]
        exact hs
      · rw [if_neg hgt.ne', (hρ m hgt.le).2] at hl
        cases hl
    · intro m hl
      obtain hlt | rfl | hgt := Nat.lt_trichotomy m ls.length
      · rw [if_neg hlt.ne] at hl
        rw [if_pos hlt.le, if_pos (Nat.succ_le_of_lt hlt)]
        exact ρ.rest m hl
      · simp at hl
      · rw [if_neg (by omega), if_neg (by omega)]
    · intro m hm
      rw [List.length_append, List.length_singleton] at hm
      exact ⟨if_neg (by omega), (if_neg (by omega)).trans (hρ m (by omega)).2⟩

end Transition
