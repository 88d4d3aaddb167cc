import Mathlib.Order.WellFounded

/-! Loops that return: each turn gives the next state or the value returned. -/

universe u v w

namespace Loop

variable {σ : Type u} {ρ : Type v} {step : σ → σ ⊕ ρ}

/-- The value returned, if it is returned within so many turns. -/
def run (step : σ → σ ⊕ ρ) : ℕ → σ → Option ρ
  | 0, _ => none
  | fuel + 1, s =>
    match step s with
    | .inl s => run step fuel s
    | .inr r => some r

theorem run_inl {fuel : ℕ} {s s' : σ} (h : step s = .inl s') :
    run step (fuel + 1) s = run step fuel s' := by
  rw [run, h]

theorem run_inr {fuel : ℕ} {s : σ} {r : ρ} (h : step s = .inr r) :
    run step (fuel + 1) s = some r := by
  rw [run, h]

theorem run_mono {fuel : ℕ} {s : σ} {r : ρ} (h : run step fuel s = some r) {fuel' : ℕ}
    (hle : fuel ≤ fuel') : run step fuel' s = some r := by
  induction fuel generalizing s fuel' with
  | zero => cases h
  | succ fuel ih =>
    obtain ⟨n, rfl⟩ := Nat.exists_eq_add_of_le' (Nat.le_trans (Nat.succ_pos fuel) hle)
    cases hs : step s with
    | inl s' =>
      rw [run_inl hs] at h ⊢
      exact ih h (Nat.le_of_succ_le_succ hle)
    | inr r' =>
      rw [run_inr hs] at h ⊢
      exact h

theorem run_unique {fuel fuel' : ℕ} {s : σ} {r r' : ρ} (h : run step fuel s = some r)
    (h' : run step fuel' s = some r') : r = r' := by
  have hmax := run_mono h (Nat.le_max_left fuel fuel')
  rw [run_mono h' (Nat.le_max_right fuel fuel')] at hmax
  exact (Option.some.inj hmax).symm

/-- What an invariant gives of the value returned. -/
theorem run_inv (Inv : σ → Prop) (Post : ρ → Prop)
    (hstep : ∀ s s', Inv s → step s = .inl s' → Inv s')
    (hend : ∀ s r, Inv s → step s = .inr r → Post r) {fuel : ℕ} {s : σ} {r : ρ} (hs : Inv s)
    (h : run step fuel s = some r) : Post r := by
  induction fuel generalizing s with
  | zero => cases h
  | succ fuel ih =>
    cases hst : step s with
    | inl s' =>
      rw [run_inl hst] at h
      exact ih (hstep s s' hs hst) h
    | inr r' =>
      rw [run_inr hst] at h
      exact Option.some.inj h ▸ hend s r' hs hst

/-- A loop whose turns lower a rank returns. -/
theorem run_ends (Inv : σ → Prop) {β : Type w} {lt : β → β → Prop} (hwf : WellFounded lt)
    (rank : σ → β) (hstep : ∀ s s', Inv s → step s = .inl s' → Inv s' ∧ lt (rank s') (rank s))
    {s : σ} (hs : Inv s) : ∃ fuel r, run step fuel s = some r := by
  induction hb : rank s using hwf.induction generalizing s with
  | _ b ih =>
    cases hst : step s with
    | inr r => exact ⟨1, r, run_inr hst⟩
    | inl s' =>
      obtain ⟨hs', hlt⟩ := hstep s s' hs hst
      obtain ⟨fuel, r, h⟩ := ih _ (hb ▸ hlt) hs' rfl
      exact ⟨fuel + 1, r, by rw [run_inl hst, h]⟩

end Loop
