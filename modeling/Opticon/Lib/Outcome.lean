import Mathlib.Data.List.Forall2

/-! Computations that may fault: what a successful bind is made of. -/

universe u v w

namespace Outcome

variable {ε : Type u} {α β : Type v}

/-- Two computations that end alike: with results that are related, or with the same error. -/
inductive Alike {α' : Type w} (R : α → α' → Prop) : Except ε α → Except ε α' → Prop
  | ok {a : α} {a' : α'} : R a a' → Alike R (.ok a) (.ok a')
  | error (e : ε) : Alike R (.error e) (.error e)

instance decEq [DecidableEq ε] [DecidableEq α] : DecidableEq (Except ε α)
  | .error e, .error e' => decidable_of_iff (e = e') (by simp)
  | .ok a, .ok a' => decidable_of_iff (a = a') (by simp)
  | .error _, .ok _ => .isFalse (by simp)
  | .ok _, .error _ => .isFalse (by simp)

@[simp] theorem bind_ok_iff {x : Except ε α} {f : α → Except ε β} {r : β} :
    (x >>= f) = .ok r ↔ ∃ a, x = .ok a ∧ f a = .ok r := by
  cases x with
  | error e => simp [Bind.bind, Except.bind]
  | ok a => simp [Bind.bind, Except.bind]

theorem bind_error_iff {x : Except ε α} {f : α → Except ε β} {e : ε} :
    (x >>= f) = .error e ↔ x = .error e ∨ ∃ a, x = .ok a ∧ f a = .error e := by
  cases x with
  | error e' => simp [Bind.bind, Except.bind]
  | ok a => simp [Bind.bind, Except.bind]

/-- An error that neither part ends with. -/
theorem bind_ne_error {x : Except ε α} {f : α → Except ε β} {e : ε} (hx : x ≠ .error e)
    (hf : ∀ a, x = .ok a → f a ≠ .error e) : (x >>= f) ≠ .error e := by
  rw [ne_eq, bind_error_iff]
  rintro (h | ⟨a, ha, h⟩)
  · exact hx h
  · exact hf a ha h

theorem Alike.bind {α' β' : Type w} {R : α → α' → Prop} {S : β → β' → Prop} {x : Except ε α}
    {x' : Except ε α'} {f : α → Except ε β} {f' : α' → Except ε β'} (h : Alike R x x')
    (hf : ∀ a a', R a a' → Alike S (f a) (f' a')) : Alike S (x >>= f) (x' >>= f') := by
  cases h with
  | ok h => exact hf _ _ h
  | error e => exact .error e

theorem Alike.of_ok {α' : Type w} {R : α → α' → Prop} {x : Except ε α} {a' : α'}
    (h : Alike R x (.ok a')) : ∃ a, x = .ok a ∧ R a a' := by
  cases h with
  | ok h => exact ⟨_, rfl, h⟩

@[simp] theorem ok_bind (a : α) (f : α → Except ε β) : (Except.ok a >>= f) = f a := rfl

@[simp] theorem error_bind (e : ε) (f : α → Except ε β) :
    (Except.error e >>= f) = Except.error e := rfl

@[simp] theorem pure_ok (a : α) : (pure a : Except ε α) = .ok a := rfl

section Lists

variable {σ ι : Type}

theorem mapM_ok_iff {f : α → Except ε β} {xs : List α} {ys : List β} :
    xs.mapM f = .ok ys ↔ List.Forall₂ (fun x y => f x = .ok y) xs ys := by
  induction xs generalizing ys with
  | nil =>
    rw [List.mapM_nil, List.forall₂_nil_left_iff]
    exact ⟨fun h => (Except.ok.inj h).symm, fun h => h ▸ rfl⟩
  | cons x xs ih =>
    rw [List.mapM_cons, bind_ok_iff, List.forall₂_cons_left_iff]
    constructor
    · rintro ⟨y, hy, h⟩
      obtain ⟨ys', hys, h⟩ := bind_ok_iff.mp h
      exact ⟨y, ys', hy, ih.mp hys, (Except.ok.inj h).symm⟩
    · rintro ⟨y, ys', hy, hys, rfl⟩
      refine ⟨y, hy, ?_⟩
      rw [ih.mpr hys]
      rfl

theorem forall₂_exists_iff {R : α → σ → Prop} {S : σ → β → Prop} {xs : List α} {ys : List β} :
    (∃ zs, List.Forall₂ R xs zs ∧ List.Forall₂ S zs ys) ↔
      List.Forall₂ (fun x y => ∃ z, R x z ∧ S z y) xs ys := by
  constructor
  · rintro ⟨zs, hR, hS⟩
    induction hR generalizing ys with
    | nil =>
      cases hS
      exact .nil
    | cons hx _ ih =>
      cases hS with
      | cons hz hS => exact .cons ⟨_, hx, hz⟩ (ih hS)
  · intro h
    induction h with
    | nil => exact ⟨[], .nil, .nil⟩
    | cons hxy _ ih =>
      obtain ⟨z, hx, hz⟩ := hxy
      obtain ⟨zs, hR, hS⟩ := ih
      exact ⟨z :: zs, .cons hx hR, .cons hz hS⟩

/-- Elements that are changed side by side are changed one by one. -/
theorem foldlM_mapM_ok_iff {f : σ → ι → Except ε σ} {xs : List ι} {ss ts : List σ} :
    xs.foldlM (fun ss x => ss.mapM fun s => f s x) ss = .ok ts ↔
      List.Forall₂ (fun s t => xs.foldlM f s = .ok t) ss ts := by
  induction xs generalizing ss with
  | nil => simp only [List.foldlM_nil, pure_ok, Except.ok.injEq, List.forall₂_eq_eq_eq]
  | cons x xs ih =>
    simp only [List.foldlM_cons, bind_ok_iff, mapM_ok_iff, ih, forall₂_exists_iff]

end Lists

end Outcome
