import Mathlib.Data.List.Induction

universe u v

/-- A labelled transition system, given by its initial states and its steps. -/
structure Transition (σ : Type u) (ι : Type v) where
  init : σ → Prop
  step : σ → ι → σ → Prop

namespace Transition

variable {σ : Type u} {ι : Type v} {S : Transition σ ι}

inductive Run (S : Transition σ ι) : σ → List ι → σ → Prop
  | nil (s : σ) : Run S s [] s
  | snoc {s t u : σ} {ls : List ι} {l : ι} : Run S s ls t → S.step t l u → Run S s (ls ++ [l]) u

/-- The states a run starting in an initial state can end in, with the labels of the run. -/
def History (S : Transition σ ι) (ls : List ι) (t : σ) : Prop :=
  ∃ s, S.init s ∧ Run S s ls t

def Reachable (S : Transition σ ι) (t : σ) : Prop := ∃ ls, S.History ls t

/-- The same system with the steps that meet `G` only: its runs are the runs of `S`
all of whose steps meet `G`. -/
def guard (S : Transition σ ι) (G : σ → ι → Prop) : Transition σ ι where
  init := S.init
  step s l t := G s l ∧ S.step s l t

/-- A system whose steps are the successful calls of a function. -/
def ofFun (init : σ → Prop) (f : σ → ι → Option σ) : Transition σ ι where
  init := init
  step s l t := f s l = some t

theorem History.induction {I : List ι → σ → Prop} (h₀ : ∀ s, S.init s → I [] s)
    (hs : ∀ ls s l t, I ls s → S.step s l t → I (ls ++ [l]) t) {ls : List ι} {t : σ}
    (h : S.History ls t) : I ls t := by
  obtain ⟨s, hi, hr⟩ := h
  induction hr with
  | nil => exact h₀ s hi
  | snoc hr hstep ih => exact hs _ _ _ _ ih hstep

/-- What holds initially and is kept by every step holds in every reachable state. -/
theorem Reachable.induction {I : σ → Prop} (h₀ : ∀ s, S.init s → I s)
    (hs : ∀ s l t, I s → S.step s l t → I t) {t : σ} (h : S.Reachable t) : I t := by
  obtain ⟨ls, h⟩ := h
  exact History.induction (I := fun _ s => I s) h₀ (fun _ s l t => hs s l t) h

theorem History.reachable {ls : List ι} {t : σ} (h : S.History ls t) : S.Reachable t := ⟨ls, h⟩

theorem History.init {s : σ} (h : S.init s) : S.History [] s := ⟨s, h, .nil s⟩

theorem History.step {ls : List ι} {l : ι} {s t : σ} (h : S.History ls s) (hs : S.step s l t) :
    S.History (ls ++ [l]) t := by
  obtain ⟨s₀, hi, hr⟩ := h
  exact ⟨s₀, hi, .snoc hr hs⟩

theorem Reachable.init {s : σ} (h : S.init s) : S.Reachable s := (History.init h).reachable

theorem Reachable.step {l : ι} {s t : σ} (h : S.Reachable s) (hs : S.step s l t) :
    S.Reachable t := by
  obtain ⟨ls, h⟩ := h
  exact (h.step hs).reachable

/-- A guarded run is a run of the unguarded system. -/
theorem History.of_guard {G : σ → ι → Prop} {ls : List ι} {t : σ}
    (h : (S.guard G).History ls t) : S.History ls t := by
  apply h.induction (I := S.History)
  · intro s hi
    exact History.init hi
  · intro ls s l t ih hstep
    exact ih.step hstep.2

theorem Reachable.guard_mono {G G' : σ → ι → Prop} (hG : ∀ s l, G s l → G' s l) {t : σ}
    (h : (S.guard G).Reachable t) : (S.guard G').Reachable t := by
  apply h.induction
  · intro s hi
    exact Reachable.init hi
  · intro s l t ih hstep
    exact ih.step ⟨hG s l hstep.1, hstep.2⟩

/-- A run is one of the guarded system when the guard only looks at the labels. -/
theorem History.guard_labels {G : ι → Prop} {ls : List ι} {t : σ} (h : S.History ls t)
    (hG : ∀ l ∈ ls, G l) : (S.guard fun _ l => G l).History ls t := by
  obtain ⟨s, hi, hr⟩ := h
  induction hr with
  | nil => exact History.init hi
  | snoc hr hstep ih =>
    exact (ih fun l hl => hG l (List.mem_append_left _ hl)).step
      ⟨hG _ (List.mem_append_right _ (List.mem_singleton_self _)), hstep⟩

/-- What a step of one system does is nothing or a step of the other one. -/
theorem Reachable.simulate {τ : Type*} {κ : Type*} {T : Transition τ κ} {f : σ → τ}
    (h₀ : ∀ s, S.init s → T.init (f s))
    (hs : ∀ s l t, S.step s l t → f t = f s ∨ ∃ k, T.step (f s) k (f t)) {t : σ}
    (h : S.Reachable t) : T.Reachable (f t) := by
  apply h.induction (I := fun t => T.Reachable (f t))
  · intro s hi
    exact Reachable.init (h₀ s hi)
  · intro s l t ih hstep
    obtain heq | ⟨k, hk⟩ := hs s l t hstep
    · rwa [heq]
    · exact ih.step hk

theorem History.of_foldlM {init : σ → Prop} {f : σ → ι → Option σ} {s t : σ} {ls : List ι}
    (hi : init s) (h : ls.foldlM f s = some t) : (ofFun init f).History ls t := by
  induction ls using List.reverseRecOn generalizing t with
  | nil =>
    cases h
    exact History.init hi
  | append_singleton ls l ih =>
    rw [List.foldlM_append] at h
    obtain ⟨u, hu, hl⟩ := Option.bind_eq_some_iff.mp h
    simp only [List.foldlM_cons, List.foldlM_nil, Option.bind_eq_bind] at hl
    obtain ⟨t', ht, ⟨⟩⟩ := Option.bind_eq_some_iff.mp hl
    exact (ih hu).step ht

end Transition
