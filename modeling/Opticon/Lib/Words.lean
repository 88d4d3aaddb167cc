import Mathlib.Data.List.TakeWhile

/-! The words of a list: the maximal runs of elements that are not separators, and the runs
of separators between them. -/

universe u

namespace Words

variable {α : Type u} {p : α → Bool} {w g s t : List α}

/-- The maximal runs of elements that are not separators, from left to right. -/
def words (p : α → Bool) (s : List α) : List (List α) :=
  (s.splitOnP p).filter fun w => !w.isEmpty

/-- The maximal runs of separators from place `i` on, each with the place it begins at and the
place behind it; `start` is the place where the run before `s` began. -/
def gapsFrom (p : α → Bool) : Option ℕ → ℕ → List α → List (ℕ × ℕ)
  | none, _, [] => []
  | some b, i, [] => [(b, i)]
  | none, i, c :: s => gapsFrom p (if p c then some i else none) (i + 1) s
  | some b, i, c :: s =>
    if p c then gapsFrom p (some b) (i + 1) s else (b, i) :: gapsFrom p none (i + 1) s

def gaps (p : α → Bool) (s : List α) : List (ℕ × ℕ) := gapsFrom p none 0 s

/-- A text that is cut into words, each with the separators behind it. -/
inductive Cut (p : α → Bool) : List α → Prop
  | nil : Cut p []
  | word {w g t : List α} : w ≠ [] → (∀ c ∈ w, p c = false) → (∀ c ∈ g, p c = true) →
      (t ≠ [] → g ≠ []) → Cut p t → Cut p (w ++ (g ++ t))

theorem Cut.head (h : Cut p s) : ∀ c ∈ s.head?, p c = false := by
  cases h with
  | nil => simp
  | @word w g t hne hw hg hsep ht =>
    cases w with
    | nil => exact absurd rfl hne
    | cons c w => simpa using hw c (by simp)

theorem Cut.takeWhile (h : Cut p t) (hg : ∀ c ∈ g, p c = true) : (g ++ t).takeWhile p = g := by
  have ht : t.takeWhile p = [] := by
    cases t with
    | nil => rfl
    | cons c t => simp [h.head c (by simp)]
  rw [List.takeWhile_append_of_pos hg, ht, List.append_nil]

theorem Cut.dropWhile (h : Cut p t) (hg : ∀ c ∈ g, p c = true) : (g ++ t).dropWhile p = t := by
  rw [List.dropWhile_append_of_pos hg]
  cases t with
  | nil => rfl
  | cons c t => simp [h.head c (by simp)]

theorem cut_of_head : ∀ {s : List α}, (∀ c ∈ s.head?, p c = false) → Cut p s
  | [], _ => .nil
  | c :: s, hc => by
    have hhead : p c = false := hc c (by simp)
    set r := (c :: s).dropWhile fun c => !p c with hr
    have hlen : (r.dropWhile p).length ≤ s.length := by
      refine Nat.le_trans (List.dropWhile_sublist _).length_le ?_
      rw [hr, List.dropWhile_cons_of_pos (by simp [hhead])]
      exact (List.dropWhile_sublist _).length_le
    have hrest : Cut p (r.dropWhile p) := by
      refine cut_of_head fun d hd => ?_
      have := List.head?_dropWhile_not p r
      rw [Option.mem_def.mp hd] at this
      simpa using this
    have hsep : r.dropWhile p ≠ [] → r.takeWhile p ≠ [] := by
      intro hne hnil
      have hd := List.head?_dropWhile_not (fun c => !p c) (c :: s)
      rw [← hr] at hd
      cases hrr : r with
      | nil => exact hne (by rw [hrr]; rfl)
      | cons d r' =>
        rw [hrr] at hd hnil
        have hpd : p d = true := by simpa using hd
        simp [hpd] at hnil
    have h := Cut.word (w := (c :: s).takeWhile fun c => !p c) (by simp [hhead])
      (fun d hd => by simpa using List.mem_takeWhile_imp hd)
      (fun d hd => List.mem_takeWhile_imp hd) hsep hrest
    rwa [List.takeWhile_append_dropWhile, hr, List.takeWhile_append_dropWhile] at h
  termination_by s => s.length
  decreasing_by simpa using Nat.lt_succ_of_le hlen

/-- What is left when the leading separators are skipped. -/
theorem cut_dropWhile (p : α → Bool) (s : List α) : Cut p (s.dropWhile p) := by
  refine cut_of_head fun c hc => ?_
  have := List.head?_dropWhile_not p s
  rw [Option.mem_def.mp hc] at this
  simpa using this

@[simp] theorem words_nil : words p [] = [] := by
  rw [words, List.splitOnP_nil]
  rfl

theorem words_separator {c : α} (hc : p c = true) : words p (c :: s) = words p s := by
  rw [words, List.splitOnP_cons_eq_if_modifyHead, if_pos hc, List.filter_cons_of_neg (by simp)]
  rfl

theorem words_separators (hg : ∀ c ∈ g, p c = true) : words p (g ++ s) = words p s := by
  induction g with
  | nil => rfl
  | cons c g ih =>
    rw [List.cons_append, words_separator (hg c (by simp)), ih fun d hd => hg d (by simp [hd])]

theorem words_dropWhile : words p (s.dropWhile p) = words p s := by
  conv => rhs; rw [← List.takeWhile_append_dropWhile (p := p) (l := s)]
  exact (words_separators fun c hc => List.mem_takeWhile_imp hc).symm

theorem words_word (hne : w ≠ []) (hw : ∀ c ∈ w, p c = false) (hg : ∀ c ∈ g, p c = true)
    (hsep : t ≠ [] → g ≠ []) : words p (w ++ (g ++ t)) = w :: words p t := by
  cases g with
  | nil =>
    obtain rfl : t = [] := by
      by_contra ht
      exact hsep ht rfl
    rw [List.append_nil, List.append_nil, words, List.splitOnP_eq_singleton hw, words_nil,
      List.filter_cons_of_pos (by simpa using hne), List.filter_nil]
  | cons c g =>
    rw [words, List.cons_append, List.splitOnP_append_cons_of_forall_mem hw _ (hg c (by simp)),
      List.filter_cons_of_pos (by simpa using hne)]
    exact congrArg _ (words_separators fun d hd => hg d (by simp [hd]))

theorem gapsFrom_word (hw : ∀ c ∈ w, p c = false) (i : ℕ) :
    gapsFrom p none i (w ++ s) = gapsFrom p none (i + w.length) s := by
  induction w generalizing i with
  | nil => rfl
  | cons c w ih =>
    rw [List.cons_append, gapsFrom, if_neg (by simp [hw c (by simp)]),
      ih fun d hd => hw d (by simp [hd])]
    simp only [List.length_cons, Nat.add_assoc, Nat.add_comm 1]

theorem gapsFrom_some (hg : ∀ c ∈ g, p c = true) (ht : ∀ c ∈ t.head?, p c = false) (b i : ℕ) :
    gapsFrom p (some b) i (g ++ t) = (b, i + g.length) :: gapsFrom p none (i + g.length) t := by
  induction g generalizing i with
  | nil =>
    cases t with
    | nil => rfl
    | cons c t =>
      have hc : p c = false := ht c (by simp)
      simp [gapsFrom, hc]
  | cons c g ih =>
    rw [List.cons_append, gapsFrom, if_pos (hg c (by simp)), ih fun d hd => hg d (by simp [hd])]
    simp only [List.length_cons, Nat.add_assoc, Nat.add_comm 1]

theorem gapsFrom_cut (hw : ∀ c ∈ w, p c = false) (hg : ∀ c ∈ g, p c = true) (hne : g ≠ [])
    (ht : Cut p t) (i : ℕ) :
    gapsFrom p none i (w ++ (g ++ t)) =
      (i + w.length, i + w.length + g.length) ::
        gapsFrom p none (i + w.length + g.length) t := by
  rw [gapsFrom_word hw]
  cases g with
  | nil => exact absurd rfl hne
  | cons c g =>
    rw [List.cons_append, gapsFrom, if_pos (hg c (by simp)),
      gapsFrom_some (fun d hd => hg d (by simp [hd])) ht.head]
    simp only [List.length_cons, Nat.add_assoc, Nat.add_comm 1]

theorem le_of_mem_gapsFrom (h : Cut p s) {i : ℕ} {x : ℕ × ℕ} (hx : x ∈ gapsFrom p none i s) :
    i ≤ x.1 ∧ x.1 ≤ x.2 ∧ x.2 ≤ i + s.length := by
  induction h generalizing i with
  | nil => cases hx
  | @word w g t hne hw hg hsep ht ih =>
    by_cases hgap : g = []
    · obtain rfl : t = [] := by
        by_contra htn
        exact hsep htn hgap
      subst hgap
      rw [List.append_nil, List.append_nil] at hx
      have hnil := gapsFrom_word (s := []) hw i
      rw [List.append_nil] at hnil
      rw [hnil] at hx
      cases hx
    · rw [gapsFrom_cut hw hg hgap ht] at hx
      simp only [List.length_append]
      cases hx with
      | head => exact ⟨by omega, by omega, by omega⟩
      | tail _ hx =>
        have := ih hx
        omega

/-- There is one word more than gaps with a word behind them. -/
theorem length_words (h : Cut p s) (hs : s ≠ []) (i : ℕ) :
    (words p s).length = (gapsFrom p none i s).countP (·.2 < i + s.length) + 1 := by
  induction h generalizing i with
  | nil => exact absurd rfl hs
  | @word w g t hne hw hg hsep ht ih =>
    rw [words_word hne hw hg hsep, List.length_cons]
    by_cases htn : t = []
    · subst htn
      by_cases hgap : g = []
      · subst hgap
        have hnil := gapsFrom_word (s := []) hw i
        simp only [List.append_nil] at hnil ⊢
        rw [hnil]
        rfl
      · rw [gapsFrom_cut hw hg hgap ht]
        simp [gapsFrom, Nat.add_assoc]
    · rw [gapsFrom_cut hw hg (hsep htn) ht, ih htn (i + w.length + g.length),
        List.countP_cons_of_pos]
      · simp only [List.length_append, Nat.add_assoc]
      · have := List.length_pos_iff.mpr htn
        simp only [List.length_append, decide_eq_true_eq]
        omega

/-! ## Single separators -/

section Separator

variable [DecidableEq α] {sep : α}

theorem splitOn_of_not_mem (h : sep ∉ s) : s.splitOn sep = [s] := by
  rw [List.splitOn_eq_splitOnP]
  exact List.splitOnP_eq_singleton fun c hc => by
    simpa using fun hs : c = sep => h (hs ▸ hc)

theorem splitOn_append (h : sep ∉ w) (s : List α) :
    (w ++ sep :: s).splitOn sep = w :: s.splitOn sep := by
  rw [List.splitOn_eq_splitOnP, List.splitOn_eq_splitOnP]
  refine List.splitOnP_append_cons_of_forall_mem (fun c hc => ?_) sep (by simp) s
  simpa using fun hs : c = sep => h (hs ▸ hc)

/-- A list is a part without separators, or one more in front of another list. -/
theorem split_induction (sep : α) {motive : List α → Prop} (last : ∀ s, sep ∉ s → motive s)
    (more : ∀ w s, sep ∉ w → motive s → motive (w ++ sep :: s)) (s : List α) : motive s := by
  have parts : ∀ t w, sep ∉ w → motive (w ++ t) := by
    intro t
    induction t with
    | nil =>
      intro w hw
      rw [List.append_nil]
      exact last w hw
    | cons c t ih =>
      intro w hw
      by_cases hc : c = sep
      · subst hc
        exact more w t hw (ih [] (by simp))
      · have h := ih (w ++ [c]) (by simpa using ⟨hw, Ne.symm hc⟩)
        rwa [List.append_assoc, List.singleton_append] at h
  exact parts s [] (by simp)

theorem mem_of_mem_splitOn {c : α} (hw : w ∈ s.splitOn sep) (hc : c ∈ w) : c ∈ s := by
  induction s using split_induction sep with
  | last s hs =>
    rw [splitOn_of_not_mem hs, List.mem_singleton] at hw
    exact hw ▸ hc
  | more w' s hw' ih =>
    rw [splitOn_append hw', List.mem_cons] at hw
    obtain rfl | hw := hw
    · exact List.mem_append_left _ hc
    · exact List.mem_append_right _ (List.mem_cons_of_mem _ (ih hw))

end Separator

end Words
