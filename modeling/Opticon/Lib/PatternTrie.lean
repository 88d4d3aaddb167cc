import Mathlib.Data.List.Induction
import Mathlib.Data.List.Nodup
import Opticon.Lib.UpdateFirst

/-! Trees of patterns: values are put at paths of patterns, and a path of keys takes at each
node the first child whose pattern matches. -/

universe u v w

variable {α : Type u} {β : Type v} {κ : Type w}

inductive PatternTrie (α : Type u) (β : Type v) : Type (max u v)
  | node : α → List β → List (PatternTrie α β) → PatternTrie α β

namespace PatternTrie

variable {m : α → κ → Bool} {l : List (List α × β)} {p q : α} {ps qs : List α} {b : β}

def pattern : PatternTrie α β → α
  | node a _ _ => a

def values : PatternTrie α β → List β
  | node _ bs _ => bs

def children : PatternTrie α β → List (PatternTrie α β)
  | node _ _ ts => ts

def bare (a : α) : PatternTrie α β := node a [] []

@[simp] theorem pattern_bare (a : α) : (bare a : PatternTrie α β).pattern = a := rfl

/-- What is found at a path of keys. -/
def lookup (m : α → κ → Bool) : List κ → PatternTrie α β → List β
  | [], t => t.values
  | k :: ks, t => ((t.children.find? fun c => m c.pattern k).map (lookup m ks)).getD []

section Insert

variable [DecidableEq α]

/-- A further value at a path of patterns. -/
def insert (b : β) : List α → PatternTrie α β → PatternTrie α β
  | [], node a bs ts => node a (bs ++ [b]) ts
  | p :: ps, node a bs ts =>
    if ts.any (·.pattern = p) then node a bs (updateFirst (·.pattern = p) (insert b ps) ts)
    else node a bs (ts ++ [insert b ps (bare p)])

@[simp] theorem pattern_insert (t : PatternTrie α β) : (insert b ps t).pattern = t.pattern := by
  obtain ⟨a, bs, ts⟩ := t
  cases ps with
  | nil => rfl
  | cons p ps =>
    simp only [insert]
    split <;> rfl

def ofList (a : α) (l : List (List α × β)) : PatternTrie α β :=
  l.foldl (fun t e => insert e.2 e.1 t) (bare a)

@[simp] theorem ofList_snoc (a : α) (e : List α × β) :
    ofList a (l ++ [e]) = insert e.2 e.1 (ofList a l) := by
  simp [ofList]

@[simp] theorem pattern_ofList (a : α) (l : List (List α × β)) : (ofList a l).pattern = a := by
  induction l using List.reverseRecOn with
  | nil => rfl
  | append_singleton l e ih => simp [ih]

/-- The patterns that paths begin with, in the order in which they first appear. -/
def firsts (l : List (List α × β)) : List α := (l.filterMap fun e => e.1.head?).eraseDups

/-- What is left of the paths that begin with a pattern. -/
def residual (p : α) (l : List (List α × β)) : List (List α × β) :=
  (l.filter fun e => e.1.head? = some p).map fun e => (e.1.tail, e.2)

theorem mem_firsts : p ∈ firsts l ↔ ∃ e ∈ l, e.1.head? = some p := by
  simp [firsts, List.mem_filterMap]

theorem mem_residual : (ps, b) ∈ residual p l ↔ (p :: ps, b) ∈ l := by
  simp only [residual, List.mem_map, List.mem_filter, decide_eq_true_eq, Prod.mk.injEq]
  constructor
  · rintro ⟨⟨qs, c⟩, ⟨hmem, hhead⟩, rfl, rfl⟩
    rwa [show qs = p :: qs.tail from (List.cons_head?_tail hhead).symm] at hmem
  · exact fun h => ⟨_, ⟨h, rfl⟩, rfl, rfl⟩

theorem firsts_snoc_nil : firsts (l ++ [([], b)]) = firsts l := by
  simp [firsts, List.filterMap_cons]

theorem firsts_snoc (l : List (List α × β)) (p : α) (ps : List α) (b : β) :
    firsts (l ++ [(p :: ps, b)]) = if p ∈ firsts l then firsts l else firsts l ++ [p] := by
  have h : firsts (l ++ [(p :: ps, b)]) =
      firsts l ++ ([p].removeAll (l.filterMap fun e => e.1.head?)).eraseDups := by
    simp [firsts, List.eraseDups_append]
  rw [h]
  by_cases hp : p ∈ firsts l
  · have hp' : p ∈ l.filterMap fun e => e.1.head? := List.mem_eraseDups.mp hp
    simp [hp, hp', List.removeAll]
  · have hp' : p ∉ l.filterMap fun e => e.1.head? := fun h => hp (List.mem_eraseDups.mpr h)
    simp [hp, hp', List.removeAll, List.eraseDups_cons]

theorem nodup_firsts (l : List (List α × β)) : (firsts l).Nodup := by
  induction l using List.reverseRecOn with
  | nil => exact List.nodup_nil
  | append_singleton l e ih =>
    obtain ⟨_ | ⟨p, ps⟩, b⟩ := e
    · rwa [firsts_snoc_nil]
    · rw [firsts_snoc]
      split
      · exact ih
      · rename_i hp
        exact List.nodup_append.mpr ⟨ih, List.nodup_singleton p, by
          rintro q hq _ hq' rfl
          exact hp (List.mem_singleton.mp hq' ▸ hq)⟩

theorem residual_snoc_nil : residual p (l ++ [([], b)]) = residual p l := by
  simp [residual]

theorem residual_snoc_self : residual p (l ++ [(p :: ps, b)]) = residual p l ++ [(ps, b)] := by
  simp [residual]

theorem residual_snoc_ne (h : q ≠ p) : residual p (l ++ [(q :: qs, b)]) = residual p l := by
  simp [residual, h]

theorem residual_eq_nil (h : p ∉ firsts l) : residual p l = [] :=
  List.eq_nil_iff_forall_not_mem.mpr fun ⟨_, _⟩ he =>
    h (mem_firsts.mpr ⟨_, mem_residual.mp he, rfl⟩)

/-- A write to the child with a key, among children that are named by their keys. -/
theorem updateFirst_map {key : β → α} {F : α → β} (hkey : ∀ a, key (F a) = a) {f : β → β}
    {as : List α} (h : as.Nodup) (p : α) :
    updateFirst (fun b => decide (key b = p)) f (as.map F) =
      as.map fun a => if a = p then f (F a) else F a := by
  induction as with
  | nil => rfl
  | cons a as ih =>
    obtain ⟨ha, has⟩ := List.nodup_cons.mp h
    simp only [List.map_cons, updateFirst, hkey, decide_eq_true_eq]
    split
    · rename_i hap
      simp only [List.cons.injEq, true_and]
      refine List.map_congr_left fun c hc => ?_
      rw [if_neg fun hcp : c = p => ha (hap.trans hcp.symm ▸ hc)]
    · rw [ih has]

/-- A tree is its own values, and below each pattern the tree of what is left of the paths that
begin with it. -/
theorem ofList_eq (a : α) (l : List (List α × β)) : ofList a l =
    node a ((l.filter fun e => e.1 = []).map Prod.snd)
      ((firsts l).map fun p => ofList p (residual p l)) := by
  induction l using List.reverseRecOn with
  | nil => rfl
  | append_singleton l e ih =>
    obtain ⟨_ | ⟨p, ps⟩, b⟩ := e
    · simp [ofList_snoc, ih, insert, firsts_snoc_nil, residual_snoc_nil]
    · have hany : (((firsts l).map fun q => ofList q (residual q l)).any
          fun c => decide (c.pattern = p)) = decide (p ∈ firsts l) := by
        simp [List.any_eq]
      rw [ofList_snoc, ih, insert, hany, firsts_snoc]
      have hvalues : ((l ++ [(p :: ps, b)]).filter fun e => e.1 = []).map Prod.snd =
          (l.filter fun e => e.1 = []).map Prod.snd := by simp
      rw [hvalues]
      by_cases hp : p ∈ firsts l
      · rw [if_pos (by simpa using hp), if_pos hp,
          updateFirst_map (fun q => pattern_ofList q _) (nodup_firsts l) p]
        congr 1
        refine List.map_congr_left fun q _ => ?_
        by_cases hq : q = p
        · rw [if_pos hq, hq, residual_snoc_self, ofList_snoc]
        · rw [if_neg hq, residual_snoc_ne (Ne.symm hq)]
      · rw [if_neg (by simpa using hp), if_neg hp, List.map_append, List.map_singleton,
          residual_snoc_self, residual_eq_nil hp]
        congr 2
        refine List.map_congr_left fun q hq => ?_
        rw [residual_snoc_ne fun h : p = q => hp (h ▸ hq)]

/-- At each node the pattern decides that appeared first among those that match. -/
theorem lookup_ofList (m : α → κ → Bool) (k : κ) (ks : List κ) (a : α) (l : List (List α × β)) :
    lookup m (k :: ks) (ofList a l) = (((firsts l).find? fun p => m p k).map fun p =>
      lookup m ks (ofList p (residual p l))).getD [] := by
  rw [ofList_eq, lookup, children, List.find?_map, Option.map_map]
  simp [Function.comp_def]

end Insert

/-- A path of keys is one of those that a path of patterns stands for. -/
def covers (m : α → κ → Bool) : List α → List κ → Bool
  | [], [] => true
  | p :: ps, k :: ks => m p k && covers m ps ks
  | _, _ => false

/-- Two paths of patterns never part at patterns that match one key. -/
def Clear [DecidableEq α] (m : α → κ → Bool) : List α → List α → Prop
  | p :: ps, q :: qs => if p = q then Clear m ps qs else ∀ k, ¬ (m p k ∧ m q k)
  | _, _ => True

/-- Without ambiguities, what is found at a path is all that was put at a pattern of it. -/
theorem lookup_of_clear [DecidableEq α] {ks : List κ} (a : α)
    (h : ∀ e ∈ l, ∀ e' ∈ l, Clear m e.1 e'.1) :
    lookup m ks (ofList a l) = (l.filter fun e => covers m e.1 ks).map Prod.snd := by
  induction ks generalizing a l with
  | nil =>
    rw [ofList_eq, lookup, values]
    congr 1
    refine List.filter_congr fun e _ => ?_
    obtain ⟨_ | ⟨p, ps⟩, b⟩ := e <;> simp [covers]
  | cons k ks ih =>
    rw [lookup_ofList]
    cases hfind : (firsts l).find? fun p => m p k with
    | none =>
      rw [List.find?_eq_none] at hfind
      symm
      simp only [Option.map_none, Option.getD_none, List.map_eq_nil_iff, List.filter_eq_nil_iff]
      rintro ⟨_ | ⟨p, ps⟩, b⟩ he
      · simp [covers]
      · simp [covers, hfind p (mem_firsts.mpr ⟨_, he, rfl⟩)]
    | some p =>
      have hp : m p k = true := by simpa using List.find?_some hfind
      obtain ⟨e₀, he₀, hhead⟩ := mem_firsts.mp (List.mem_of_find?_eq_some hfind)
      obtain ⟨_ | ⟨p', ps₀⟩, b₀⟩ := e₀
      · cases hhead
      cases hhead
      have hrest : ∀ e ∈ residual p l, ∀ e' ∈ residual p l, Clear m e.1 e'.1 := by
        rintro ⟨ps, b⟩ he ⟨qs, c⟩ he'
        have hclear := h _ (mem_residual.mp he) _ (mem_residual.mp he')
        simpa [Clear] using hclear
      have hstep (e : List α × β) (he : e ∈ l) : covers m e.1 (k :: ks) =
          (decide (e.1.head? = some p) && covers m e.1.tail ks) := by
        obtain ⟨_ | ⟨q, qs⟩, b⟩ := e
        · simp [covers]
        · by_cases hq : q = p
          · simp [covers, hq, hp]
          · have hclear := h _ he _ he₀
            simp only [Clear, if_neg hq] at hclear
            have hno : m q k = false := by
              simpa [hp] using hclear k
            simp [covers, hno, hq]
      simp only [Option.map_some, Option.getD_some]
      rw [ih p hrest, List.filter_congr hstep, residual, List.filter_map, List.map_map,
        List.filter_filter]
      simp [Function.comp_def, Bool.and_comm]

end PatternTrie
