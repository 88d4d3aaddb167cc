import Mathlib.Data.List.Nodup
import Mathlib.Logic.Function.Basic

/-! Doubly linked lists in a heap. -/

universe u

namespace Linked

/-- A node at its address: its two pointers and what it carries. -/
structure Node (α : Type u) where
  prev : Option Nat
  next : Option Nat
  val : α

/-- What is allocated. -/
abbrev Heap (α : Type u) := Nat → Option (Node α)

variable {α : Type u} {m m' : Heap α} {p f p' f' : Option Nat} {l l₁ l₂ : List (Nat × α)}

/-- The nodes of a list that is linked in between `p` and `f'`: it starts at `f`, and its last
node is `p'`. -/
def Seg (m : Heap α) : Option Nat → Option Nat → List (Nat × α) → Option Nat → Option Nat → Prop
  | p, f, [], p', f' => p = p' ∧ f = f'
  | p, f, (a, v) :: l, p', f' =>
    f = some a ∧ ∃ next, m a = some ⟨p, next, v⟩ ∧ Seg m (some a) next l p' f'

def addrs (l : List (Nat × α)) : List Nat := l.map Prod.fst

@[simp] theorem addrs_nil : addrs ([] : List (Nat × α)) = [] := rfl

@[simp] theorem addrs_cons (x : Nat × α) (l : List (Nat × α)) : addrs (x :: l) = x.1 :: addrs l := rfl

@[simp] theorem addrs_append (l₁ l₂ : List (Nat × α)) :
    addrs (l₁ ++ l₂) = addrs l₁ ++ addrs l₂ := List.map_append

/-- A list around one of its positions. -/
theorem exists_split {x : Nat × α} {i : Nat} (hi : l[i]? = some x) :
    ∃ l₁ l₂, l = l₁ ++ x :: l₂ ∧ l₁.length = i := by
  obtain ⟨hlt, rfl⟩ := List.getElem?_eq_some_iff.mp hi
  refine ⟨l.take i, l.drop (i + 1), ?_, List.length_take_of_le (Nat.le_of_lt hlt)⟩
  rw [← List.drop_eq_getElem_cons, List.take_append_drop]

theorem addrs_setVal {a : Nat} {v : α} (w : α) :
    addrs (l₁ ++ (a, w) :: l₂) = addrs (l₁ ++ (a, v) :: l₂) := by
  rw [addrs_append, addrs_append, addrs_cons, addrs_cons]

theorem seg_append : Seg m p f (l₁ ++ l₂) p' f' ↔
    ∃ q g, Seg m p f l₁ q g ∧ Seg m q g l₂ p' f' := by
  induction l₁ generalizing p f with
  | nil => simp [Seg]
  | cons x l₁ ih =>
    simp only [List.cons_append, Seg, ih]
    constructor
    · rintro ⟨rfl, next, hm, q, g, h₁, h₂⟩
      exact ⟨q, g, ⟨rfl, next, hm, h₁⟩, h₂⟩
    · rintro ⟨q, g, ⟨rfl, next, hm, h₁⟩, h₂⟩
      exact ⟨rfl, next, hm, q, g, h₁, h₂⟩

/-- Only the nodes of the list matter. -/
theorem Seg.congr (h : Seg m p f l p' f') (hm : ∀ a ∈ addrs l, m' a = m a) : Seg m' p f l p' f' := by
  induction l generalizing p f with
  | nil => exact h
  | cons x l ih =>
    obtain ⟨rfl, next, ha, hl⟩ := h
    refine ⟨rfl, next, ?_, ih hl fun a ha => hm a (List.mem_cons_of_mem _ ha)⟩
    rw [hm _ List.mem_cons_self, ha]

/-- A write to a node that is not in the list. -/
theorem Seg.update (h : Seg m p f l p' f') {a : Nat} (ha : a ∉ addrs l) (n : Option (Node α)) :
    Seg (Function.update m a n) p f l p' f' := by
  apply h.congr
  intro b hb
  have hne : b ≠ a := ne_of_mem_of_not_mem hb ha
  exact Function.update_of_ne hne _ _

theorem Seg.lookup (h : Seg m p f l p' f') {a : Nat} {v : α} (ha : (a, v) ∈ l) :
    ∃ n, m a = some n ∧ n.val = v := by
  induction l generalizing p f with
  | nil => cases ha
  | cons x l ih =>
    obtain ⟨rfl, next, hm, hl⟩ := h
    obtain rfl | ha := List.mem_cons.mp ha
    · exact ⟨_, hm, rfl⟩
    · exact ih hl ha

theorem Seg.allocated (h : Seg m p f l p' f') {a : Nat} (ha : a ∈ addrs l) : ∃ n, m a = some n := by
  obtain ⟨x, hx, rfl⟩ := List.mem_map.mp ha
  obtain ⟨n, hn, -⟩ := h.lookup (a := x.1) (v := x.2) hx
  exact ⟨n, hn⟩

/-- What a heap links is one list. -/
theorem Seg.unique (h₁ : Seg m p f l₁ p' none) (h₂ : Seg m p f l₂ f' none) : l₁ = l₂ := by
  induction l₁ generalizing p f l₂ with
  | nil =>
    obtain ⟨-, rfl⟩ := h₁
    cases l₂ with
    | nil => rfl
    | cons y l₂ => cases h₂.1
  | cons x l₁ ih =>
    obtain ⟨rfl, next, hm, hl₁⟩ := h₁
    cases l₂ with
    | nil => cases h₂.2
    | cons y l₂ =>
      obtain ⟨hy, next', hm', hl₂⟩ := h₂
      obtain ⟨a, v⟩ := x
      obtain ⟨b, w⟩ := y
      obtain rfl : a = b := Option.some.inj hy
      rw [hm] at hm'
      cases hm'
      rw [ih hl₁ hl₂]

/-- The node before the end is the last one of the list. -/
theorem Seg.last_eq (h : Seg m p f l p' f') : p' = (addrs l).getLast?.or p := by
  induction l generalizing p f with
  | nil => exact h.1.symm
  | cons x l ih =>
    obtain ⟨rfl, next, -, hl⟩ := h
    rw [ih hl]
    cases l with
    | nil => rfl
    | cons y l => simp [List.getLast?_cons]

theorem Seg.first_eq (h : Seg m p f l p' none) : f = (addrs l).head? := by
  cases l with
  | nil => exact h.2
  | cons x l => exact h.1

/-- A node carries something else. -/
theorem Seg.setVal {a : Nat} {v : α} (h : Seg m p f (l₁ ++ (a, v) :: l₂) p' f')
    (hl : (addrs (l₁ ++ (a, v) :: l₂)).Nodup) (w : α) : ∃ n, m a = some n ∧ n.val = v ∧
      Seg (Function.update m a (some { n with val := w })) p f (l₁ ++ (a, w) :: l₂) p' f' := by
  obtain ⟨q, _, h₁, rfl, next, hm, h₂⟩ := seg_append.mp h
  rw [addrs_append, addrs_cons] at hl
  obtain ⟨-, hl₂, hdis⟩ := List.nodup_append.mp hl
  have ha₁ : a ∉ addrs l₁ := fun hmem => hdis a hmem a List.mem_cons_self rfl
  refine ⟨_, hm, rfl, seg_append.mpr ⟨q, some a, h₁.update ha₁ _, rfl, next, ?_, ?_⟩⟩
  · exact Function.update_self _ _ _
  · exact h₂.update (List.nodup_cons.mp hl₂).1 _

/-- A new end for a list that has a last node. -/
theorem Seg.setNext {a : Nat} {v : α} (h : Seg m p f (l ++ [(a, v)]) p' f') (ha : a ∉ addrs l)
    (g : Option Nat) : ∃ n, m a = some n ∧
      Seg (Function.update m a (some { n with next := g })) p f (l ++ [(a, v)]) (some a) g := by
  obtain ⟨q, _, hl, rfl, next, hm, -⟩ := seg_append.mp h
  refine ⟨_, hm, seg_append.mpr ⟨q, some a, hl.update ha _, rfl, g, ?_, rfl, rfl⟩⟩
  exact Function.update_self _ _ _

/-- A new start for a list that has a first node. -/
theorem Seg.setPrev {a : Nat} {v : α} (h : Seg m p f ((a, v) :: l) p' f') (ha : a ∉ addrs l)
    (q : Option Nat) : ∃ n, m a = some n ∧
      Seg (Function.update m a (some { n with prev := q })) q f ((a, v) :: l) p' f' := by
  obtain ⟨rfl, next, hm, hl⟩ := h
  exact ⟨_, hm, rfl, next, Function.update_self _ _ _, hl.update ha _⟩

/-- The node at a position, between its neighbours. -/
theorem Seg.getElem? (h : Seg m p f l p' f') {i a : Nat} {v : α} (hi : l[i]? = some (a, v)) :
    ∃ n, m a = some n ∧ n.val = v ∧ n.prev = (if i = 0 then p else (addrs l)[i - 1]?) ∧
      n.next = (addrs l)[i + 1]?.or f' := by
  induction l generalizing p f i with
  | nil => cases hi
  | cons x l ih =>
    obtain ⟨rfl, next, hm, hl⟩ := h
    cases i with
    | zero =>
      obtain rfl : x = (a, v) := by simpa using hi
      refine ⟨_, hm, rfl, rfl, ?_⟩
      cases l with
      | nil => exact hl.2
      | cons y l => exact hl.1
    | succ i =>
      obtain ⟨n, hn, hv, hprev, hnext⟩ := ih hl (by simpa using hi)
      refine ⟨n, hn, hv, ?_, hnext⟩
      rw [hprev]
      cases i <;> simp

/-- Write to the successor of a node, if there is a node. -/
def withNext (m : Heap α) (a g : Option Nat) : Heap α :=
  match a with
  | none => m
  | some a => Function.update m a ((m a).map fun n => { n with next := g })

/-- Write to the predecessor of a node, if there is a node. -/
def withPrev (m : Heap α) (a q : Option Nat) : Heap α :=
  match a with
  | none => m
  | some a => Function.update m a ((m a).map fun n => { n with prev := q })

theorem withNext_of_ne {a : Nat} {b : Option Nat} (hne : b ≠ some a) (g : Option Nat) :
    withNext m b g a = m a := by
  cases b with
  | none => rfl
  | some b => exact Function.update_of_ne (fun h => hne (congrArg some h.symm)) _ _

theorem withPrev_of_ne {a : Nat} {b : Option Nat} (hne : b ≠ some a) (q : Option Nat) :
    withPrev m b q a = m a := by
  cases b with
  | none => rfl
  | some b => exact Function.update_of_ne (fun h => hne (congrArg some h.symm)) _ _

@[simp] theorem withNext_eq_none {a : Nat} {b : Option Nat} (g : Option Nat) :
    withNext m b g a = none ↔ m a = none := by
  cases b with
  | none => rfl
  | some b =>
    by_cases hab : a = b
    · rw [hab, withNext, Function.update_self, Option.map_eq_none_iff]
    · rw [withNext, Function.update_of_ne hab]

@[simp] theorem withPrev_eq_none {a : Nat} {b : Option Nat} (q : Option Nat) :
    withPrev m b q a = none ↔ m a = none := by
  cases b with
  | none => rfl
  | some b =>
    by_cases hab : a = b
    · rw [hab, withPrev, Function.update_self, Option.map_eq_none_iff]
    · rw [withPrev, Function.update_of_ne hab]

/-- The first part of a list, led to another second part. -/
theorem Seg.leadTo (h : Seg m none f l p' f') (hl : (addrs l).Nodup) (g : Option Nat) :
    Seg (withNext m p' g) none (if l = [] then g else f) l p' g := by
  rcases List.eq_nil_or_concat' l with rfl | ⟨l₀, ⟨a, v⟩, rfl⟩
  · obtain ⟨rfl, -⟩ := h
    exact ⟨rfl, rfl⟩
  · have ha : a ∉ addrs l₀ := by
      rw [addrs_append, List.nodup_append_comm] at hl
      exact (List.nodup_cons.mp hl).1
    obtain rfl : p' = some a := by simpa using h.last_eq
    obtain ⟨n, hn, hseg⟩ := h.setNext ha g
    rw [if_neg (by simp), withNext, hn]
    exact hseg

/-- The second part of a list, led to from another first part. -/
theorem Seg.ledFrom (h : Seg m p f l p' none) (hl : (addrs l).Nodup) (q : Option Nat) :
    Seg (withPrev m f q) q f l (if l = [] then q else p') none := by
  cases l with
  | nil =>
    obtain ⟨-, rfl⟩ := h
    exact ⟨rfl, rfl⟩
  | cons x l =>
    obtain rfl : f = some x.1 := h.1
    obtain ⟨n, hn, hseg⟩ := Seg.setPrev h (List.nodup_cons.mp hl).1 q
    rw [if_neg (by simp), withPrev, hn]
    exact hseg

/-- A new node behind the last one. -/
theorem Seg.snoc (h : Seg m none f l p' none) (hl : (addrs l).Nodup) {a : Nat} (ha : a ∉ addrs l)
    (v : α) : Seg (withNext (Function.update m a (some ⟨p', none, v⟩)) p' (some a)) none
      (if l = [] then some a else f) (l ++ [(a, v)]) (some a) none := by
  have hne : p' ≠ some a := by
    rintro rfl
    have hlast : (addrs l).getLast? = some a := by simpa using h.last_eq.symm
    exact ha (List.mem_of_getLast? hlast)
  refine seg_append.mpr ⟨p', some a, (h.update ha _).leadTo hl (some a), rfl, none, ?_, rfl, rfl⟩
  rw [withNext_of_ne hne]
  exact Function.update_self _ _ _

/-- A node is bridged: its neighbours are led to each other. -/
theorem Seg.unlink {a : Nat} {v : α} (h : Seg m none f (l₁ ++ (a, v) :: l₂) p' none)
    (hl : (addrs (l₁ ++ (a, v) :: l₂)).Nodup) :
    ∃ prev next, m a = some ⟨prev, next, v⟩ ∧ prev = (addrs l₁).getLast? ∧ next = (addrs l₂).head? ∧
      Seg (withPrev (withNext m prev next) next prev) none (if l₁ = [] then next else f) (l₁ ++ l₂)
        (if l₂ = [] then prev else p') none := by
  obtain ⟨prev, _, h₁, rfl, next, hm, h₂⟩ := seg_append.mp h
  have hprev : prev = (addrs l₁).getLast? := by simpa using h₁.last_eq
  have hnext : next = (addrs l₂).head? := h₂.first_eq
  rw [addrs_append, addrs_cons] at hl
  obtain ⟨hl₁, hl₂, hdis⟩ := List.nodup_append.mp hl
  have hl₂ := (List.nodup_cons.mp hl₂).2
  refine ⟨prev, next, hm, hprev, hnext, seg_append.mpr ⟨prev, next, ?_, ?_⟩⟩
  · refine (h₁.leadTo hl₁ next).congr fun b hb => withPrev_of_ne ?_ _
    rintro rfl
    have hb₂ : b ∈ addrs l₂ := List.mem_of_mem_head? hnext.symm
    exact hdis b hb b (List.mem_cons_of_mem _ hb₂) rfl
  · have h₂' : Seg (withNext m prev next) (some a) next l₂ p' none := by
      refine h₂.congr fun b hb => withNext_of_ne ?_ _
      rintro rfl
      have hb₁ : b ∈ addrs l₁ := List.mem_of_getLast? hprev.symm
      exact hdis b hb₁ b (List.mem_cons_of_mem _ hb) rfl
    exact h₂'.ledFrom hl₂ prev

/-- The nodes may carry something else. -/
theorem Seg.mapVal (h : Seg m p f l p' f') (g : Nat × α → α)
    (hm : ∀ x ∈ l, ∀ n, m x.1 = some n → n.val = x.2 → m' x.1 = some { n with val := g x }) :
    Seg m' p f (l.map fun x => (x.1, g x)) p' f' := by
  induction l generalizing p f with
  | nil => exact h
  | cons x l ih =>
    obtain ⟨rfl, next, ha, hl⟩ := h
    refine ⟨rfl, next, hm x List.mem_cons_self _ ha rfl, ih hl ?_⟩
    intro y hy
    exact hm y (List.mem_cons_of_mem _ hy)

end Linked
