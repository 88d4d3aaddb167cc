import Mathlib.Data.List.Nodup

/-! Trees whose nodes have keys, and what laying one over another adds to it. -/

universe u v

/-- A node has a key for the one above it, and a value or nodes below it. -/
inductive KeyedTree (κ : Type u) (α : Type v) where
  | leaf (key : κ) (val : α)
  | dict (key : κ) (children : List (KeyedTree κ α))

namespace KeyedTree

variable {κ : Type u} {α : Type v} [DecidableEq κ]

def key : KeyedTree κ α → κ
  | .leaf k _ | .dict k _ => k

def IsDict : KeyedTree κ α → Prop
  | .leaf _ _ => False
  | .dict _ _ => True

/-- The node that a path of keys leads to. -/
def along : List κ → KeyedTree κ α → Option (KeyedTree κ α)
  | [], t => some t
  | _ :: _, .leaf _ _ => none
  | k :: p, .dict _ cs => (cs.find? fun c => c.key = k).bind (along p)

/-- No two nodes below one have the same key. -/
inductive Distinct : KeyedTree κ α → Prop
  | leaf {k : κ} {x : α} : Distinct (.leaf k x)
  | dict {k : κ} {cs : List (KeyedTree κ α)} : (cs.map key).Nodup → (∀ c ∈ cs, Distinct c) →
      Distinct (.dict k cs)

section Overlay

variable (wins : α → Bool)

mutual

/-- What is there already stays, but for a value that wins over whole nodes. -/
def overlay (a : KeyedTree κ α) : KeyedTree κ α → KeyedTree κ α
  | .leaf _ x =>
    match a with
    | .leaf k y => .leaf k y
    | .dict k ds => if wins x then .leaf k x else .dict k ds
  | .dict _ cs =>
    match a with
    | .leaf k y => .leaf k y
    | .dict k ds => .dict k (overlayAll ds cs)

/-- One node after the other is laid over that with its key, or added. -/
def overlayAll (ds : List (KeyedTree κ α)) : List (KeyedTree κ α) → List (KeyedTree κ α)
  | [] => ds
  | c :: cs =>
    if c.key ∈ ds.map key then overlayAll (ds.map fun d => if d.key = c.key then overlay d c else d) cs
    else overlayAll (ds ++ [c]) cs

end

end Overlay

variable {wins : α → Bool} {a b t : KeyedTree κ α} {k : κ} {ds cs : List (KeyedTree κ α)} {p : List κ}

@[simp] theorem key_overlay (a b : KeyedTree κ α) : (overlay wins a b).key = a.key := by
  cases b with
  | leaf k x =>
    cases a with
    | leaf _ _ => rfl
    | dict k' ds =>
      simp only [overlay]
      split <;> rfl
  | dict k cs => cases a <;> simp only [overlay, key]

theorem overlay_leaf (k : κ) (x : α) (b : KeyedTree κ α) : overlay wins (.leaf k x) b = .leaf k x := by
  cases b <;> simp only [overlay]

theorem overlay_dict (k k' : κ) (ds cs : List (KeyedTree κ α)) :
    overlay wins (.dict k ds) (.dict k' cs) = .dict k (overlayAll wins ds cs) := by
  simp only [overlay]

/-- Where no two keys are alike, a node is laid over the one at a position. -/
theorem map_overlay_eq_set {c d : KeyedTree κ α} (hds : (ds.map key).Nodup) {i : Nat}
    (hget : ds[i]? = some d) (hkey : d.key = c.key) :
    (ds.map fun x => if x.key = c.key then overlay wins x c else x) = ds.set i (overlay wins d c) := by
  induction ds generalizing i with
  | nil => cases hget
  | cons e ds ih =>
    obtain ⟨he, hds⟩ := List.nodup_cons.mp hds
    cases i with
    | zero =>
      obtain rfl : e = d := by simpa using hget
      rw [List.map_cons, if_pos hkey, List.set_cons_zero]
      congr 1
      refine (List.map_congr_left fun x hx => ?_).trans (List.map_id ds)
      have hne : x.key ≠ c.key := fun heq => he ((heq.trans hkey.symm) ▸ List.mem_map_of_mem hx)
      rw [if_neg hne]
      rfl
    | succ i =>
      have hget : ds[i]? = some d := by simpa using hget
      have hne : e.key ≠ c.key := by
        intro heq
        exact he ((heq.trans hkey.symm) ▸ List.mem_map_of_mem (List.mem_of_getElem? hget))
      rw [List.map_cons, if_neg hne, List.set_cons_succ, ih hds hget]

/-- What is laid over a node: the one with its key, if there is one. -/
def under (wins : α → Bool) (cs : List (KeyedTree κ α)) (d : KeyedTree κ α) : KeyedTree κ α :=
  (cs.find? fun c => c.key = d.key).elim d (overlay wins d)

@[simp] theorem key_under (cs : List (KeyedTree κ α)) (d : KeyedTree κ α) :
    (under wins cs d).key = d.key := by
  unfold under
  cases cs.find? fun c => c.key = d.key with
  | none => rfl
  | some c => exact key_overlay d c

theorem under_cons_ne {c d : KeyedTree κ α} (h : c.key ≠ d.key) :
    under wins (c :: cs) d = under wins cs d := by
  rw [under, under, List.find?_cons_of_neg (by simpa using h)]

/-- The nodes of both, those that are new behind the others. -/
theorem overlayAll_eq (hcs : (cs.map key).Nodup) (ds : List (KeyedTree κ α)) :
    overlayAll wins ds cs = ds.map (under wins cs) ++ cs.filter fun c => c.key ∉ ds.map key := by
  induction cs generalizing ds with
  | nil =>
    have hid : ds.map (under wins []) = ds := (List.map_congr_left fun d _ => rfl).trans (List.map_id ds)
    rw [overlayAll, hid, List.filter_nil, List.append_nil]
  | cons c cs ih =>
    obtain ⟨hc, hcs⟩ := List.nodup_cons.mp hcs
    have hnone : cs.find? (fun x => x.key = c.key) = none := by
      rw [List.find?_eq_none]
      intro x hx heq
      have heq : x.key = c.key := by simpa using heq
      exact hc (heq ▸ List.mem_map_of_mem hx)
    rw [overlayAll]
    split
    · rename_i hmem
      have hkeys : (ds.map fun d => if d.key = c.key then overlay wins d c else d).map key = ds.map key := by
        rw [List.map_map]
        refine List.map_congr_left fun d _ => ?_
        simp only [Function.comp_apply]
        split <;> simp
      rw [ih hcs, hkeys, List.filter_cons_of_neg (by simpa using hmem), List.map_map]
      congr 1
      refine List.map_congr_left fun d _ => ?_
      rw [Function.comp_apply]
      by_cases hd : d.key = c.key
      · rw [if_pos hd, under, under, key_overlay, hd, hnone, List.find?_cons_of_pos (by simp)]
        rfl
      · rw [if_neg hd, under_cons_ne (Ne.symm hd)]
    · rename_i hmem
      rw [ih hcs, List.map_append, List.append_assoc, List.filter_cons_of_pos (by simpa using hmem)]
      have hlast : [c].map (under wins cs) = [c] := by
        simp only [List.map_cons, List.map_nil, under, hnone]
        rfl
      have hrest : cs.filter (fun x => x.key ∉ (ds ++ [c]).map key) =
          cs.filter fun x => x.key ∉ ds.map key := by
        refine List.filter_congr fun x hx => ?_
        have hne : x.key ≠ c.key := fun heq => hc (heq ▸ List.mem_map_of_mem hx)
        simp [hne]
      rw [hlast, hrest, List.singleton_append]
      congr 1
      refine List.map_congr_left fun d hd => ?_
      have hne : c.key ≠ d.key := fun heq => hmem (heq ▸ List.mem_map_of_mem hd)
      rw [under_cons_ne hne]

/-- The node with a key in an overlay. -/
theorem find?_overlayAll (hcs : (cs.map key).Nodup) (ds : List (KeyedTree κ α)) (k : κ) :
    (overlayAll wins ds cs).find? (fun d => d.key = k) =
      ((ds.find? fun d => d.key = k).map (under wins cs)).or (cs.find? fun c => c.key = k) := by
  rw [overlayAll_eq hcs, List.find?_append, List.find?_map]
  have hkey : (fun d : KeyedTree κ α => decide (d.key = k)) ∘ under wins cs = fun d => decide (d.key = k) := by
    funext d
    simp
  rw [hkey]
  cases hd : ds.find? fun d => d.key = k with
  | some d => rfl
  | none =>
    rw [Option.map_none, Option.none_or, Option.none_or]
    rw [List.find?_eq_none] at hd
    have hnew (c : KeyedTree κ α) (hc : c.key = k) : c.key ∉ ds.map key := by
      intro hmem
      obtain ⟨d, hds, hdc⟩ := List.mem_map.mp hmem
      exact hd d hds (by simp [hdc, hc])
    rw [List.find?_filter]
    congr 1
    funext c
    by_cases hc : c.key = k
    · simp [hc, hc ▸ hnew c hc]
    · simp [hc]

/-! ### What an overlay keeps and adds -/

/-- On a path there is a dict, and what is laid over it wins over dicts. -/
def Conflict (wins : α → Bool) (a b : KeyedTree κ α) : Prop :=
  ∃ p t k x, along p a = some t ∧ t.IsDict ∧ along p b = some (.leaf k x) ∧ wins x = true

theorem Conflict.child {c d : KeyedTree κ α} {k' : κ} (hd : ds.find? (fun d => d.key = k) = some d)
    (hc : cs.find? (fun c => c.key = k) = some c) {k'' : κ} (h : Conflict wins d c) :
    Conflict wins (.dict k' ds) (.dict k'' cs) := by
  obtain ⟨p, t, l, x, ht, hdict, hx, hw⟩ := h
  refine ⟨k :: p, t, l, x, ?_, hdict, ?_, hw⟩
  · rw [along, hd, Option.bind_some, ht]
  · rw [along, hc, Option.bind_some, hx]

/-- What is laid over a dict that is no conflict leaves a dict. -/
theorem overlay_of_leaf {k' : κ} {x : α} (h : ¬ Conflict wins (.dict k ds) (.leaf k' x)) :
    overlay wins (.dict k ds) (.leaf k' x) = .dict k ds := by
  have hx : wins x = false := by
    rw [← Bool.not_eq_true]
    intro hw
    exact h ⟨[], _, k', x, rfl, trivial, rfl, hw⟩
  simp only [overlay, hx, Bool.false_eq_true, if_false]

omit [DecidableEq κ] in
theorem Distinct.nodup (h : Distinct (.dict k cs)) : (cs.map key).Nodup := by
  cases h with
  | dict hnd _ => exact hnd

omit [DecidableEq κ] in
theorem Distinct.child (h : Distinct (.dict k cs)) {c : KeyedTree κ α} (hc : c ∈ cs) : Distinct c := by
  cases h with
  | dict _ hcs => exact hcs c hc

theorem Distinct.along (h : Distinct t) {s : KeyedTree κ α} (hp : along p t = some s) : Distinct s := by
  induction p generalizing t with
  | nil =>
    cases hp
    exact h
  | cons k p ih =>
    cases t with
    | leaf _ _ => cases hp
    | dict _ cs =>
      obtain ⟨c, hc, hp⟩ := Option.bind_eq_some_iff.mp hp
      exact ih (h.child (List.mem_of_find?_eq_some hc)) hp

theorem along_append (p q : List κ) (t : KeyedTree κ α) :
    along (p ++ q) t = (along p t).bind (along q) := by
  induction p generalizing t with
  | nil => rfl
  | cons k p ih =>
    cases t with
    | leaf _ _ => rfl
    | dict _ cs =>
      rw [List.cons_append, along, along, Option.bind_assoc]
      congr 1
      funext c
      exact ih c

/-- The node on a path in an overlay is laid over by what is on the path in the other tree. -/
theorem along_overlay (hb : Distinct b) (h : ¬ Conflict wins a b) (ht : along p a = some t) :
    along p (overlay wins a b) = some ((along p b).elim t (overlay wins t)) := by
  induction p generalizing a b with
  | nil =>
    cases ht
    rfl
  | cons k p ih =>
    cases a with
    | leaf _ _ => cases ht
    | dict ka ds =>
      cases b with
      | leaf kb x =>
        rw [overlay_of_leaf h, ht]
        rfl
      | dict kb cs =>
        obtain ⟨d, hd, ht'⟩ := Option.bind_eq_some_iff.mp ht
        have hkey : d.key = k := by simpa using List.find?_some hd
        rw [overlay_dict, along, find?_overlayAll hb.nodup, hd, Option.map_some, Option.some_or,
          Option.bind_some, under, hkey, along]
        cases hc : cs.find? fun c => c.key = k with
        | none => exact ht'
        | some c => exact ih (hb.child (List.mem_of_find?_eq_some hc)) (fun hn => h (hn.child hd hc)) ht'

theorem along_overlay_both {y : KeyedTree κ α} (hb : Distinct b) (ht : along p a = some t)
    (hy : along p b = some y) : along p (overlay wins a b) = some (overlay wins t y) := by
  induction p generalizing a b with
  | nil =>
    cases ht
    cases hy
    rfl
  | cons k p ih =>
    cases a with
    | leaf _ _ => cases ht
    | dict ka ds =>
      cases b with
      | leaf _ _ => cases hy
      | dict kb cs =>
        obtain ⟨d, hd, ht⟩ := Option.bind_eq_some_iff.mp ht
        obtain ⟨c, hc, hy⟩ := Option.bind_eq_some_iff.mp hy
        have hkey : d.key = k := by simpa using List.find?_some hd
        rw [overlay_dict, along, find?_overlayAll hb.nodup, hd, Option.map_some, Option.some_or,
          Option.bind_some, under, hkey, hc]
        exact ih (hb.child (List.mem_of_find?_eq_some hc)) ht hy

/-- A conflict costs a dict. -/
theorem Conflict.lost (hb : Distinct b) (h : Conflict wins a b) : ∃ p k ds k' x,
    along p a = some (.dict k ds) ∧ along p (overlay wins a b) = some (.leaf k' x) := by
  obtain ⟨p, t, k', x, ht, hdict, hx, hw⟩ := h
  cases t with
  | leaf _ _ => exact hdict.elim
  | dict k ds =>
    refine ⟨p, k, ds, k, x, ht, ?_⟩
    rw [along_overlay_both hb ht hx]
    simp only [overlay, hw, if_true]

/-- A value keeps its place. -/
theorem along_overlay_leaf {x : α} (hb : Distinct b) (h : ¬ Conflict wins a b)
    (ht : along p a = some (.leaf k x)) : along p (overlay wins a b) = some (.leaf k x) := by
  rw [along_overlay hb h ht]
  cases along p b with
  | none => rfl
  | some y => exact congrArg some (overlay_leaf k x y)

/-- A dict keeps its place and its keys. -/
theorem along_overlay_dict (hb : Distinct b) (h : ¬ Conflict wins a b)
    (ht : along p a = some (.dict k ds)) :
    ∃ es, along p (overlay wins a b) = some (.dict k es) ∧ ds.map key <+: es.map key := by
  rw [along_overlay hb h ht]
  cases hy : along p b with
  | none => exact ⟨ds, rfl, List.prefix_refl _⟩
  | some y =>
    cases y with
    | leaf k' x =>
      have hx : ¬ Conflict wins (.dict k ds) (.leaf k' x) := by
        rintro ⟨q, s, l, z, hs, hdict, hz, hw⟩
        refine h ⟨p ++ q, s, l, z, ?_, hdict, ?_, hw⟩
        · rw [along_append, ht, Option.bind_some, hs]
        · rw [along_append, hy, Option.bind_some, hz]
      exact ⟨ds, congrArg some (overlay_of_leaf hx), List.prefix_refl _⟩
    | dict k' cs =>
      refine ⟨_, congrArg some (overlay_dict k k' ds cs), ?_⟩
      have hkeys : (ds.map (under wins cs)).map key = ds.map key := by
        rw [List.map_map]
        exact List.map_congr_left fun d _ => key_under cs d
      rw [overlayAll_eq (hb.along hy).nodup, List.map_append, hkeys]
      exact List.prefix_append _ _

/-- What a dict has no node for is added. -/
theorem along_overlay_new {y : KeyedTree κ α} (hb : Distinct b) (h : ¬ Conflict wins a b)
    (ht : along p a = some (.dict k ds)) {l : κ} (hnone : along (p ++ [l]) a = none)
    (hy : along (p ++ [l]) b = some y) : along (p ++ [l]) (overlay wins a b) = some y := by
  rw [along_append] at hnone hy ⊢
  obtain ⟨s, hs, hy⟩ := Option.bind_eq_some_iff.mp hy
  rw [ht, Option.bind_some] at hnone
  rw [along_overlay hb h ht, hs, Option.bind_some, Option.elim_some]
  cases s with
  | leaf _ _ => cases hy
  | dict k' cs =>
    have hds : ds.find? (fun d => d.key = l) = none := by
      simpa [along, Option.bind_eq_none_iff] using hnone
    rw [overlay_dict, along, find?_overlayAll (hb.along hs).nodup, hds, Option.map_none, Option.none_or]
    exact hy

/-- There is nothing else in an overlay. -/
theorem along_of_overlay (hb : Distinct b) (h : ¬ Conflict wins a b)
    (ht : along p (overlay wins a b) = some t) : along p a ≠ none ∨
      ∃ q l r, p = q ++ l :: r ∧ (∃ k ds, along q a = some (.dict k ds)) ∧ along (q ++ [l]) a = none ∧
        along p b = some t := by
  induction p generalizing a b with
  | nil => exact .inl (by simp [along])
  | cons l p ih =>
    cases a with
    | leaf k x =>
      rw [overlay_leaf] at ht
      cases ht
    | dict k ds =>
      cases b with
      | leaf k' x =>
        rw [overlay_of_leaf h] at ht
        exact .inl (by simp [ht])
      | dict k' cs =>
        rw [overlay_dict, along, find?_overlayAll hb.nodup] at ht
        cases hd : ds.find? fun d => d.key = l with
        | none =>
          rw [hd, Option.map_none, Option.none_or] at ht
          exact .inr ⟨[], l, p, rfl, ⟨k, ds, rfl⟩, by simp [along, hd], ht⟩
        | some d =>
          have hkey : d.key = l := by simpa using List.find?_some hd
          rw [hd, Option.map_some, Option.some_or, Option.bind_some, under, hkey] at ht
          cases hc : cs.find? fun c => c.key = l with
          | none =>
            rw [hc] at ht
            exact .inl (by simp [along, hd, show along p d = some t from ht])
          | some c =>
            rw [hc] at ht
            obtain hleft | ⟨q, l', r, rfl, ⟨k'', es, hq⟩, hnone, hr⟩ :=
              ih (hb.child (List.mem_of_find?_eq_some hc)) (fun hn => h (hn.child hd hc)) ht
            · exact .inl (by simpa [along, hd] using hleft)
            · refine .inr ⟨l :: q, l', r, rfl, ⟨k'', es, ?_⟩, ?_, ?_⟩
              · rw [along, hd, Option.bind_some, hq]
              · rw [List.cons_append, along, hd, Option.bind_some, hnone]
              · rw [along, hc, Option.bind_some, hr]

/-! ### Laying a tree over another one twice -/

theorem find?_of_mem (hcs : (cs.map key).Nodup) {c : KeyedTree κ α} (hc : c ∈ cs) :
    cs.find? (fun x => x.key = c.key) = some c := by
  induction cs with
  | nil => cases hc
  | cons d cs ih =>
    obtain ⟨hd, hcs⟩ := List.nodup_cons.mp hcs
    obtain rfl | hc := List.mem_cons.mp hc
    · exact List.find?_cons_of_pos (by simp)
    · have hne : d.key ≠ c.key := fun heq => hd (heq ▸ List.mem_map_of_mem hc)
      rw [List.find?_cons_of_neg (by simpa using hne), ih hcs hc]

/-- All nodes that are laid over are there already. -/
theorem overlayAll_of_subset (hcs : (cs.map key).Nodup) (hsub : ∀ c ∈ cs, c.key ∈ ds.map key)
    (hsame : ∀ d ∈ ds, under wins cs d = d) : overlayAll wins ds cs = ds := by
  have hnone : cs.filter (fun c => c.key ∉ ds.map key) = [] := by
    rw [List.filter_eq_nil_iff]
    intro c hc
    simpa using hsub c hc
  rw [overlayAll_eq hcs, hnone, List.append_nil]
  exact (List.map_congr_left hsame).trans (List.map_id ds)

theorem overlay_self (ht : Distinct t) : overlay wins t t = t := by
  induction ht with
  | leaf => exact overlay_leaf _ _ _
  | @dict k cs hcs _ ih =>
    rw [overlay_dict, overlayAll_of_subset hcs fun c hc => List.mem_map_of_mem hc]
    intro c hc
    rw [under, find?_of_mem hcs hc]
    exact ih c hc

theorem overlay_again (hb : Distinct b) (a : KeyedTree κ α) :
    overlay wins (overlay wins a b) b = overlay wins a b := by
  induction hb generalizing a with
  | @leaf k x =>
    cases a with
    | leaf _ _ => rw [overlay_leaf, overlay_leaf]
    | dict k' ds => by_cases hx : wins x = true <;> simp [overlay, hx]
  | @dict k cs hcs hchild ih =>
    cases a with
    | leaf _ _ => rw [overlay_leaf, overlay_leaf]
    | dict k' ds =>
      rw [overlay_dict, overlay_dict]
      congr 1
      apply overlayAll_of_subset hcs
      · intro c hc
        rw [overlayAll_eq hcs, List.map_append, List.mem_append]
        by_cases hmem : c.key ∈ ds.map key
        · obtain ⟨d, hd, hkey⟩ := List.mem_map.mp hmem
          exact .inl (List.mem_map.mpr ⟨_, List.mem_map_of_mem hd, (key_under cs d).trans hkey⟩)
        · exact .inr (List.mem_map_of_mem (List.mem_filter.mpr ⟨hc, by simpa using hmem⟩))
      · intro e he
        rw [overlayAll_eq hcs, List.mem_append] at he
        obtain he | he := he
        · obtain ⟨d, -, rfl⟩ := List.mem_map.mp he
          rw [under, key_under, under]
          cases hc : cs.find? fun c => c.key = d.key with
          | none => rfl
          | some c => exact ih c (List.mem_of_find?_eq_some hc) d
        · have hc := (List.mem_filter.mp he).1
          rw [under, find?_of_mem hcs hc]
          exact overlay_self (hchild e hc)

end KeyedTree
