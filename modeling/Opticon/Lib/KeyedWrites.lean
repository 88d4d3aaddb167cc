import Mathlib.Data.List.Nodup
import Mathlib.Data.List.Perm.Basic

/-! Values written under keys, where what is there already has a say in what becomes of a value that
is written over it. -/

universe u v

namespace KeyedWrites

variable {κ : Type u} {α : Type v} [DecidableEq κ] (onto : α → α → α)

/-- Write a value under a key: over the one that is there, or behind all others. -/
def write (k : κ) (y : α) : List (κ × α) → List (κ × α)
  | [] => [(k, y)]
  | (k', x) :: es => if k' = k then (k', onto x y) :: es else (k', x) :: write k y es

/-- What becomes of the value under one key. -/
def settle (o : Option α) (ys : List α) : Option α :=
  ys.foldl (fun o y => some (o.elim y fun x => onto x y)) o

/-- Write one value after the other. -/
def writeAll (es ws : List (κ × α)) : List (κ × α) := ws.foldl (fun es w => write onto w.1 w.2 es) es

variable {onto} {k l : κ} {x y : α} {es ws ds : List (κ × α)}

theorem write_new (hk : k ∉ es.map Prod.fst) : write onto k y es = es ++ [(k, y)] := by
  induction es with
  | nil => rfl
  | cons e es ih =>
    rw [List.map_cons, List.mem_cons, not_or] at hk
    rw [write, if_neg fun h => hk.1 h.symm, ih hk.2, List.cons_append]

theorem mem_keys_write : l ∈ (write onto k y es).map Prod.fst ↔ l = k ∨ l ∈ es.map Prod.fst := by
  induction es with
  | nil => simp [write]
  | cons e es ih =>
    by_cases he : e.1 = k
    · rw [write, if_pos he, List.map_cons, List.map_cons, List.mem_cons, he]
      tauto
    · rw [write, if_neg he, List.map_cons, List.map_cons, List.mem_cons, List.mem_cons, ih]
      tauto

theorem nodup_write (h : (es.map Prod.fst).Nodup) : ((write onto k y es).map Prod.fst).Nodup := by
  induction es with
  | nil => simp [write]
  | cons e es ih =>
    rw [List.map_cons, List.nodup_cons] at h
    by_cases he : e.1 = k
    · rw [write, if_pos he]
      exact List.nodup_cons.mpr h
    · rw [write, if_neg he, List.map_cons, List.nodup_cons, mem_keys_write, not_or]
      exact ⟨⟨he, h.1⟩, ih h.2⟩

theorem lookup_write_self : (write onto k y es).lookup k = some ((es.lookup k).elim y fun x => onto x y) := by
  induction es with
  | nil => simp [write]
  | cons e es ih =>
    obtain ⟨k', x⟩ := e
    by_cases he : k' = k
    · rw [write, if_pos he, he, List.lookup_cons_self, List.lookup_cons_self]
      rfl
    · have hne : (k == k') = false := beq_eq_false_iff_ne.mpr fun h => he h.symm
      rw [write, if_neg he, List.lookup_cons, List.lookup_cons, hne]
      exact ih

theorem lookup_write_ne (hne : l ≠ k) : (write onto k y es).lookup l = es.lookup l := by
  induction es with
  | nil =>
    have hlk : (l == k) = false := beq_eq_false_iff_ne.mpr hne
    rw [write, List.lookup_cons, hlk]
  | cons e es ih =>
    obtain ⟨k', x⟩ := e
    by_cases he : k' = k
    · have hlk : (l == k') = false := beq_eq_false_iff_ne.mpr (he ▸ hne)
      rw [write, if_pos he, List.lookup_cons, List.lookup_cons, hlk]
    · rw [write, if_neg he, List.lookup_cons, List.lookup_cons, ih]

theorem nodup_writeAll (h : (es.map Prod.fst).Nodup) : ((writeAll onto es ws).map Prod.fst).Nodup := by
  induction ws generalizing es with
  | nil => exact h
  | cons w ws ih => exact ih (nodup_write h)

/-- What is under a key in the end is what the values written there have made of it. -/
theorem lookup_writeAll : (writeAll onto es ws).lookup k =
    settle onto (es.lookup k) ((ws.filter fun w => w.1 = k).map Prod.snd) := by
  induction ws generalizing es with
  | nil => rfl
  | cons w ws ih =>
    change (writeAll onto (write onto w.1 w.2 es) ws).lookup k = _
    rw [ih]
    by_cases hw : w.1 = k
    · rw [List.filter_cons_of_pos (by simpa using hw), ← hw, lookup_write_self]
      rfl
    · rw [List.filter_cons_of_neg (by simpa using hw), lookup_write_ne (Ne.symm hw)]

/-- Writing under new and different keys adds them. -/
theorem writeAll_new (h : (es.map Prod.fst ++ ws.map Prod.fst).Nodup) : writeAll onto es ws = es ++ ws := by
  induction ws generalizing es with
  | nil => rw [List.append_nil]; rfl
  | cons w ws ih =>
    have hw : w.1 ∉ es.map Prod.fst := by
      intro hmem
      rw [List.nodup_append] at h
      exact h.2.2 _ hmem _ List.mem_cons_self rfl
    change writeAll onto (write onto w.1 w.2 es) ws = _
    rw [write_new hw, ih, List.append_assoc]
    · rfl
    · rw [List.map_append, List.append_assoc]
      exact h

theorem mem_of_lookup (h : es.lookup k = some x) : (k, x) ∈ es := by
  rw [List.lookup_eq_some_iff] at h
  obtain ⟨l₁, l₂, rfl, -⟩ := h
  exact List.mem_append_right l₁ List.mem_cons_self

theorem lookup_of_mem (hnd : (es.map Prod.fst).Nodup) (h : (k, x) ∈ es) : es.lookup k = some x := by
  induction es with
  | nil => cases h
  | cons e es ih =>
    rw [List.map_cons, List.nodup_cons] at hnd
    obtain rfl | h := List.mem_cons.mp h
    · exact List.lookup_cons_self
    · have hne : (k == e.1) = false := by
        refine beq_eq_false_iff_ne.mpr ?_
        rintro rfl
        exact hnd.1 (List.mem_map.mpr ⟨_, h, rfl⟩)
      rw [List.lookup_cons, hne]
      exact ih hnd.2 h

theorem lookup_map_snd {β : Type v} (f : α → β) :
    (es.map fun e => (e.1, f e.2)).lookup k = (es.lookup k).map f := by
  induction es with
  | nil => rfl
  | cons e es ih =>
    rw [List.map_cons, List.lookup_cons, List.lookup_cons, ih]
    cases k == e.1 <;> rfl

/-- A key is looked up among the entries for the elements of a list. -/
theorem lookup_map_eq_head? {γ : Type v} (key : γ → κ) (f : γ → α) (l : List γ) :
    (l.map fun c => (key c, f c)).lookup k = ((l.filter fun c => key c = k).map f).head? := by
  induction l with
  | nil => rfl
  | cons c l ih =>
    by_cases hc : key c = k
    · rw [List.map_cons, List.lookup_cons, List.filter_cons_of_pos (by simpa using hc), hc, beq_self_eq_true]
      rfl
    · rw [List.map_cons, List.lookup_cons, List.filter_cons_of_neg (by simpa using hc), ih,
        beq_eq_false_iff_ne.mpr (Ne.symm hc)]

/-- Entries are a rearrangement of others with different keys if under each key the same is found. -/
theorem perm_iff_lookup (hes : (es.map Prod.fst).Nodup) :
    es.Perm ds ↔ (ds.map Prod.fst).Nodup ∧ ∀ k, es.lookup k = ds.lookup k := by
  constructor
  · intro hp
    have hds := (hp.map Prod.fst).nodup_iff.mp hes
    refine ⟨hds, fun k => ?_⟩
    apply Option.ext
    intro x
    constructor
    · exact fun h => lookup_of_mem hds (hp.mem_iff.mp (mem_of_lookup h))
    · exact fun h => lookup_of_mem hes (hp.mem_iff.mpr (mem_of_lookup h))
  · rintro ⟨hds, hlookup⟩
    refine (List.perm_ext_iff_of_nodup (List.Nodup.of_map _ hes) (List.Nodup.of_map _ hds)).mpr ?_
    rintro ⟨k, x⟩
    constructor
    · intro h
      have hk := lookup_of_mem hes h
      rw [hlookup] at hk
      exact mem_of_lookup hk
    · intro h
      have hk := lookup_of_mem hds h
      rw [← hlookup] at hk
      exact mem_of_lookup hk

section Kinds

variable {ι : Type v} {kind : α → ι} {xs ys : List α} {z : α}

/-- Where a value that is written over another one replaces it exactly if it is of its kind. -/
def KeepsKind (onto : α → α → α) (kind : α → ι) (P : α → Prop) : Prop :=
  ∀ x y, P x → (kind y = kind x → onto x y = y) ∧ (kind y ≠ kind x → onto x y = x)

variable {P : α → Prop}

theorem settle_cons (x : α) (ys : List α) : settle onto none (x :: ys) = some (ys.foldl onto x) := by
  unfold settle
  rw [List.foldl_cons]
  change ys.foldl _ (some x) = _
  induction ys generalizing x with
  | nil => rfl
  | cons y ys ih => exact ih (onto x y)

theorem foldl_onto_kind (honto : KeepsKind onto kind P) (hx : P x) (hys : ∀ y ∈ ys, P y) :
    kind (ys.foldl onto x) = kind x ∧ P (ys.foldl onto x) := by
  induction ys generalizing x with
  | nil => exact ⟨rfl, hx⟩
  | cons y ys ih =>
    have hstep : kind (onto x y) = kind x ∧ P (onto x y) := by
      by_cases hk : kind y = kind x
      · rw [(honto x y hx).1 hk]
        exact ⟨hk, hys y List.mem_cons_self⟩
      · rw [(honto x y hx).2 hk]
        exact ⟨rfl, hx⟩
    obtain ⟨hkind, hp⟩ := ih hstep.2 fun w hw => hys w (List.mem_cons_of_mem y hw)
    exact ⟨hkind.trans hstep.1, hp⟩

theorem foldl_onto_of_none (honto : KeepsKind onto kind P) (hx : P x) (hys : ∀ y ∈ ys, kind y ≠ kind x) :
    ys.foldl onto x = x := by
  induction ys with
  | nil => rfl
  | cons y ys ih =>
    rw [List.foldl_cons, (honto x y hx).2 (hys y List.mem_cons_self)]
    exact ih fun w hw => hys w (List.mem_cons_of_mem y hw)

theorem foldl_onto_of_some (honto : KeepsKind onto kind P) (hx : P x) (hys : ∀ y ∈ ys, P y)
    (hz : ∀ y ∈ ys, kind y = kind x → y = z) (hsome : ∃ y ∈ ys, kind y = kind x) :
    ys.foldl onto x = z := by
  induction ys generalizing x with
  | nil =>
    obtain ⟨y, hy, -⟩ := hsome
    cases hy
  | cons y ys ih =>
    obtain ⟨hp, hps⟩ := List.forall_mem_cons.mp hys
    obtain ⟨hzy, hzs⟩ := List.forall_mem_cons.mp hz
    rw [List.foldl_cons]
    by_cases hk : kind y = kind x
    · obtain rfl := hzy hk
      rw [(honto x y hx).1 hk]
      by_cases hrest : ∃ w ∈ ys, kind w = kind y
      · exact ih hp hps (fun w hw hkw => hzs w hw (hkw.trans hk)) hrest
      · exact foldl_onto_of_none honto hp fun w hw hkw => hrest ⟨w, hw, hkw⟩
    · rw [(honto x y hx).2 hk]
      refine ih hx hps hzs ?_
      obtain ⟨w, hw, hkw⟩ := hsome
      obtain rfl | hw := List.mem_cons.mp hw
      · exact absurd hkw hk
      · exact ⟨w, hw, hkw⟩

/-- If all values of one kind are alike, one of them stays exactly if what is written over it is. -/
theorem foldl_onto_eq_self_iff (honto : KeepsKind onto kind P) (hx : P x) (hys : ∀ y ∈ ys, P y)
    (hz : ∀ y ∈ ys, kind y = kind x → y = z) :
    ys.foldl onto x = x ↔ ∀ y ∈ ys, kind y = kind x → y = x := by
  by_cases hsome : ∃ y ∈ ys, kind y = kind x
  · rw [foldl_onto_of_some honto hx hys hz hsome]
    constructor
    · exact fun heq y hy hk => (hz y hy hk).trans heq
    · intro h
      obtain ⟨y, hy, hk⟩ := hsome
      exact (hz y hy hk).symm.trans (h y hy hk)
  · have hnone : ∀ y ∈ ys, kind y ≠ kind x := fun y hy hk => hsome ⟨y, hy, hk⟩
    exact iff_of_true (foldl_onto_of_none honto hx hnone) fun y hy hk => absurd hk (hnone y hy)

/-- Which of the values written under a key is there in the end. -/
theorem settle_eq_some_iff (honto : KeepsKind onto kind P) {d : α} (hd : P d) (hxs : ∀ y ∈ xs, P y)
    (hys : ∀ y ∈ ys, P y) (hz : ∀ y ∈ ys, kind y = kind d → y = z) :
    settle onto none (xs ++ d :: ys) = some d ↔
      (∀ e ∈ xs.head?, kind e = kind d) ∧ ∀ e ∈ ys, kind e = kind d → e = d := by
  cases xs with
  | nil =>
    rw [List.nil_append, settle_cons, Option.some_inj, foldl_onto_eq_self_iff honto hd hys hz]
    simp
  | cons b xs =>
    obtain ⟨hb, hxs⟩ := List.forall_mem_cons.mp hxs
    obtain ⟨hkind, hp⟩ := foldl_onto_kind honto hb hxs
    rw [List.cons_append, settle_cons, Option.some_inj, List.foldl_append, List.foldl_cons,
      List.head?_cons]
    have hhead : (∀ e ∈ some b, kind e = kind d) ↔ kind b = kind d := by simp
    rw [hhead]
    by_cases hk : kind d = kind (xs.foldl onto b)
    · rw [(honto _ d hp).1 hk, foldl_onto_eq_self_iff honto hd hys hz]
      simp [hk, hkind]
    · rw [(honto _ d hp).2 hk]
      refine iff_of_false (fun heq => hk ?_) fun h => hk (h.1.symm.trans hkind.symm)
      have hstays := (foldl_onto_kind honto hp hys).1
      rw [heq] at hstays
      exact hstays

end Kinds

end KeyedWrites
