import Mathlib.Data.List.Flatten
import Opticon.Var.Heap
import Opticon.Var.Laws

/-! Trees as they lie in memory: which vars are where, what a change elsewhere leaves alone, and what
linking a var and freeing one do to the tree it is in. -/

namespace Opticon

open Linked (Heap Node Seg)

def VarValue.type : VarValue → VarType
  | .null => .null
  | .int _ => .int
  | .double _ => .double
  | .str _ => .str

/-- The union for a value. There is none for an unset var, whose union nothing looks at. -/
def VarValue.union (unset : VarUnion) : VarValue → VarUnion
  | .null => unset
  | .int ival => .ival ival
  | .double dval => .dval dval
  | .str sval => .sval (some sval)

/-- A var with what is below it, each var at its address. A string var may have lost its string, as one
does that `var_merge` is called for. -/
inductive PlacedVar where
  | leaf (a : Nat) (id : FString) (hashcode : BitVec 32) (value : VarValue) (unset : VarUnion)
  | lost (a : Nat) (id : FString) (hashcode : BitVec 32)
  | node (a : Nat) (id : FString) (hashcode : BitVec 32) (dict : Bool) (cachepos : ℤ)
      (children : List PlacedVar)

namespace PlacedVar

def addr : PlacedVar → Nat
  | .leaf a _ _ _ _ | .lost a _ _ | .node a _ _ _ _ _ => a

def id : PlacedVar → FString
  | .leaf _ id _ _ _ | .lost _ id _ | .node _ id _ _ _ _ => id

def hashcode : PlacedVar → BitVec 32
  | .leaf _ _ h _ _ | .lost _ _ h | .node _ _ h _ _ _ => h

mutual

/-- The addresses below a var. -/
def under : PlacedVar → List Nat
  | .leaf _ _ _ _ _ | .lost _ _ _ => []
  | .node _ _ _ _ _ cs => underAll cs

def underAll : List PlacedVar → List Nat
  | [] => []
  | c :: cs => c.addr :: (c.under ++ underAll cs)

end

def addrs (t : PlacedVar) : List Nat := t.addr :: t.under

mutual

/-- The tree without its addresses. A string that is lost reads as that of an unset var. -/
def toVar : PlacedVar → Var
  | .leaf _ id h value _ => .leaf id h value
  | .lost _ id h => .leaf id h .null
  | .node _ id h dict _ cs => Var.node dict id h (toVarAll cs)

def toVarAll : List PlacedVar → List Var
  | [] => []
  | c :: cs => c.toVar :: toVarAll cs

end

/-- What a var with these children knows of them. -/
def links (cachepos : ℤ) (cs : List PlacedVar) : VarArr where
  first := (cs.map addr).head?
  last := (cs.map addr).getLast?
  count := some (BitVec.ofNat 32 cs.length)
  cachepos := some cachepos

/-- What is at the address of a var. -/
def cell (parent : Option Nat) : PlacedVar → VarCell
  | .leaf _ id h value unset => ⟨id, h, parent, value.type, value.union unset⟩
  | .lost _ id h => ⟨id, h, parent, .str, .sval none⟩
  | .node _ id h dict pos cs => ⟨id, h, parent, if dict then .dict else .array, .arr (links pos cs)⟩

theorem id_cell (t : PlacedVar) (parent : Option Nat) : (t.cell parent).id = t.id := by
  cases t <;> rfl

/-- The children of a var, as they are linked. -/
def cells (parent : Nat) (cs : List PlacedVar) : List (Nat × VarCell) :=
  cs.map fun c => (c.addr, c.cell (some parent))

@[simp] theorem under_leaf (a : Nat) (id : FString) (h : BitVec 32) (value : VarValue)
    (unset : VarUnion) : (leaf a id h value unset).under = [] := by
  rw [under]

@[simp] theorem under_lost (a : Nat) (id : FString) (h : BitVec 32) : (lost a id h).under = [] := by
  rw [under]

@[simp] theorem under_node (a : Nat) (id : FString) (h : BitVec 32) (dict : Bool) (pos : ℤ)
    (cs : List PlacedVar) : (node a id h dict pos cs).under = cs.flatMap addrs := by
  rw [under]
  induction cs with
  | nil => rw [underAll, List.flatMap_nil]
  | cons c cs ih =>
    rw [underAll, ih, List.flatMap_cons, addrs, List.cons_append]

@[simp] theorem addrs_node (a : Nat) (id : FString) (h : BitVec 32) (dict : Bool) (pos : ℤ)
    (cs : List PlacedVar) : (node a id h dict pos cs).addrs = a :: cs.flatMap addrs := by
  rw [addrs, under_node]
  rfl

theorem toVarAll_eq_map (cs : List PlacedVar) : toVarAll cs = cs.map toVar := by
  induction cs with
  | nil => rw [toVarAll, List.map_nil]
  | cons c cs ih => rw [toVarAll, ih, List.map_cons]

@[simp] theorem toVar_leaf (a : Nat) (id : FString) (h : BitVec 32) (value : VarValue)
    (unset : VarUnion) : (leaf a id h value unset).toVar = .leaf id h value := by
  rw [toVar]

@[simp] theorem toVar_lost (a : Nat) (id : FString) (h : BitVec 32) :
    (lost a id h).toVar = .leaf id h .null := by
  rw [toVar]

@[simp] theorem toVar_node (a : Nat) (id : FString) (h : BitVec 32) (dict : Bool) (pos : ℤ)
    (cs : List PlacedVar) : (node a id h dict pos cs).toVar = Var.node dict id h (cs.map toVar) := by
  rw [toVar, toVarAll_eq_map]

@[simp] theorem id_toVar (t : PlacedVar) : t.toVar.id = t.id := by
  cases t with
  | leaf => rw [toVar_leaf]; rfl
  | lost => rw [toVar_lost]; rfl
  | node _ _ _ dict => rw [toVar_node]; cases dict <;> rfl

@[simp] theorem hashcode_toVar (t : PlacedVar) : t.toVar.hashcode = t.hashcode := by
  cases t with
  | leaf => rw [toVar_leaf]; rfl
  | lost => rw [toVar_lost]; rfl
  | node _ _ _ dict => rw [toVar_node]; cases dict <;> rfl

/-- What holds of a var if it holds of its children holds of all. -/
theorem induction {P : PlacedVar → Prop} (hleaf : ∀ a id h value unset, P (leaf a id h value unset))
    (hlost : ∀ a id h, P (lost a id h))
    (hnode : ∀ a id h dict pos cs, (∀ c ∈ cs, P c) → P (node a id h dict pos cs)) : ∀ t, P t
  | .leaf a id h value unset => hleaf a id h value unset
  | .lost a id h => hlost a id h
  | .node a id h dict pos cs => by
    apply hnode
    intro c hc
    exact induction hleaf hlost hnode c

theorem addr_mem_addrs (t : PlacedVar) : t.addr ∈ t.addrs := List.mem_cons_self

theorem mem_roots {c : PlacedVar} {cs : List PlacedVar} (hc : c ∈ cs) {a : Nat} (ha : a ∈ c.addrs) :
    a ∈ cs.flatMap addrs :=
  List.mem_flatMap.mpr ⟨c, hc, ha⟩

theorem addrs_cells (parent : Nat) (cs : List PlacedVar) :
    Linked.addrs (cells parent cs) = cs.map addr := by
  rw [Linked.addrs, cells, List.map_map]
  rfl

theorem map_addr_subset {cs : List PlacedVar} {a : Nat} (ha : a ∈ cs.map addr) :
    a ∈ cs.flatMap addrs := by
  obtain ⟨c, hc, rfl⟩ := List.mem_map.mp ha
  exact mem_roots hc c.addr_mem_addrs

/-- A var is not below another child, nor below itself. -/
theorem addr_not_mem_under {cs : List PlacedVar} (hcs : (cs.flatMap addrs).Nodup) {r c : PlacedVar}
    (hr : r ∈ cs) (hc : c ∈ cs) : r.addr ∉ c.under := by
  induction cs with
  | nil => cases hr
  | cons d cs ih =>
    rw [List.flatMap_cons] at hcs
    obtain ⟨hd, hcs, hdis⟩ := List.nodup_append.mp hcs
    intro hmem
    obtain rfl | hr' := List.mem_cons.mp hr
    · obtain rfl | hc' := List.mem_cons.mp hc
      · exact (List.nodup_cons.mp hd).1 hmem
      · exact hdis _ r.addr_mem_addrs _ (mem_roots hc' (List.mem_cons_of_mem _ hmem)) rfl
    · obtain rfl | hc' := List.mem_cons.mp hc
      · exact hdis _ (List.mem_cons_of_mem _ hmem) _ (mem_roots hr' r.addr_mem_addrs) rfl
      · exact ih hcs hr' hc' hmem

theorem map_addr_nodup {cs : List PlacedVar} (hcs : (cs.flatMap addrs).Nodup) :
    (cs.map addr).Nodup := by
  induction cs with
  | nil => exact List.nodup_nil
  | cons c cs ih =>
    rw [List.flatMap_cons] at hcs
    obtain ⟨-, hcs, hdis⟩ := List.nodup_append.mp hcs
    refine List.nodup_cons.mpr ⟨?_, ih hcs⟩
    intro hmem
    exact hdis _ c.addr_mem_addrs _ (map_addr_subset hmem) rfl

/-- The var under another key. -/
def withKey (id : FString) (h : BitVec 32) : PlacedVar → PlacedVar
  | .leaf a _ _ value unset => .leaf a id h value unset
  | .lost a _ _ => .lost a id h
  | .node a _ _ dict pos cs => .node a id h dict pos cs

section

variable (t : PlacedVar) (id : FString) (h : BitVec 32)

@[simp] theorem addr_withKey : (t.withKey id h).addr = t.addr := by
  cases t <;> rfl

@[simp] theorem id_withKey : (t.withKey id h).id = id := by
  cases t <;> rfl

@[simp] theorem hashcode_withKey : (t.withKey id h).hashcode = h := by
  cases t <;> rfl

@[simp] theorem under_withKey : (t.withKey id h).under = t.under := by
  cases t <;> simp [withKey]

@[simp] theorem addrs_withKey : (t.withKey id h).addrs = t.addrs := by
  rw [addrs, addr_withKey, under_withKey, addrs]

theorem cell_withKey (parent parent' : Option Nat) : (t.withKey id h).cell parent =
    { t.cell parent' with id := id, hashcode := h, parent := parent } := by
  cases t <;> rfl

theorem toVar_withKey : (t.withKey id h).toVar = (t.toVar.setId id).setHashcode h := by
  cases t with
  | leaf => simp [withKey, Var.setId, Var.setHashcode]
  | lost => simp [withKey, Var.setId, Var.setHashcode]
  | node _ _ _ dict => cases dict <;> simp [withKey, Var.node, Var.setId, Var.setHashcode]

end

/-- The children are linked with each other, below each var of a tree. -/
inductive Rests (m : Heap VarCell) : PlacedVar → Prop
  | leaf {a : Nat} {id : FString} {h : BitVec 32} {value : VarValue} {unset : VarUnion} :
      Rests m (.leaf a id h value unset)
  | lost {a : Nat} {id : FString} {h : BitVec 32} : Rests m (.lost a id h)
  | node {a : Nat} {id : FString} {h : BitVec 32} {dict : Bool} {pos : ℤ} {cs : List PlacedVar} :
      Seg m none (links pos cs).first (cells a cs) (links pos cs).last none →
      (∀ c ∈ cs, Rests m c) → Rests m (.node a id h dict pos cs)

/-- The var with its hash, which a var without a key does not have. -/
def hashed (ihash : BitVec 32) (t : PlacedVar) : PlacedVar :=
  if t.hashcode = 0 ∧ t.id.str ≠ [] then t.withKey t.id (hashToken ihash t.id.str) else t

/-- A clone under the key it is linked with. -/
def linked (ihash : BitVec 32) (dict : Bool) (key : FString) (t : PlacedVar) : PlacedVar :=
  if dict then t.withKey key (hashToken ihash key.str) else t

theorem addrs_linked (ihash : BitVec 32) (dict : Bool) (key : FString) (t : PlacedVar) :
    (t.linked ihash dict key).addrs = t.addrs := by
  cases dict with
  | false => rfl
  | true => exact addrs_withKey _ _ _

theorem toVar_linked (ihash : BitVec 32) (dict : Bool) (key : FString) (t : PlacedVar) :
    (t.linked ihash dict key).toVar =
      if dict then (t.toVar.setId key).setHashcode (hashToken ihash key.str) else t.toVar := by
  cases dict with
  | false => rfl
  | true => exact toVar_withKey _ _ _

theorem withKey_withKey (t : PlacedVar) (id id' : FString) (h h' : BitVec 32) :
    (t.withKey id h).withKey id' h' = t.withKey id' h' := by
  cases t <;> rfl

theorem withKey_self (t : PlacedVar) : t.withKey t.id t.hashcode = t := by
  cases t <;> rfl

theorem hashed_eq (ihash : BitVec 32) (t : PlacedVar) : t.hashed ihash = t.withKey t.id
    (if t.hashcode = 0 ∧ t.id.str ≠ [] then hashToken ihash t.id.str else t.hashcode) := by
  unfold hashed
  split
  · rfl
  · exact t.withKey_self.symm

theorem cell_hashed (ihash : BitVec 32) (t : PlacedVar) (parent parent' : Option Nat) :
    (t.hashed ihash).cell parent = { (t.cell parent').hashed ihash with parent := parent } := by
  have hh : (t.cell parent').hashcode = t.hashcode := by cases t <;> rfl
  unfold hashed VarCell.hashed
  rw [id_cell, hh]
  split
  · exact cell_withKey _ _ _ _ _
  · cases t <;> rfl

theorem Rests.withKey {m : Heap VarCell} {t : PlacedVar} (ht : Rests m t) (id : FString)
    (h : BitVec 32) : Rests m (t.withKey id h) := by
  cases ht with
  | leaf => exact .leaf
  | lost => exact .lost
  | node hl hc => exact .node hl hc

theorem Rests.congr {m m' : Heap VarCell} {t : PlacedVar} (ht : Rests m t)
    (hm : ∀ a ∈ t.under, m' a = m a) : Rests m' t := by
  induction ht with
  | leaf => exact .leaf
  | lost => exact .lost
  | @node a id h dict pos cs hl hc ih =>
    rw [under_node] at hm
    refine .node (hl.congr ?_) ?_
    · intro b hb
      rw [addrs_cells] at hb
      exact hm b (map_addr_subset hb)
    · intro c hc
      exact ih c hc fun b hb => hm b (mem_roots hc (List.mem_cons_of_mem _ hb))

end PlacedVar

open PlacedVar

/-- Where a var is linked. -/
structure Place where
  parent : Option Nat
  prev : Option Nat
  next : Option Nat

def Place.alone : Place := ⟨none, none, none⟩

/-- A tree lies in memory: its root is linked here, and no var of it is in two places. -/
structure VarHeap.Holds (m : VarHeap) (t : PlacedVar) (pl : Place) : Prop where
  root : m.mem t.addr = some ⟨pl.prev, pl.next, t.cell pl.parent⟩
  rests : Rests m.mem t
  nodup : t.addrs.Nodup
  made : ∀ a ∈ t.addrs, a < m.made

namespace VarHeap

variable {m m' : VarHeap} {a b : Nat} {t c : PlacedVar} {cs ds : List PlacedVar} {pl pl' : Place}

@[simp] theorem read_eq {node : Node VarCell} (hm : m.mem a = some node) : m.read a = .ok node := by
  rw [read, hm]

theorem write_eq {node : Node VarCell} (hm : m.mem a = some node) (f : Node VarCell → Node VarCell) :
    m.write a f = .ok (m.set a (some (f node))) := by
  rw [write, read_eq hm]
  rfl

theorem writeVar_eq {node : Node VarCell} (hm : m.mem a = some node) (f : VarCell → VarCell) :
    m.writeVar a f = .ok (m.set a (some { node with val := f node.val })) := by
  rw [writeVar, write_eq hm]

theorem writeArr_eq {node : Node VarCell} {links : VarArr} (hm : m.mem a = some node)
    (hl : node.val.value = .arr links) (f : VarArr → VarArr) : m.writeArr a f =
      .ok (m.set a (some { node with val := { node.val with value := .arr (f links) } })) := by
  rw [writeArr, read_eq hm, Outcome.ok_bind, hl, VarUnion.getArr, Outcome.ok_bind, writeVar_eq hm]

@[simp] theorem mem_set_self (m : VarHeap) (a : Nat) (node : Option (Node VarCell)) :
    (m.set a node).mem a = node :=
  Function.update_self _ _ _

theorem mem_set_of_ne (hab : b ≠ a) (node : Option (Node VarCell)) :
    (m.set a node).mem b = m.mem b :=
  Function.update_of_ne hab _ _

/-- What happens elsewhere leaves a tree alone. -/
theorem Holds.congr (ht : m.Holds t pl) (hm : ∀ a ∈ t.addrs, m'.mem a = m.mem a)
    (hmade : m.made ≤ m'.made) : m'.Holds t pl := by
  refine ⟨?_, ?_, ht.nodup, ?_⟩
  · rw [hm _ t.addr_mem_addrs]
    exact ht.root
  · exact ht.rests.congr fun a ha => hm a (List.mem_cons_of_mem _ ha)
  · intro a ha
    exact Nat.lt_of_lt_of_le (ht.made a ha) hmade

/-- There are not more vars in a tree than were ever made. -/
theorem length_addrs_le (hnd : t.addrs.Nodup) (hmade : ∀ a ∈ t.addrs, a < m.made) :
    t.addrs.length ≤ m.made := by
  have hsub : t.addrs ⊆ List.range m.made := fun a ha => List.mem_range.mpr (hmade a ha)
  simpa using (List.subperm_of_subset hnd hsub).length_le

/-- The root of a tree is written, and its children are left as they are. -/
theorem Holds.setRoot (ht : m.Holds t pl) (haddr : c.addr = t.addr) (hunder : c.under = t.under)
    (hrests : Rests m.mem c) (pl' : Place) :
    (m.set t.addr (some ⟨pl'.prev, pl'.next, c.cell pl'.parent⟩)).Holds c pl' := by
  have haddrs : c.addrs = t.addrs := by rw [addrs, addrs, haddr, hunder]
  have hroot : t.addr ∉ t.under := (List.nodup_cons.mp ht.nodup).1
  refine ⟨?_, hrests.congr fun a ha => mem_set_of_ne ?_ _, ?_, ?_⟩
  · rw [haddr, mem_set_self]
  · rw [hunder] at ha
    exact ne_of_mem_of_not_mem ha hroot
  · rw [haddrs]
    exact ht.nodup
  · rw [haddrs]
    exact ht.made

/-- The root of a tree is linked somewhere else, maybe under another key. -/
theorem Holds.withKey (ht : m.Holds t pl) (id : FString) (h : BitVec 32) (pl' : Place) :
    (m.set t.addr (some ⟨pl'.prev, pl'.next, (t.withKey id h).cell pl'.parent⟩)).Holds
      (t.withKey id h) pl' :=
  ht.setRoot (addr_withKey _ _ _) (under_withKey _ _ _) (ht.rests.withKey id h) pl'

end VarHeap

end Opticon
