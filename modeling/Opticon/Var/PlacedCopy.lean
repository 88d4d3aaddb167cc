import Opticon.Var.PlacedClone

/-! Copies of trees in memory: whatever the destination was, it becomes like the tree that is copied,
and shares nothing with it. -/

namespace Opticon

open Linked (Heap Node Seg)
open PlacedVar

namespace VarHeap

variable {ihash : BitVec 32} {m m' m₁ : VarHeap} {a b : Nat} {t c r : PlacedVar}
  {cs ds : List PlacedVar} {s : Stem} {pl : Place}

theorem rests_nil {mem : Heap VarCell} {id : FString} {h : BitVec 32} {dict : Bool} {pos : ℤ} :
    Rests mem (.node a id h dict pos []) := by
  refine .node ⟨rfl, rfl⟩ ?_
  intro c hc
  cases hc

/-- What the union of a var without children has when the var is erased. -/
def erased (unset : VarUnion) : VarValue → VarUnion
  | .str _ => .sval none
  | value => value.union unset

/-- Whatever a var was, it is unset, and what was below it is freed. -/
theorem Holds.erase (ht : m.Holds t pl) : ∃ m' unset, m.erase t.addr = .ok m' ∧
    m'.Holds (.leaf t.addr t.id t.hashcode .null unset) pl ∧ m.Freed m' t.under t.addrs := by
  have hframe (m' : VarHeap) (x : Option (Node VarCell)) (a : Nat) (ha : a ∉ t.addrs) :
      (m'.set t.addr x).mem a = m'.mem a :=
    mem_set_of_ne (ne_of_mem_of_not_mem t.addr_mem_addrs ha).symm _
  have hread := read_eq ht.root
  have hfree := freeStr_cell t pl.parent
  have hgone (hunder : t.under = []) (m' : VarHeap) (a : Nat) (ha : a ∈ t.under) : m'.mem a = none := by
    rw [hunder] at ha
    cases ha
  rw [VarHeap.erase, hread, Outcome.ok_bind, hfree, Outcome.ok_bind]
  cases t with
  | leaf a id h value unset =>
    have hset := ht.setRoot (c := .leaf a id h .null (erased unset value)) rfl (by simp) .leaf pl
    refine ⟨_, _, ?_, hset, rfl, hgone (under_leaf _ _ _ _ _) _, hframe m _⟩
    cases value <;> exact writeVar_eq ht.root _
  | lost a id h =>
    have hset := ht.setRoot (c := .leaf a id h .null (.sval none)) rfl (by simp) .leaf pl
    exact ⟨_, _, writeVar_eq ht.root _, hset, rfl, hgone (under_lost _ _ _) _, hframe m _⟩
  | node a id h dict pos cs =>
    have hfirst : ((PlacedVar.node a id h dict pos cs).cell pl.parent).varFirst =
        .ok (cs.map addr).head? := by
      cases dict <;> rfl
    have hlen := length_addrs_le ht.nodup ht.made
    rw [addrs_node, List.length_cons] at hlen
    obtain ⟨m₁, pos', hall, hp₁, hf⟩ := ht.freeAll (fun c _ => frees c) (n := 2 * m.made) (by omega)
    have hroot₁ : m₁.mem a =
      some ⟨pl.prev, pl.next, (PlacedVar.node a id h dict pos' []).cell pl.parent⟩ := hp₁.root
    have hset := hp₁.setRoot (c := .leaf a id h .null .noChildren) rfl (by simp) .leaf pl
    refine ⟨_, _, ?_, hset, hf.made, ?_, ?_⟩
    · have hrun : (do
          let first ← ((PlacedVar.node a id h dict pos cs).cell pl.parent).varFirst
          let m ← VarHeap.freeAll (2 * m.made) m first
          m.writeVar a fun x => { x with type := .null, value := .noChildren }) = .ok (m₁.set a
            (some ⟨pl.prev, pl.next, (PlacedVar.leaf a id h .null .noChildren).cell pl.parent⟩)) := by
        rw [hfirst, Outcome.ok_bind, hall, Outcome.ok_bind]
        exact writeVar_eq hroot₁ _
      cases dict <;> exact hrun
    · intro b hb
      have hne : b ≠ a := ne_of_mem_of_not_mem hb (List.nodup_cons.mp ht.nodup).1
      rw [under_node] at hb
      exact (mem_set_of_ne hne _).trans (hf.gone b hb)
    · intro b hb
      exact (hframe m₁ _ b hb).trans (hf.frame b hb)

theorem writeVar_self {node : Node VarCell} {f : VarCell → VarCell} (hm : m.mem a = some node)
    (hf : f node.val = node.val) : m.writeVar a f = .ok m := by
  rw [writeVar_eq hm, hf, set, ← hm, Function.update_eq_self]

/-- The loop of `var_copy` over the elements of an array: their clones have no key to be reset. -/
theorem Holds.copyInto {mem : Heap VarCell} (hcs : ∀ c ∈ cs, Clones ihash mem c)
    (hkeys : ∀ c ∈ cs, c.toVar.WellKeyed) (hnd : ∀ c ∈ cs, c.addrs.Nodup) (hdict : s.dict = false)
    {prev first last : Option Nat} {o : Nat} (hseg : Seg mem prev first (cells o cs) last none)
    (hp : m.Holds (s.bear ds) pl)
    (hm : ∀ a ∈ cs.flatMap addrs, (a < m.made ∧ m.mem a = mem a) ∧ a ∉ (s.bear ds).addrs)
    {n : Nat} (hn : 2 * (cs.flatMap addrs).length ≤ n) :
    ∃ m' es, VarHeap.copyInto ihash n m s.addr first = .ok m' ∧ Grown ihash s pl m m' ds cs es := by
  refine Grown.loop (fun n m => VarHeap.copyInto ihash n m s.addr) ?_ ?_ hseg hp hm hn
  · intro n m
    cases n <;> rfl
  · intro c hmem n m ds hp hm _
    have hlen := length_addrs_le (hnd c hmem) fun a ha => (hm a ha).1
    obtain ⟨r, m₁, m₂, hclone, hr, hlink, hg⟩ := (hcs c hmem).link hp (hkeys c hmem)
      (fun hd => absurd (hdict.symm.trans hd) Bool.false_ne_true) hm (n := 2 * m.made) (by omega)
    obtain ⟨hid, hhash⟩ := (hkeys c hmem).linkable.clone_unlinked ihash
    rw [← hr.toVar, id_toVar] at hid
    rw [← hr.toVar, hashcode_toVar] at hhash
    rw [hdict] at hlink
    have hlink : m₁.varLink ihash r.addr s.addr = .ok m₂ := hlink
    have hreset : m₁.writeVar r.addr (fun x => { x with id := FString.empty, hashcode := 0 }) =
        .ok m₁ := by
      refine writeVar_self hr.holds.root ?_
      cases r <;> (obtain rfl := hid; obtain rfl := hhash; rfl)
    refine ⟨m₂, _, hg, ?_⟩
    intro hout node hnode hid
    obtain ⟨hlt, hsame⟩ := hm _ c.addr_mem_addrs
    have hread₂ : m₂.mem c.addr = some node := by rw [hg.frame _ hlt hout, hsame, hnode]
    show VarHeap.copyInto ihash (n + 1) m s.addr (some c.addr) = _
    rw [VarHeap.copyInto, VarHeap.varClone, hclone, Outcome.ok_bind]
    dsimp only
    rw [hreset, Outcome.ok_bind, hlink, Outcome.ok_bind, read_eq hread₂, Outcome.ok_bind]

/-- What `var_copy` does, once the destination is erased, with a var that has no children. -/
theorem varCopy_value {x node : Node VarCell} {value : VarValue} {unset : VarUnion}
    (herase : m.erase b = .ok m₁) (hb : m₁.mem b = some x) (hnull : x.val.type = .null)
    (hm : m₁.mem a = some node) (ht : node.val.type = value.type)
    (hv : node.val.value = value.union unset) : m.varCopy ihash b a = .ok (m₁.set b
      (some { x with val := { x.val with type := value.type, value := value.union x.val.value } })) := by
  have hset := setFrom_value hnull value unset ht hv
  rw [varCopy, herase, Outcome.ok_bind, read_eq hm, Outcome.ok_bind, ht]
  cases value <;> (dsimp only [VarValue.type]; rw [read_eq hb, Outcome.ok_bind, hset]; rfl)

/-- The loops of `var_copy`. -/
def fill (ihash : BitVec 32) (m : VarHeap) (dict : Bool) (self : Nat) (first : Option Nat) :
    Except Fault VarHeap :=
  if dict then VarHeap.cloneInto ihash (2 * m.made) m true self first
  else VarHeap.copyInto ihash (2 * m.made) m self first

/-- What `var_copy` does then with a dict or an array. -/
theorem varCopy_node {x node : Node VarCell} {dict : Bool} {pos : ℤ}
    (herase : m.erase b = .ok m₁) (hb : m₁.mem b = some x) (hm : m₁.mem a = some node)
    (ht : node.val.type = if dict then .dict else .array)
    (hv : node.val.value = .arr (links pos cs)) : m.varCopy ihash b a =
      (m₁.set b (some { x with val := { x.val with
        type := if dict then .dict else .array, value := .noChildren } })).fill ihash dict b
          (cs.map addr).head? := by
  have harr : node.val.value.getArr = .ok (links pos cs) := by rw [hv]; rfl
  rw [varCopy, herase, Outcome.ok_bind, read_eq hm, Outcome.ok_bind, ht]
  cases dict with
  | false =>
    rw [if_neg Bool.false_ne_true]
    dsimp only
    rw [writeVar_eq hb, Outcome.ok_bind, harr, Outcome.ok_bind]
    rfl
  | true =>
    rw [if_pos rfl]
    dsimp only
    rw [writeVar_eq hb, Outcome.ok_bind, harr, Outcome.ok_bind]
    rfl

theorem Holds.fill {mem : Heap VarCell} (hcs : ∀ c ∈ cs, Clones ihash mem c)
    (hkeys : ∀ c ∈ cs, c.toVar.WellKeyed) (hkey : s.dict = true → ∀ c ∈ cs, c.id.str ≠ [])
    (hnd : ∀ c ∈ cs, c.addrs.Nodup) (hlen : (cs.flatMap addrs).length ≤ m.made)
    {prev first last : Option Nat} {o : Nat} (hseg : Seg mem prev first (cells o cs) last none)
    (hp : m.Holds (s.bear ds) pl)
    (hm : ∀ a ∈ cs.flatMap addrs, (a < m.made ∧ m.mem a = mem a) ∧ a ∉ (s.bear ds).addrs) :
    ∃ m' es, m.fill ihash s.dict s.addr first = .ok m' ∧ Grown ihash s pl m m' ds cs es := by
  unfold VarHeap.fill
  cases hd : s.dict with
  | false => exact hp.copyInto hcs hkeys hnd hd hseg hm (n := 2 * m.made) (by omega)
  | true =>
    have hinto := hp.cloneInto hcs hkeys hkey hseg hm (n := 2 * m.made) (by omega)
    rwa [hd] at hinto

/-! ### Exact copies -/

/-- A tree that is like another one, but for the key of its root, and shares no var with it, in a
memory where the other one is as it was. -/
structure Exact (ihash : BitVec 32) (m m' : VarHeap) (t r : PlacedVar) (pl : Place) (id : FString) :
    Prop where
  holds : m'.Holds r pl
  proper : r.toVar.Proper ihash
  same : r.toVar.bare = t.toVar.bare.setId id
  uncached : r.Uncached
  orig : ∀ a ∈ t.addrs, m'.mem a = m.mem a
  separate : ∀ a ∈ r.addrs, a ∉ t.addrs

variable (ihash) in
theorem Holds.varClone (ht : m.Holds t pl) (hk : t.toVar.WellKeyed) (hi : t.Intact) : ∃ r m',
    m.varClone ihash t.addr = .ok (r.addr, m') ∧ r.toVar = Opticon.varClone ihash t.toVar ∧
      Exact ihash m m' t r .alone FString.empty := by
  have hlen := length_addrs_le ht.nodup ht.made
  obtain ⟨r, m', hrun, hr⟩ := clones ihash ht.rests ⟨pl, ht.root⟩ hk hi m
    (fun a ha => ⟨ht.made a ha, rfl⟩) (2 * m.made) (by omega)
  refine ⟨r, m', hrun, hr.toVar, hr.holds, ?_, ?_, hr.uncached, ?_, ?_⟩
  · rw [hr.toVar]
    exact hk.clone ihash
  · rw [hr.toVar]
    exact hk.linkable.clone_bare
  · exact fun a ha => hr.frame a (ht.made a ha)
  · exact fun a ha hmem => Nat.not_le_of_lt (ht.made a hmem) (hr.fresh a ha)

/-- What `var_copy` makes of a destination that has nothing any more but its key. -/
structure Copied (ihash : BitVec 32) (m m' : VarHeap) (t r : PlacedVar) (pl : Place) (id : FString)
    (h : BitVec 32) : Prop where
  holds : m'.Holds r pl
  toVar : r.toVar = ((Opticon.varClone ihash t.toVar).setId id).setHashcode h
  uncached : r.Uncached
  orig : ∀ a ∈ t.addrs, m'.mem a = m.mem a
  separate : ∀ a ∈ r.addrs, a ∉ t.addrs

variable {id' : FString} {h' : BitVec 32} {unset' : VarUnion} {pd : Place}

theorem Holds.copyValue {id : FString} {h : BitVec 32} {value : VarValue} {unset : VarUnion}
    (herase : m.erase b = .ok m₁) (hd : m₁.Holds (.leaf b id' h' .null unset') pd)
    (ht : m₁.Holds (.leaf a id h value unset) pl) (hab : a ≠ b) : ∃ r m',
      m.varCopy ihash b a = .ok m' ∧ r.addr = b ∧
        Copied ihash m₁ m' (.leaf a id h value unset) r pd id' h' := by
  let r : PlacedVar := .leaf b id' h' value unset'
  have hr := hd.setRoot (c := r) rfl (by rw [under_leaf, under_leaf]) .leaf pd
  refine ⟨r, _, varCopy_value herase hd.root rfl ht.root rfl rfl, rfl, hr, ?_, .leaf, ?_, ?_⟩
  · rw [toVar_leaf, toVar_leaf]
    rfl
  · intro c hc
    rw [addrs, under_leaf] at hc
    rw [List.mem_singleton.mp hc]
    exact mem_set_of_ne hab _
  · intro c hc hmem
    rw [addrs, under_leaf] at hc hmem
    exact hab ((List.mem_singleton.mp hmem).symm.trans (List.mem_singleton.mp hc))

theorem Holds.copyNode {id : FString} {h : BitVec 32} {dict : Bool} {pos : ℤ}
    (herase : m.erase b = .ok m₁) (hd : m₁.Holds (.leaf b id' h' .null unset') pd)
    (ht : m₁.Holds (.node a id h dict pos cs) pl)
    (hk : (PlacedVar.node a id h dict pos cs).toVar.WellKeyed) (hi : ∀ c ∈ cs, c.Intact)
    (hb : b ∉ (PlacedVar.node a id h dict pos cs).addrs) : ∃ r m',
      m.varCopy ihash b a = .ok m' ∧ r.addr = b ∧
        Copied ihash m₁ m' (.node a id h dict pos cs) r pd id' h' := by
  have hnd := ht.nodup
  have hmade := ht.made
  have hlen := length_addrs_le ht.nodup ht.made
  rw [addrs_node] at hnd hmade hb
  rw [addrs_node, List.length_cons] at hlen
  rw [toVar_node] at hk
  obtain ⟨hkeys, hkey⟩ := wellKeyed_children hk
  let s : Stem := ⟨b, id', h', dict, -1⟩
  let m₂ := m₁.set b (some ⟨pd.prev, pd.next, (s.bear []).cell pd.parent⟩)
  have hs : (s.bear []).addrs = [b] := addrs_node _ _ _ _ _ _
  have hp : m₂.Holds (s.bear []) pd := by
    refine hd.setRoot (c := s.bear []) rfl ?_ rests_nil pd
    rw [under_leaf]
    exact under_node _ _ _ _ _ _
  have hsame (c : Nat) (hc : c ∈ a :: cs.flatMap addrs) :
      (c < m₂.made ∧ m₂.mem c = m₁.mem c) ∧ c ∉ (s.bear []).addrs := by
    have hcb : c ≠ b := ne_of_mem_of_not_mem hc hb
    rw [hs]
    exact ⟨⟨hmade c hc, mem_set_of_ne hcb _⟩, fun hmem => hcb (List.mem_singleton.mp hmem)⟩
  cases ht.rests with
  | node hseg hrests =>
  have hcs (c : PlacedVar) (hc : c ∈ cs) : Clones ihash m₁.mem c :=
    clones ihash (hrests c hc) (rooted_child hseg hc) (hkeys c hc) (hi c hc)
  obtain ⟨-, hnd⟩ := List.nodup_cons.mp hnd
  have hndc : ∀ c ∈ cs, c.addrs.Nodup := (List.nodup_flatMap.mp hnd).1
  obtain ⟨m', es, hrun, hg⟩ := Holds.fill (m := m₂) (s := s) hcs hkeys hkey hndc
    (Nat.le_of_succ_le hlen) hseg hp fun c hc => hsame c (List.mem_cons_of_mem _ hc)
  refine ⟨s.bear es, m', ?_, rfl, hg.holds, ?_, .node hg.uncached, ?_, ?_⟩
  · exact (varCopy_node herase hd.root ht.root rfl rfl).trans hrun
  · rw [Stem.bear, toVar_node, toVar_node, varClone_node ihash hk, hg.toVar, List.map_map]
    cases dict <;> rfl
  · intro c hc
    rw [addrs_node] at hc
    obtain ⟨⟨hlt, hold⟩, hout⟩ := hsame c hc
    exact (hg.frame c hlt hout).trans hold
  · intro c hc hmem
    rw [addrs_node] at hmem
    rw [Stem.bear, addrs_node] at hc
    obtain rfl | hc := List.mem_cons.mp hc
    · exact hb hmem
    · exact Nat.not_le_of_lt (hmade c hmem) (hg.fresh c hc)

variable (ihash) in
theorem Holds.varCopy {d : PlacedVar} (ht : m.Holds t pl) (hk : t.toVar.WellKeyed) (hi : t.Intact)
    (hd : m.Holds d pd) (hsep : ∀ a ∈ d.addrs, a ∉ t.addrs) : ∃ r m',
    m.varCopy ihash d.addr t.addr = .ok m' ∧ r.addr = d.addr ∧
      r.toVar = Opticon.varCopy ihash d.toVar t.toVar ∧ Exact ihash m m' t r pd d.id := by
  obtain ⟨m₁, u, herase, hd₁, hf⟩ := hd.erase
  have hframe (a : Nat) (ha : a ∈ t.addrs) : m₁.mem a = m.mem a :=
    hf.frame a fun hmem => hsep a hmem ha
  have ht₁ : m₁.Holds t pl := ht.congr hframe (Nat.le_of_eq hf.made.symm)
  have hcopied : ∃ r m', m.varCopy ihash d.addr t.addr = .ok m' ∧ r.addr = d.addr ∧
      Copied ihash m₁ m' t r pd d.id d.hashcode := by
    have hb := hsep _ d.addr_mem_addrs
    cases hi with
    | leaf =>
      refine Holds.copyValue herase hd₁ ht₁ ?_
      rintro rfl
      exact hb List.mem_cons_self
    | node hi => exact Holds.copyNode herase hd₁ ht₁ hk hi hb
  obtain ⟨r, m', hrun, hr, hc⟩ := hcopied
  refine ⟨r, m', hrun, hr, ?_, hc.holds, ?_, ?_, hc.uncached, ?_, hc.separate⟩
  · rw [hc.toVar, hk.linkable.varCopy_eq, id_toVar, hashcode_toVar]
  · rw [hc.toVar]
    exact ((hk.clone ihash).setId _).setHashcode _
  · rw [hc.toVar, Var.bare_setHashcode, Var.bare_setId, hk.linkable.clone_bare, Var.setId_setId]
  · exact fun a ha => (hc.orig a ha).trans (hframe a ha)

/-- What clones and copies of a tree are to be: a clone is like it, and so is what a copy makes of any
var that has nothing in common with it. -/
def CopiedExactly (ihash : BitVec 32) (m : VarHeap) (t : PlacedVar) : Prop :=
  (∃ r m', m.varClone ihash t.addr = .ok (r.addr, m') ∧
      Exact ihash m m' t r .alone FString.empty) ∧
    ∀ d pd, m.Holds d pd → (∀ a ∈ d.addrs, a ∉ t.addrs) → ∃ r m',
      m.varCopy ihash d.addr t.addr = .ok m' ∧ r.addr = d.addr ∧ Exact ihash m m' t r pd d.id

/-- `var_clone` and `var_copy` are exact. -/
theorem copies_exact (ht : m.Holds t pl) (hk : t.toVar.WellKeyed) (hi : t.Intact) :
    CopiedExactly ihash m t := by
  refine ⟨?_, fun d pd hd hsep => ?_⟩
  · obtain ⟨r, m', hrun, -, hr⟩ := ht.varClone ihash hk hi
    exact ⟨r, m', hrun, hr⟩
  · obtain ⟨r, m', hrun, haddr, -, hr⟩ := ht.varCopy ihash hk hi hd hsep
    exact ⟨r, m', hrun, haddr, hr⟩

/-- A dict with a number and a list of one string. -/
def hostTree : PlacedVar :=
  .node 0 FString.empty 0 true (-1)
    [.leaf 1 (FString.strncpy [110]) 0 (.int 5) .noChildren,
      .node 2 (FString.strncpy [108]) 0 false 0
        [.leaf 3 FString.empty 0 (.str [104, 105]) .noChildren]]

/-- A string that is copied over. -/
def hostValue : PlacedVar := .leaf 4 (FString.strncpy [101]) 0 (.str [111, 108, 100]) .noChildren

def hostHeap : VarHeap where
  mem
    | 0 => some ⟨none, none, hostTree.cell none⟩
    | 1 => some ⟨none, some 2, ⟨FString.strncpy [110], 0, some 0, .int, .ival 5⟩⟩
    | 2 => some ⟨some 1, none,
        ⟨FString.strncpy [108], 0, some 0, .array, .arr ⟨some 3, some 3, some 1, some 0⟩⟩⟩
    | 3 => some ⟨none, none, ⟨FString.empty, 0, some 2, .str, .sval (some [104, 105])⟩⟩
    | 4 => some ⟨none, none, hostValue.cell none⟩
    | _ => none
  made := 5

theorem copies_exact_host : CopiedExactly 5381 hostHeap hostTree ∧ ∃ r m',
    hostHeap.varCopy 5381 4 0 = .ok m' ∧ r.addr = 4 ∧
      Exact 5381 hostHeap m' hostTree r .alone hostValue.id := by
  have hlist : ∀ c ∈ [PlacedVar.leaf 3 FString.empty 0 (.str [104, 105]) .noChildren],
      Rests hostHeap.mem c := List.forall_mem_singleton.mpr .leaf
  have ht : hostHeap.Holds hostTree .alone := by
    refine ⟨rfl, .node ⟨rfl, _, rfl, rfl, _, rfl, rfl, rfl⟩ ?_, by decide, by decide⟩
    exact List.forall_mem_cons.mpr
      ⟨.leaf, List.forall_mem_singleton.mpr (.node ⟨rfl, _, rfl, rfl, rfl⟩ hlist)⟩
  have hk : hostTree.toVar.WellKeyed := by
    refine .dict (by decide)
      (List.forall_mem_cons.mpr ⟨by decide, List.forall_mem_singleton.mpr (by decide)⟩)
      (List.forall_mem_cons.mpr ⟨.leaf, List.forall_mem_singleton.mpr (.array ?_ ?_)⟩)
    · exact List.forall_mem_singleton.mpr rfl
    · exact List.forall_mem_singleton.mpr .leaf
  have hi : hostTree.Intact := .node (List.forall_mem_cons.mpr
    ⟨.leaf, List.forall_mem_singleton.mpr (.node (List.forall_mem_singleton.mpr .leaf))⟩)
  have hd : hostHeap.Holds hostValue .alone := ⟨rfl, .leaf, by decide, by decide⟩
  exact ⟨copies_exact ht hk hi, (copies_exact ht hk hi).2 hostValue .alone hd (by decide)⟩

end VarHeap

end Opticon
