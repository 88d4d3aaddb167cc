import Opticon.Var.Merge
import Opticon.Var.PlacedLaws

/-! Clones of trees in memory: `var_clone` makes new vars, and leaves all others as they were. -/

namespace Opticon

open Linked (Heap Node Seg)
open PlacedVar

/-- No var of a tree has lost its string. -/
inductive PlacedVar.Intact : PlacedVar → Prop
  | leaf {a : Nat} {id : FString} {h : BitVec 32} {value : VarValue} {unset : VarUnion} :
      Intact (.leaf a id h value unset)
  | node {a : Nat} {id : FString} {h : BitVec 32} {dict : Bool} {pos : ℤ} {cs : List PlacedVar} :
      (∀ c ∈ cs, Intact c) → Intact (.node a id h dict pos cs)

/-- Every var of a tree is as it should be when nothing was looked up in it yet. -/
inductive PlacedVar.Uncached : PlacedVar → Prop
  | leaf {a : Nat} {id : FString} {h : BitVec 32} {value : VarValue} {unset : VarUnion} :
      Uncached (.leaf a id h value unset)
  | node {a : Nat} {id : FString} {h : BitVec 32} {dict : Bool} {cs : List PlacedVar} :
      (∀ c ∈ cs, Uncached c) → Uncached (.node a id h dict (-1) cs)

theorem PlacedVar.Uncached.withKey {t : PlacedVar} (ht : t.Uncached) (id : FString)
    (h : BitVec 32) : (t.withKey id h).Uncached := by
  cases ht with
  | leaf => exact .leaf
  | node hc => exact .node hc

theorem PlacedVar.Uncached.linked {t : PlacedVar} (ht : t.Uncached) (ihash : BitVec 32)
    (dict : Bool) (key : FString) : (t.linked ihash dict key).Uncached := by
  cases dict with
  | false => exact ht
  | true => exact ht.withKey _ _

namespace VarHeap

variable {ihash : BitVec 32} {m m' : VarHeap} {a b : Nat} {t c r : PlacedVar} {cs ds : List PlacedVar}
  {pl : Place}

/-- A var that `var_clone` gives: it is new, and nothing that was there is changed. -/
structure Cloned (ihash : BitVec 32) (m m' : VarHeap) (t r : PlacedVar) : Prop where
  holds : m'.Holds r .alone
  toVar : r.toVar = Opticon.varClone ihash t.toVar
  uncached : r.Uncached
  fresh : ∀ a ∈ r.addrs, m.made ≤ a
  made : m.made ≤ m'.made
  frame : ∀ a < m.made, m'.mem a = m.mem a

/-- What `var_clone` makes of a tree that lies in memory as it does in this heap. -/
def Clones (ihash : BitVec 32) (mem : Heap VarCell) (t : PlacedVar) : Prop :=
  ∀ m : VarHeap, (∀ a ∈ t.addrs, a < m.made ∧ m.mem a = mem a) → ∀ n,
    2 * t.addrs.length ≤ n + 1 → ∃ r m', cloneWithin ihash n m t.addr = .ok (r.addr, m') ∧
      Cloned ihash m m' t r

/-- A dict or an array that clones are linked below. -/
structure Stem where
  addr : Nat
  id : FString
  hashcode : BitVec 32
  dict : Bool
  cachepos : ℤ

def Stem.bear (s : Stem) (cs : List PlacedVar) : PlacedVar :=
  .node s.addr s.id s.hashcode s.dict s.cachepos cs

/-- The clone of a child, as it is linked in a dict or in an array. -/
def childClone (ihash : BitVec 32) (dict : Bool) (v : Var) : Var :=
  if dict then varKeyedClone ihash v else Opticon.varClone ihash v

/-- Clones of these vars are linked behind the children of a var. -/
structure Grown (ihash : BitVec 32) (s : Stem) (pl : Place) (m m' : VarHeap)
    (ds cs es : List PlacedVar) : Prop where
  holds : m'.Holds (s.bear (ds ++ es)) pl
  toVar : es.map PlacedVar.toVar = cs.map fun c => childClone ihash s.dict c.toVar
  uncached : ∀ e ∈ es, e.Uncached
  fresh : ∀ a ∈ es.flatMap addrs, m.made ≤ a
  made : m.made ≤ m'.made
  frame : ∀ a < m.made, a ∉ (s.bear ds).addrs → m'.mem a = m.mem a

variable {s : Stem} {m₁ m₂ : VarHeap} {cs₁ cs₂ es es₁ es₂ : List PlacedVar}

theorem Grown.refl (hp : m.Holds (s.bear ds) pl) : Grown ihash s pl m m ds [] [] := by
  refine ⟨by rwa [List.append_nil], rfl, ?_, ?_, Nat.le_refl _, fun _ _ _ => rfl⟩
  · intro e he
    cases he
  · intro a ha
    cases ha

theorem Grown.trans (h₁ : Grown ihash s pl m m₁ ds cs₁ es₁)
    (h₂ : Grown ihash s pl m₁ m₂ (ds ++ es₁) cs₂ es₂) :
    Grown ihash s pl m m₂ ds (cs₁ ++ cs₂) (es₁ ++ es₂) := by
  refine ⟨?_, ?_, ?_, ?_, Nat.le_trans h₁.made h₂.made, ?_⟩
  · rw [← List.append_assoc]
    exact h₂.holds
  · rw [List.map_append, List.map_append, h₁.toVar, h₂.toVar]
  · intro e he
    exact (List.mem_append.mp he).elim (h₁.uncached e) (h₂.uncached e)
  · intro a ha
    rw [List.flatMap_append] at ha
    obtain ha | ha := List.mem_append.mp ha
    · exact h₁.fresh a ha
    · exact Nat.le_trans h₁.made (h₂.fresh a ha)
  · intro a ha hout
    rw [h₂.frame a (Nat.lt_of_lt_of_le ha h₁.made), h₁.frame a ha hout]
    rw [Stem.bear, addrs_node] at hout ⊢
    rw [List.flatMap_append, ← List.cons_append, List.mem_append, not_or]
    exact ⟨hout, fun hmem => Nat.not_le_of_lt ha (h₁.fresh a hmem)⟩

/-- One round: a child is cloned, and the clone is linked. -/
theorem Clones.link {mem : Heap VarCell} (hc : Clones ihash mem c) (hp : m.Holds (s.bear ds) pl)
    (hkeys : c.toVar.WellKeyed) (hkey : s.dict = true → c.id.str ≠ [])
    (hm : ∀ a ∈ c.addrs, a < m.made ∧ m.mem a = mem a) {n : Nat} (hn : 2 * c.addrs.length ≤ n + 1) :
    ∃ r m₁ m₂, cloneWithin ihash n m c.addr = .ok (r.addr, m₁) ∧ Cloned ihash m m₁ c r ∧
      m₁.linkClone ihash s.dict r.addr s.addr c.id = .ok m₂ ∧
      Grown ihash s pl m m₂ ds [c] [r.linked ihash s.dict c.id] := by
  obtain ⟨r, m₁, hrun, hr⟩ := hc m hm n hn
  obtain ⟨hid, hhash⟩ := hkeys.linkable.clone_unlinked ihash
  rw [← hr.toVar, id_toVar] at hid
  rw [← hr.toVar, hashcode_toVar] at hhash
  have hp₁ : m₁.Holds (s.bear ds) pl := hp.congr (fun a ha => hr.frame a (hp.made a ha)) hr.made
  have hsep (a : Nat) (ha : a ∈ r.addrs) : a ∉ (s.bear ds).addrs := fun hmem =>
    Nat.not_le_of_lt (hp.made a hmem) (hr.fresh a ha)
  obtain ⟨m₂, hlink, hholds, hmade, hframe⟩ := hp₁.linkClone ihash hr.holds hsep hid hhash hkey
  refine ⟨r, m₁, m₂, hrun, hr, hlink, hholds, ?_, ?_, ?_, hmade ▸ hr.made, ?_⟩
  · rw [List.map_singleton, List.map_singleton, toVar_linked, hr.toVar, childClone, varKeyedClone,
      id_toVar]
  · intro e he
    rw [List.mem_singleton.mp he]
    exact hr.uncached.linked ihash s.dict c.id
  · intro a ha
    rw [List.flatMap_singleton, addrs_linked] at ha
    exact hr.fresh a ha
  · intro a ha hout
    rw [hframe a hout fun hmem => Nat.not_le_of_lt ha (hr.fresh a hmem), hr.frame a ha]

/-- A loop over linked vars that clones and links one of them in each round. -/
theorem Grown.loop (run : Nat → VarHeap → Option Nat → Except Fault VarHeap) {mem : Heap VarCell}
    (hend : ∀ n m, run n m none = .ok m)
    (hround : ∀ c ∈ cs, ∀ n m ds, m.Holds (s.bear ds) pl →
      (∀ a ∈ c.addrs, a < m.made ∧ m.mem a = mem a) → 2 * c.addrs.length ≤ n + 1 → ∃ m₂ e, Grown ihash s pl m m₂ ds [c] [e] ∧
        (c.addr ∉ (s.bear ds).addrs → ∀ node, mem c.addr = some node → node.val.id = c.id →
          run (n + 1) m (some c.addr) = run n m₂ node.next))
    {prev first last : Option Nat} {o : Nat} (hseg : Seg mem prev first (cells o cs) last none)
    (hp : m.Holds (s.bear ds) pl)
    (hm : ∀ a ∈ cs.flatMap addrs, (a < m.made ∧ m.mem a = mem a) ∧ a ∉ (s.bear ds).addrs)
    {n : Nat} (hn : 2 * (cs.flatMap addrs).length ≤ n) :
    ∃ m' es, run n m first = .ok m' ∧ Grown ihash s pl m m' ds cs es := by
  induction cs generalizing m ds n prev first with
  | nil =>
    obtain ⟨-, rfl⟩ := hseg
    exact ⟨m, [], hend n m, .refl hp⟩
  | cons c cs ih =>
    obtain ⟨rfl, next, hc, hseg⟩ := hseg
    rw [List.flatMap_cons] at hm hn
    rw [List.length_append] at hn
    have hmc (a : Nat) (ha : a ∈ c.addrs) := hm a (List.mem_append_left _ ha)
    have hmcs (a : Nat) (ha : a ∈ cs.flatMap addrs) := hm a (List.mem_append_right _ ha)
    have hpos : 0 < c.addrs.length := Nat.succ_pos _
    cases n with
    | zero => omega
    | succ n =>
      obtain ⟨m₂, e, hg, hrun⟩ :=
        hround c List.mem_cons_self n m ds hp (fun a ha => (hmc a ha).1) (by omega)
      have hrest (a : Nat) (ha : a ∈ cs.flatMap addrs) :
          (a < m₂.made ∧ m₂.mem a = mem a) ∧ a ∉ (s.bear (ds ++ [e])).addrs := by
        obtain ⟨⟨hlt, hsame⟩, hout⟩ := hmcs a ha
        refine ⟨⟨Nat.lt_of_lt_of_le hlt hg.made, (hg.frame a hlt hout).trans hsame⟩, ?_⟩
        rw [Stem.bear, addrs_node] at hout ⊢
        rw [List.flatMap_append, ← List.cons_append, List.mem_append, not_or]
        exact ⟨hout, fun hmem => Nat.not_le_of_lt hlt (hg.fresh a hmem)⟩
      obtain ⟨m', es, hloop, hgs⟩ := ih (fun d hd => hround d (List.mem_cons_of_mem _ hd)) hseg hg.holds
        hrest (n := n) (by omega)
      refine ⟨m', e :: es, ?_, hg.trans hgs⟩
      rw [hrun (hmc _ c.addr_mem_addrs).2 _ hc (id_cell _ _)]
      exact hloop

/-- The loop of `var_clone`. -/
theorem Holds.cloneInto {mem : Heap VarCell} (hcs : ∀ c ∈ cs, Clones ihash mem c)
    (hkeys : ∀ c ∈ cs, c.toVar.WellKeyed) (hkey : s.dict = true → ∀ c ∈ cs, c.id.str ≠ [])
    {prev first last : Option Nat} {o : Nat} (hseg : Seg mem prev first (cells o cs) last none)
    (hp : m.Holds (s.bear ds) pl)
    (hm : ∀ a ∈ cs.flatMap addrs, (a < m.made ∧ m.mem a = mem a) ∧ a ∉ (s.bear ds).addrs)
    {n : Nat} (hn : 2 * (cs.flatMap addrs).length ≤ n) :
    ∃ m' es, VarHeap.cloneInto ihash n m s.dict s.addr first = .ok m' ∧
      Grown ihash s pl m m' ds cs es := by
  refine Grown.loop (fun n m => VarHeap.cloneInto ihash n m s.dict s.addr) ?_ ?_ hseg hp hm hn
  · intro n m
    cases n <;> rfl
  · intro c hmem n m ds hp hm hn
    obtain ⟨r, m₁, m₂, hclone, hr, hlink, hg⟩ :=
      (hcs c hmem).link hp (hkeys c hmem) (fun hd => hkey hd c hmem) hm hn
    refine ⟨m₂, _, hg, ?_⟩
    intro hout node hnode hid
    obtain ⟨hlt, hsame⟩ := hm _ c.addr_mem_addrs
    have hread₁ : m₁.mem c.addr = some node := by rw [hr.frame _ hlt, hsame, hnode]
    have hread₂ : m₂.mem c.addr = some node := by rw [hg.frame _ hlt hout, hsame, hnode]
    show VarHeap.cloneInto ihash (n + 1) m s.dict s.addr (some c.addr) = _
    rw [VarHeap.cloneInto, hclone, Outcome.ok_bind]
    dsimp only
    rw [read_eq hread₁, Outcome.ok_bind, hid, hlink, Outcome.ok_bind, read_eq hread₂, Outcome.ok_bind]

/-- A value is set into a var that is unset. -/
theorem setFrom_value {self orig : VarCell} (hs : self.type = .null) (value : VarValue)
    (unset : VarUnion) (ht : orig.type = value.type) (hv : orig.value = value.union unset) :
    self.setFrom orig = .ok { self with type := value.type, value := value.union self.value } := by
  obtain ⟨id, h, parent, type, val⟩ := self
  obtain ⟨id', h', parent', type', val'⟩ := orig
  obtain rfl : type = .null := hs
  obtain rfl : type' = value.type := ht
  obtain rfl : val' = value.union unset := hv
  cases value <;> rfl

/-- Where the root of a tree is linked in a heap. -/
def Rooted (mem : Heap VarCell) (t : PlacedVar) : Prop :=
  ∃ pl : Place, mem t.addr = some ⟨pl.prev, pl.next, t.cell pl.parent⟩

theorem rooted_child {mem : Heap VarCell} {prev first last : Option Nat} {o : Nat}
    (hseg : Seg mem prev first (cells o cs) last none) (hc : c ∈ cs) : Rooted mem c := by
  obtain ⟨node, hnode, hval⟩ := hseg.lookup (List.mem_map.mpr ⟨c, hc, rfl⟩)
  refine ⟨⟨some o, node.prev, node.next⟩, ?_⟩
  rw [hnode, ← hval]

theorem wellKeyed_children {dict : Bool} {id : FString} {h : BitVec 32}
    (hk : (Var.node dict id h (cs.map PlacedVar.toVar)).WellKeyed) :
    (∀ c ∈ cs, c.toVar.WellKeyed) ∧ (dict = true → ∀ c ∈ cs, c.id.str ≠ []) := by
  cases dict with
  | false =>
    cases hk with
    | array _ hc => exact ⟨fun c hmem => hc _ (List.mem_map_of_mem hmem), Bool.noConfusion⟩
  | true =>
    cases hk with
    | dict _ hid hc =>
      refine ⟨fun c hmem => hc _ (List.mem_map_of_mem hmem), fun _ c hmem => ?_⟩
      rw [← id_toVar]
      exact hid _ (List.mem_map_of_mem hmem)

variable (ihash) in
theorem varClone_node {dict : Bool} {id : FString} {h : BitVec 32} {vs : List Var}
    (hk : (Var.node dict id h vs).WellKeyed) : Opticon.varClone ihash (Var.node dict id h vs) =
      Var.node dict FString.empty 0 (vs.map (childClone ihash dict)) := by
  cases dict with
  | false => exact hk.linkable.varClone_array ihash
  | true => exact hk.linkable.varClone_dict ihash

theorem varAlloc_of_lt (ha : a < m.made) : m.varAlloc.2.mem a = m.mem a :=
  Function.update_of_ne (Nat.ne_of_lt ha) _ _

theorem varAlloc_self (m : VarHeap) : m.varAlloc.2.mem m.made = some ⟨none, none, .fresh⟩ :=
  Function.update_self _ _ _

theorem alloc_frame (hb : b < m.made) (x : Option (Node VarCell)) :
    (m.varAlloc.2.set m.made x).mem b = m.mem b := by
  rw [mem_set_of_ne (Nat.ne_of_lt hb), varAlloc_of_lt hb]

/-- A new var that has no children yet. -/
theorem alloc_holds (hr : r.addr = m.made) (hunder : r.under = [])
    (hrests : Rests (m.varAlloc.2.set m.made (some ⟨none, none, r.cell none⟩)).mem r) :
    (m.varAlloc.2.set m.made (some ⟨none, none, r.cell none⟩)).Holds r .alone := by
  have haddrs : r.addrs = [m.made] := by rw [addrs, hr, hunder]
  refine ⟨?_, hrests, ?_, ?_⟩
  · rw [hr]
    exact mem_set_self _ _ _
  · rw [haddrs]
    exact List.nodup_singleton _
  · intro b hb
    rw [haddrs] at hb
    rw [List.mem_singleton.mp hb]
    exact Nat.lt_succ_self _

/-- What `var_clone` does with a var that has no children. -/
theorem cloneWithin_value {n : Nat} {node : Node VarCell} {value : VarValue} {unset : VarUnion}
    (halloc : m.varAlloc = (b, m₁)) (hb : m₁.mem b = some ⟨none, none, .fresh⟩)
    (hm : m₁.mem a = some node) (ht : node.val.type = value.type)
    (hv : node.val.value = value.union unset) : cloneWithin ihash (n + 1) m a =
      .ok (b, m₁.set b (some ⟨none, none,
        { VarCell.fresh with type := value.type, value := value.union .noChildren }⟩)) := by
  have hset : VarCell.fresh.setFrom node.val = _ := setFrom_value rfl value unset ht hv
  rw [cloneWithin, halloc]
  dsimp only
  rw [read_eq hm, Outcome.ok_bind, ht]
  cases value <;> (dsimp only [VarValue.type]; rw [read_eq hb, Outcome.ok_bind, hset]; rfl)

/-- What `var_clone` does with a dict or an array. -/
theorem cloneWithin_node {n : Nat} {node : Node VarCell} {dict : Bool} {pos : ℤ}
    (halloc : m.varAlloc = (b, m₁)) (hb : m₁.mem b = some ⟨none, none, .fresh⟩)
    (hm : m₁.mem a = some node) (ht : node.val.type = if dict then .dict else .array)
    (hv : node.val.value = .arr (links pos cs)) : cloneWithin ihash (n + 1) m a = do
      let m ← VarHeap.cloneInto ihash n (m₁.set b (some ⟨none, none,
        (Stem.bear ⟨b, FString.empty, 0, dict, -1⟩ []).cell none⟩)) dict b (cs.map addr).head?
      return (b, m) := by
  have hfirst : node.val.varFirst = .ok (cs.map addr).head? := by
    rw [VarCell.varFirst, ht, hv]
    cases dict <;> rfl
  rw [cloneWithin, halloc]
  dsimp only
  rw [read_eq hm, Outcome.ok_bind, ht]
  cases dict with
  | false =>
    rw [if_neg Bool.false_ne_true]
    dsimp only
    rw [writeVar_eq hb, Outcome.ok_bind, hfirst]
    rfl
  | true =>
    rw [if_pos rfl]
    dsimp only
    rw [writeVar_eq hb, Outcome.ok_bind, hfirst]
    rfl

variable (ihash) in
/-- A tree is cloned as it is, wherever it lies. -/
theorem clones {mem : Heap VarCell} (ht : Rests mem t) (hroot : Rooted mem t)
    (hk : t.toVar.WellKeyed) (hi : t.Intact) : Clones ihash mem t := by
  induction ht with
  | lost => cases hi
  | @leaf a id h value unset =>
    intro m hm n hn
    obtain ⟨hlt, hsame⟩ := hm a List.mem_cons_self
    obtain ⟨pl, hroot⟩ := hroot
    have hself : m.varAlloc.2.mem m.made = some ⟨none, none, .fresh⟩ := varAlloc_self m
    have hread : m.varAlloc.2.mem a =
        some ⟨pl.prev, pl.next, (PlacedVar.leaf a id h value unset).cell pl.parent⟩ :=
      (varAlloc_of_lt hlt).trans (hsame.trans hroot)
    cases n with
    | zero => simp [addrs] at hn
    | succ n =>
      let r : PlacedVar := .leaf m.made FString.empty 0 value .noChildren
      have hr := alloc_holds (r := r) rfl (under_leaf _ _ _ _ _) .leaf
      refine ⟨r, _, cloneWithin_value rfl hself hread rfl rfl, hr, ?_, .leaf, ?_, Nat.le_succ _, ?_⟩
      · rw [toVar_leaf, toVar_leaf, Opticon.varClone, Opticon.varAlloc]
      · intro b hb
        rw [addrs, under_leaf] at hb
        exact Nat.le_of_eq (List.mem_singleton.mp hb).symm
      · exact fun b hb => alloc_frame hb _
  | @node a id h dict pos cs hseg _ ih =>
    intro m hm n hn
    rw [addrs_node] at hm hn
    rw [toVar_node] at hk
    obtain ⟨hlt, hsame⟩ := hm a List.mem_cons_self
    obtain ⟨pl, hroot⟩ := hroot
    obtain ⟨hkeys, hkey⟩ := wellKeyed_children hk
    cases hi with
    | node hintact =>
    have hself : m.varAlloc.2.mem m.made = some ⟨none, none, .fresh⟩ := varAlloc_self m
    have hread : m.varAlloc.2.mem a =
        some ⟨pl.prev, pl.next, (PlacedVar.node a id h dict pos cs).cell pl.parent⟩ :=
      (varAlloc_of_lt hlt).trans (hsame.trans hroot)
    let s : Stem := ⟨m.made, FString.empty, 0, dict, -1⟩
    let m₁ := m.varAlloc.2.set m.made (some ⟨none, none, (s.bear []).cell none⟩)
    have hs : (s.bear []).addrs = [m.made] := addrs_node _ _ _ _ _ _
    have hp : m₁.Holds (s.bear []) .alone := by
      refine alloc_holds rfl (under_node _ _ _ _ _ _) (.node ⟨rfl, rfl⟩ ?_)
      intro c hc
      cases hc
    rw [List.length_cons] at hn
    cases n with
    | zero => omega
    | succ n =>
      have hm₁ : ∀ b ∈ cs.flatMap addrs, (b < m₁.made ∧ m₁.mem b = mem b) ∧ b ∉ (s.bear []).addrs := by
        intro b hb
        obtain ⟨hltb, hsameb⟩ := hm b (List.mem_cons_of_mem _ hb)
        refine ⟨⟨Nat.lt_succ_of_lt hltb, (alloc_frame hltb _).trans hsameb⟩, ?_⟩
        rw [hs]
        exact fun hmem => Nat.ne_of_lt hltb (List.mem_singleton.mp hmem)
      obtain ⟨m', es, hrun, hg⟩ := hp.cloneInto
        (fun c hc => ih c hc (rooted_child hseg hc) (hkeys c hc) (hintact c hc)) hkeys hkey hseg hm₁
        (n := n) (by omega)
      refine ⟨s.bear es, m', ?_, hg.holds, ?_, .node hg.uncached, ?_, ?_, ?_⟩
      · rw [addr, cloneWithin_node rfl hself hread rfl rfl]
        exact congrArg (· >>= _) hrun
      · rw [Stem.bear, toVar_node, toVar_node, varClone_node ihash hk, hg.toVar, List.map_map]
        rfl
      · intro b hb
        rw [Stem.bear, addrs_node] at hb
        obtain rfl | hb := List.mem_cons.mp hb
        · exact Nat.le_refl _
        · exact Nat.le_of_succ_le (hg.fresh b hb)
      · exact Nat.le_of_succ_le hg.made
      · intro b hb
        rw [hg.frame b (Nat.lt_succ_of_lt hb), alloc_frame hb]
        rw [hs]
        exact fun hmem => Nat.ne_of_lt hb (List.mem_singleton.mp hmem)

end VarHeap

end Opticon
