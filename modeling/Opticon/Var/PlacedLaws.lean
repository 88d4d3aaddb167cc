import Opticon.Var.Placed

/-! What linking a var and freeing one do to the tree it is in, as it lies in memory. -/

namespace Opticon

open Linked (Node Seg withNext withPrev)
open PlacedVar

namespace VarHeap

variable {m m' : VarHeap} {a b : Nat} {t c : PlacedVar} {cs ds : List PlacedVar} {pl pl' : Place}

/-! ### Links -/

/-- What a var knows of its children, with one more behind them. -/
def oneMore (links : VarArr) (self : Nat) : VarArr where
  first := if links.last = none then some self else links.first
  last := some self
  count := links.count.map (· + 1)
  cachepos := links.cachepos

theorem linkLast_eq {self parent : Nat} {node x : Node VarCell} {links : VarArr}
    (hs : m.mem self = some node) (hp : m.mem parent = some x) (hl : x.val.value = .arr links)
    (hne : parent ≠ self) (hlast : ∀ l, links.last = some l → parent ≠ l ∧ l ≠ self ∧
      ∃ y, m.mem l = some y) : m.linkLast self parent = .ok { m with
        mem := Function.update
          (withNext (Function.update m.mem self (some { node with prev := links.last })) links.last
            (some self))
          parent (some { x with val := { x.val with value := .arr (oneMore links self) } }) } := by
  rw [linkLast, read_eq hp, Outcome.ok_bind, hl, VarUnion.getArr, Outcome.ok_bind]
  cases hla : links.last with
  | none =>
    have hp' : (m.set self (some { node with prev := none })).mem parent = some x := by
      rw [mem_set_of_ne hne, hp]
    dsimp only
    rw [write_eq hs, Outcome.ok_bind, writeArr_eq hp' hl, oneMore, if_pos hla, withNext]
    rfl
  | some l =>
    obtain ⟨hpl, hls, y, hy⟩ := hlast l hla
    have hy' : (m.set self (some { node with prev := some l })).mem l = some y := by
      rw [mem_set_of_ne hls, hy]
    have hp' : ((m.set self (some { node with prev := some l })).set l
        (some { y with next := some self })).mem parent = some x := by
      rw [mem_set_of_ne hpl, mem_set_of_ne hne, hp]
    have hw : Function.update m.mem self (some { node with prev := some l }) l = some y := hy'
    dsimp only
    rw [write_eq hs, Outcome.ok_bind, write_eq hy', Outcome.ok_bind, writeArr_eq hp' hl, withNext, hw,
      oneMore, if_neg (by rw [hla]; exact Option.some_ne_none l)]
    rfl

theorem links_snoc (pos : ℤ) (ds : List PlacedVar) (c : PlacedVar) :
    links pos (ds ++ [c]) = oneMore (links pos ds) c.addr := by
  have hlen : (ds ++ [c]).length = ds.length + 1 := List.length_append
  have hlast : ((ds ++ [c]).map addr).getLast? = some c.addr := by
    rw [List.map_append, List.map_singleton, List.getLast?_append, List.getLast?_singleton,
      Option.some_or]
  cases ds with
  | nil => rfl
  | cons d ds =>
    simp only [links, oneMore, hlast, hlen, Option.map_some, BitVec.ofNat_add]
    simp

/-- A var that knows its parent is linked behind its last child. -/
theorem Holds.linkLast {id : FString} {h : BitVec 32} {dict : Bool} {pos : ℤ}
    (hp : m.Holds (.node b id h dict pos ds) pl) {prev : Option Nat}
    (hc : m.Holds c ⟨some b, prev, none⟩)
    (hdis : ∀ a ∈ c.addrs, a ∉ (PlacedVar.node b id h dict pos ds).addrs) :
    ∃ m', m.linkLast c.addr b = .ok m' ∧ m'.Holds (.node b id h dict pos (ds ++ [c])) pl ∧
      m'.made = m.made ∧ ∀ a ∉ (PlacedVar.node b id h dict pos ds).addrs, a ∉ c.addrs →
        m'.mem a = m.mem a := by
  have hnd := hp.nodup
  have hmade := hp.made
  rw [addrs_node] at hdis hnd hmade
  obtain ⟨hb, hnd⟩ := List.nodup_cons.mp hnd
  have hcd (a : Nat) (ha : a ∈ c.addrs) : a ∉ ds.flatMap addrs := fun hmem =>
    hdis a ha (List.mem_cons_of_mem _ hmem)
  have hcroot : c.addr ∉ ds.map addr := fun hmem => hcd _ c.addr_mem_addrs (map_addr_subset hmem)
  have hbroot : b ∉ ds.map addr := fun hmem => hb (map_addr_subset hmem)
  have hbc : b ≠ c.addr := fun heq => hdis _ c.addr_mem_addrs (heq ▸ List.mem_cons_self)
  cases hp.rests with
  | node hseg hrests =>
  have hlast (l : Nat) (hl : (links pos ds).last = some l) : l ∈ ds.map addr :=
    List.mem_of_getLast? hl
  have hrun := linkLast_eq hc.root hp.root rfl hbc fun l hl => by
    have hmem := hlast l hl
    exact ⟨ne_of_mem_of_not_mem hmem hbroot |>.symm, ne_of_mem_of_not_mem hmem hcroot,
      hseg.allocated (by rwa [addrs_cells])⟩
  rw [← links_snoc] at hrun
  have hframe (a : Nat) (hab : a ≠ b) (hac : a ≠ c.addr) (had : a ∉ ds.map addr)
      (x y : Option (Node VarCell)) :
      Function.update (withNext (Function.update m.mem c.addr y) (links pos ds).last (some c.addr))
        b x a = m.mem a := by
    rw [Function.update_of_ne hab, Linked.withNext_of_ne fun heq => had (hlast a heq),
      Function.update_of_ne hac]
  have hcells : c.addr ∉ Linked.addrs (cells b ds) := by rwa [addrs_cells]
  have hsnoc := hseg.snoc (by rw [addrs_cells]; exact map_addr_nodup hnd) hcells (c.cell (some b))
  refine ⟨_, hrun, ⟨?_, .node ?_ ?_, ?_, ?_⟩, rfl, ?_⟩
  · exact Function.update_self _ _ _
  · have hfirst : (links pos (ds ++ [c])).first =
        if cells b ds = [] then some c.addr else (links pos ds).first := by
      cases ds <;> rfl
    have hmap : cells b (ds ++ [c]) = cells b ds ++ [(c.addr, c.cell (some b))] := List.map_append
    have hbs : b ∉ Linked.addrs (cells b ds ++ [(c.addr, c.cell (some b))]) := by
      rw [Linked.addrs_append, addrs_cells, List.mem_append, not_or]
      exact ⟨hbroot, fun hmem => hbc (List.mem_singleton.mp hmem)⟩
    rw [hfirst, hmap, links_snoc]
    exact hsnoc.update hbs _
  · intro d hd
    obtain hd | hd := List.mem_append.mp hd
    · refine (hrests d hd).congr fun a ha => hframe a ?_ ?_ ?_ _ _
      · rintro rfl
        exact hb (mem_roots hd (List.mem_cons_of_mem _ ha))
      · rintro rfl
        exact hcd _ c.addr_mem_addrs (mem_roots hd (List.mem_cons_of_mem _ ha))
      · intro hmem
        obtain ⟨r, hr, rfl⟩ := List.mem_map.mp hmem
        exact addr_not_mem_under hnd hr hd ha
    · obtain rfl := List.mem_singleton.mp hd
      refine hc.rests.congr fun a ha => ?_
      have hac : a ∈ d.addrs := List.mem_cons_of_mem _ ha
      refine hframe a ?_ ?_ ?_ _ _
      · rintro rfl
        exact hdis _ hac List.mem_cons_self
      · rintro rfl
        exact (List.nodup_cons.mp hc.nodup).1 ha
      · exact fun hmem => hcd a hac (map_addr_subset hmem)
  · rw [addrs_node, List.flatMap_append, List.flatMap_singleton]
    refine List.nodup_cons.mpr ⟨?_, ?_⟩
    · rw [List.mem_append, not_or]
      exact ⟨hb, fun hmem => hdis b hmem List.mem_cons_self⟩
    · refine List.nodup_append.mpr ⟨hnd, hc.nodup, ?_⟩
      rintro a ha _ hac rfl
      exact hcd a hac ha
  · intro a ha
    rw [addrs_node, List.flatMap_append, List.flatMap_singleton, ← List.cons_append] at ha
    obtain ha | ha := List.mem_append.mp ha
    · exact hmade a ha
    · exact hc.made a ha
  · intro a ha hac
    rw [addrs_node, List.mem_cons, not_or] at ha
    refine hframe a ha.1 ?_ ?_ _ _
    · rintro rfl
      exact hac c.addr_mem_addrs
    · exact fun hmem => ha.2 (map_addr_subset hmem)

theorem becomes_set {node : Node VarCell} (hm : m.read a = .ok node) (hset : node.val.type ≠ .null)
    (type : VarType) : m.becomes a type = .ok m := by
  rw [becomes, hm, Outcome.ok_bind, if_neg hset]
  rfl

variable (ihash : BitVec 32) in
/-- A var without a key goes into an array, one with a key into a dict. -/
theorem Holds.varLink {id : FString} {h : BitVec 32} {dict : Bool} {pos : ℤ}
    (hp : m.Holds (.node b id h dict pos ds) pl) (hc : m.Holds c pl')
    (hdis : ∀ a ∈ c.addrs, a ∉ (PlacedVar.node b id h dict pos ds).addrs)
    (hkey : c.id.str = [] ↔ dict = false) : ∃ m', m.varLink ihash c.addr b = .ok m' ∧
      m'.Holds (.node b id h dict pos (ds ++ [c.hashed ihash])) pl ∧ m'.made = m.made ∧
      ∀ a ∉ (PlacedVar.node b id h dict pos ds).addrs, a ∉ c.addrs → m'.mem a = m.mem a := by
  have haddrs : (c.hashed ihash).addrs = c.addrs := by rw [hashed_eq, addrs_withKey]
  have haddr : (c.hashed ihash).addr = c.addr := by rw [hashed_eq, addr_withKey]
  have hid : ((c.hashed ihash).cell (some b)).id = c.id := by rw [hashed_eq, cell_withKey _ _ _ _ none]
  let m₁ := m.set c.addr (some ⟨pl'.prev, none, (c.hashed ihash).cell (some b)⟩)
  have hc₁ : m₁.Holds (c.hashed ihash) ⟨some b, pl'.prev, none⟩ := by
    have hw := hc.withKey c.id
      (if c.hashcode = 0 ∧ c.id.str ≠ [] then hashToken ihash c.id.str else c.hashcode)
      ⟨some b, pl'.prev, none⟩
    rwa [← hashed_eq] at hw
  have hp₁ : m₁.Holds (.node b id h dict pos ds) pl := by
    refine hp.congr (fun a ha => mem_set_of_ne ?_ _) (Nat.le_refl _)
    rintro rfl
    exact hdis _ c.addr_mem_addrs ha
  have hwrite : m.write c.addr (fun x =>
      { x with next := none, val := { x.val.hashed ihash with parent := some b } }) = .ok m₁ := by
    rw [write_eq hc.root, ← cell_hashed]
  have hread : m₁.read c.addr = .ok ⟨pl'.prev, none, (c.hashed ihash).cell (some b)⟩ :=
    read_eq (mem_set_self _ _ _)
  obtain ⟨m', hlink, hholds, hmade, hframe⟩ := hp₁.linkLast hc₁ (by rwa [haddrs])
  rw [haddr] at hlink
  rw [haddrs] at hframe
  refine ⟨m', ?_, hholds, hmade, ?_⟩
  · have htype : (if c.id.str = [] then VarType.array else .dict) = if dict then .dict else .array := by
      cases dict <;> simp [hkey]
    have hroot : m₁.read b =
      .ok ⟨pl.prev, pl.next, (PlacedVar.node b id h dict pos ds).cell pl.parent⟩ := read_eq hp₁.root
    have hset : ((PlacedVar.node b id h dict pos ds).cell pl.parent).type ≠ .null := by
      cases dict <;> exact VarType.noConfusion
    rw [VarHeap.varLink, hwrite, Outcome.ok_bind, hread, Outcome.ok_bind]
    dsimp only
    rw [hid, htype, becomes_set hroot hset, Outcome.ok_bind, hroot, Outcome.ok_bind]
    exact (if_neg fun hne => hne rfl).trans hlink
  · intro a ha hac
    rw [hframe a ha hac]
    refine mem_set_of_ne ?_ _
    rintro rfl
    exact hac c.addr_mem_addrs

variable (ihash : BitVec 32) in
/-- A clone, which has no key yet, is linked. -/
theorem Holds.linkClone {id : FString} {h : BitVec 32} {dict : Bool} {pos : ℤ}
    (hp : m.Holds (.node b id h dict pos ds) pl) (hc : m.Holds c pl')
    (hdis : ∀ a ∈ c.addrs, a ∉ (PlacedVar.node b id h dict pos ds).addrs)
    (hid : c.id = FString.empty) (hh : c.hashcode = 0) {key : FString}
    (hkey : dict = true → key.str ≠ []) : ∃ m', m.linkClone ihash dict c.addr b key = .ok m' ∧
      m'.Holds (.node b id h dict pos (ds ++ [c.linked ihash dict key])) pl ∧ m'.made = m.made ∧
      ∀ a ∉ (PlacedVar.node b id h dict pos ds).addrs, a ∉ c.addrs → m'.mem a = m.mem a := by
  unfold VarHeap.linkClone
  cases dict with
  | false =>
    have hempty : c.id.str = [] := congrArg FString.str hid
    have hhashed : c.hashed ihash = c := if_neg fun hne => hne.2 hempty
    have hlink := hp.varLink ihash hc hdis (iff_of_true hempty rfl)
    rwa [hhashed] at hlink
  | true =>
    have hkey := hkey rfl
    let c₁ := c.withKey key c.hashcode
    let m₁ := m.set c.addr (some ⟨pl'.prev, pl'.next, c₁.cell pl'.parent⟩)
    have hc₁ : m₁.Holds c₁ pl' := hc.withKey key c.hashcode pl'
    have haddr : c₁.addr = c.addr := addr_withKey _ _ _
    have haddrs : c₁.addrs = c.addrs := addrs_withKey _ _ _
    have hid₁ : c₁.id = key := id_withKey _ _ _
    have hp₁ : m₁.Holds (.node b id h true pos ds) pl := by
      refine hp.congr (fun a ha => mem_set_of_ne ?_ _) (Nat.le_refl _)
      rintro rfl
      exact hdis _ c.addr_mem_addrs ha
    have hhashed : c₁.hashed ihash = c.linked ihash true key := by
      rw [hashed_eq, hid₁, if_pos ⟨by rw [hashcode_withKey, hh], hkey⟩, withKey_withKey]
      rfl
    have hwrite : m.writeVar c.addr (fun x => { x with id := key }) = .ok m₁ := by
      rw [writeVar_eq hc.root]
      cases c <;> rfl
    obtain ⟨m', hlink, hholds, hmade, hframe⟩ := hp₁.varLink ihash hc₁ (by rwa [haddrs])
      (iff_of_false (by rwa [hid₁]) Bool.noConfusion)
    rw [haddr] at hlink
    rw [haddrs] at hframe
    rw [hhashed] at hholds
    refine ⟨m', ?_, hholds, hmade, ?_⟩
    · rw [if_pos rfl, varLinkAs, hwrite, Outcome.ok_bind, hlink]
    · intro a ha hac
      rw [hframe a ha hac]
      refine mem_set_of_ne ?_ _
      rintro rfl
      exact hac c.addr_mem_addrs

/-! ### Vars that go -/

/-- These vars are freed, and nothing outside a tree is changed. -/
structure Freed (m m' : VarHeap) (gone within : List Nat) : Prop where
  made : m'.made = m.made
  gone : ∀ a ∈ gone, m'.mem a = none
  frame : ∀ a ∉ within, m'.mem a = m.mem a

theorem set_set (x y : Option (Node VarCell)) : (m.set a x).set a y = m.set a y := by
  simp only [set, Function.update_idem]

theorem unlink_of_parent {node : Node VarCell} (hm : m.mem a = some node)
    (hparent : node.val.parent = some b) : m.unlink a =
      m.bridge b node.prev node.next >>= fun m => m.writeArr b fun arr =>
        { arr with count := arr.count.map (· - 1), cachepos := some (-1) } := by
  rw [unlink, read_eq hm, Outcome.ok_bind, hparent]

/-- What is left of the memory once the first child of a var is unlinked. -/
theorem unlink_eq {id : FString} {h : BitVec 32} {dict : Bool} {pos : ℤ}
    (hp : m.Holds (.node b id h dict pos (c :: cs)) pl) : m.unlink c.addr = .ok { m with
      mem := Function.update (withPrev m.mem (cs.map addr).head? none) b
        (some ⟨pl.prev, pl.next, (PlacedVar.node b id h dict (-1) cs).cell pl.parent⟩) } := by
  have hroot : m.mem b =
    some ⟨pl.prev, pl.next, (PlacedVar.node b id h dict pos (c :: cs)).cell pl.parent⟩ := hp.root
  have hnd := hp.nodup
  rw [addrs_node] at hnd
  obtain ⟨hb, -⟩ := List.nodup_cons.mp hnd
  have hcount (n : Nat) : BitVec.ofNat 32 (n + 1) - 1 = BitVec.ofNat 32 n := by
    rw [BitVec.ofNat_add]
    exact BitVec.add_sub_cancel _ _
  have hparent : (c.cell (some b)).parent = some b := by cases c <;> rfl
  cases hp.rests with
  | node hseg _ =>
  obtain ⟨-, next, hc, hseg⟩ := hseg
  cases cs with
  | nil =>
    obtain ⟨-, rfl⟩ := hseg
    rw [unlink_of_parent hc hparent, bridge, writeArr_eq hroot rfl, Outcome.ok_bind,
      writeArr_eq (mem_set_self _ _ _) rfl, set_set]
    dsimp only [cell, links, Option.map_some, List.length_cons]
    rw [hcount]
    rfl
  | cons d cs =>
    obtain ⟨rfl, next', hd, -⟩ := hseg
    have hbd : b ≠ d.addr := by
      rintro rfl
      exact hb (map_addr_subset (List.mem_cons_of_mem _ List.mem_cons_self))
    have hroot' : (m.set d.addr (some { prev := none, next := next', val := d.cell (some b) })).mem b =
        some ⟨pl.prev, pl.next, (PlacedVar.node b id h dict pos (c :: d :: cs)).cell pl.parent⟩ := by
      rw [mem_set_of_ne hbd]
      exact hroot
    rw [unlink_of_parent hc hparent, bridge, write_eq hd, Outcome.ok_bind, writeArr_eq hroot' rfl,
      Outcome.ok_bind, writeArr_eq (mem_set_self _ _ _) rfl, set_set]
    have hprev : withPrev m.mem ((d :: cs).map addr).head? none =
        Function.update m.mem d.addr (some ⟨none, next', d.cell (some b)⟩) := by
      show Function.update m.mem d.addr ((m.mem d.addr).map fun n => { n with prev := none }) = _
      rw [hd]
      rfl
    rw [hprev]
    dsimp only [cell, links, Option.map_some, List.length_cons]
    rw [hcount]
    rfl

theorem Holds.firstChild {id : FString} {h : BitVec 32} {dict : Bool} {pos : ℤ}
    (hp : m.Holds (.node b id h dict pos (c :: cs)) pl) :
    m.mem c.addr = some ⟨none, (cs.map addr).head?, c.cell (some b)⟩ := by
  cases hp.rests with
  | node hseg _ =>
  obtain ⟨-, next, hc, hseg⟩ := hseg
  have hnext : next = (cs.map addr).head? := by
    rw [← addrs_cells b]
    exact hseg.first_eq
  rw [hc, hnext]

/-- The first child of a var is unlinked, and still knows its parent. -/
theorem Holds.unlink {id : FString} {h : BitVec 32} {dict : Bool} {pos : ℤ}
    (hp : m.Holds (.node b id h dict pos (c :: cs)) pl) : ∃ m' pl', m.unlink c.addr = .ok m' ∧
      m'.Holds (.node b id h dict (-1) cs) pl ∧ m'.Holds c pl' ∧ m'.made = m.made ∧
      ∀ a ∉ (PlacedVar.node b id h dict pos (c :: cs)).addrs, m'.mem a = m.mem a := by
  have hrun := unlink_eq hp
  have hnd := hp.nodup
  have hmade := hp.made
  rw [addrs_node, List.flatMap_cons] at hnd hmade
  obtain ⟨hb, hndall⟩ := List.nodup_cons.mp hnd
  obtain ⟨hndc, hnd, hdis⟩ := List.nodup_append.mp hndall
  rw [List.mem_append, not_or] at hb
  have hbroot : b ∉ cs.map addr := fun hmem => hb.2 (map_addr_subset hmem)
  have hframe (a : Nat) (hab : a ≠ b) (hac : a ∉ cs.map addr) (x : Option (Node VarCell)) :
      Function.update (withPrev m.mem (cs.map addr).head? none) b x a = m.mem a := by
    rw [Function.update_of_ne hab]
    exact Linked.withPrev_of_ne (fun heq => hac (List.mem_of_head? heq)) _
  have hframec (a : Nat) (ha : a ∈ c.addrs) (x : Option (Node VarCell)) :
      Function.update (withPrev m.mem (cs.map addr).head? none) b x a = m.mem a := by
    refine hframe a ?_ ?_ x
    · rintro rfl
      exact hb.1 ha
    · exact fun hmem => hdis a ha a (map_addr_subset hmem) rfl
  cases hp.rests with
  | node hseg hrests =>
  obtain ⟨-, next, hc, hseg⟩ := hseg
  have hseg : Seg m.mem (some c.addr) next (cells b cs) (links pos (c :: cs)).last none := hseg
  have hnext : next = (cs.map addr).head? := by
    rw [← addrs_cells b]
    exact hseg.first_eq
  refine ⟨_, ⟨some b, none, next⟩, hrun, ⟨?_, .node ?_ ?_, ?_, ?_⟩, ⟨?_, ?_, hndc, ?_⟩, rfl, ?_⟩
  · exact Function.update_self _ _ _
  · have hlast : (links (-1) cs).last =
        if cells b cs = [] then none else (links pos (c :: cs)).last := by
      cases cs <;> rfl
    have hled := hseg.ledFrom (by rw [addrs_cells]; exact map_addr_nodup hnd) none
    rw [← hlast, hnext] at hled
    exact hled.update (by rwa [addrs_cells]) _
  · intro d hd
    refine (hrests d (List.mem_cons_of_mem _ hd)).congr fun a ha => hframe a ?_ ?_ _
    · rintro rfl
      exact hb.2 (mem_roots hd (List.mem_cons_of_mem _ ha))
    · intro hmem
      obtain ⟨r, hr, rfl⟩ := List.mem_map.mp hmem
      exact addr_not_mem_under hnd hr hd ha
  · rw [addrs_node]
    exact List.nodup_cons.mpr ⟨hb.2, hnd⟩
  · intro a ha
    rw [addrs_node] at ha
    obtain rfl | ha := List.mem_cons.mp ha
    · exact hmade _ List.mem_cons_self
    · exact hmade _ (List.mem_cons_of_mem _ (List.mem_append_right _ ha))
  · exact (hframec _ c.addr_mem_addrs _).trans hc
  · exact (hrests c List.mem_cons_self).congr fun a ha => hframec a (List.mem_cons_of_mem _ ha) _
  · intro a ha
    exact hmade _ (List.mem_cons_of_mem _ (List.mem_append_left _ ha))
  · intro a ha
    rw [addrs_node, List.mem_cons, not_or, List.flatMap_cons, List.mem_append, not_or] at ha
    exact hframe a ha.1 (fun hmem => ha.2.2 (map_addr_subset hmem)) _

/-- A var frees itself and what is below it when it is the first child of another one. -/
def Frees (c : PlacedVar) : Prop :=
  ∀ {m : VarHeap} {b : Nat} {id : FString} {h : BitVec 32} {dict : Bool} {pos : ℤ}
    {cs : List PlacedVar} {pl : Place}, m.Holds (.node b id h dict pos (c :: cs)) pl →
    ∀ n, 2 * c.addrs.length ≤ n + 1 → ∃ m', freeWithin n m c.addr = .ok m' ∧
      m'.Holds (.node b id h dict (-1) cs) pl ∧
      m.Freed m' c.addrs (PlacedVar.node b id h dict pos (c :: cs)).addrs

/-- The children of a var are freed one after the other. -/
theorem Holds.freeAll {id : FString} {h : BitVec 32} {dict : Bool} {pos : ℤ}
    (hp : m.Holds (.node b id h dict pos ds) pl) (hds : ∀ c ∈ ds, Frees c) {n : Nat}
    (hn : 2 * (ds.flatMap addrs).length ≤ n) : ∃ m' pos',
      freeAll n m (ds.map addr).head? = .ok m' ∧ m'.Holds (.node b id h dict pos' []) pl ∧
      m.Freed m' (ds.flatMap addrs) (PlacedVar.node b id h dict pos ds).addrs := by
  induction ds generalizing m n pos with
  | nil =>
    refine ⟨m, pos, ?_, hp, rfl, ?_, fun a _ => rfl⟩
    · cases n <;> rfl
    · intro a ha
      cases ha
  | cons c cs ih =>
    have hnd := hp.nodup
    rw [addrs_node, List.flatMap_cons] at hnd
    obtain ⟨hb, hnd⟩ := List.nodup_cons.mp hnd
    have hdis := (List.nodup_append.mp hnd).2.2
    rw [List.mem_append, not_or] at hb
    rw [List.flatMap_cons, List.length_append] at hn
    have hpos : 0 < c.addrs.length := Nat.succ_pos _
    cases n with
    | zero => omega
    | succ n =>
      obtain ⟨m₁, hfree, hp₁, hf₁⟩ := hds c List.mem_cons_self hp n (by omega)
      obtain ⟨m', pos', hall, hp', hf'⟩ :=
        ih hp₁ (fun d hd => hds d (List.mem_cons_of_mem _ hd)) (n := n) (by omega)
      refine ⟨m', pos', ?_, hp', hf'.made.trans hf₁.made, ?_, ?_⟩
      · show VarHeap.freeAll (n + 1) m (some c.addr) = _
        rw [VarHeap.freeAll, read_eq hp.firstChild, Outcome.ok_bind, hfree, Outcome.ok_bind]
        exact hall
      · intro a ha
        rw [List.flatMap_cons] at ha
        obtain ha | ha := List.mem_append.mp ha
        · rw [hf'.frame a, hf₁.gone a ha]
          rw [addrs_node, List.mem_cons, not_or]
          refine ⟨?_, fun hmem => hdis a ha a hmem rfl⟩
          rintro rfl
          exact hb.1 ha
        · exact hf'.gone a ha
      · intro a ha
        rw [hf'.frame a, hf₁.frame a ha]
        rw [addrs_node, List.mem_cons, not_or] at ha ⊢
        rw [List.flatMap_cons, List.mem_append, not_or] at ha
        exact ⟨ha.1, ha.2.2⟩

theorem freeStr_cell (t : PlacedVar) (parent : Option Nat) : (t.cell parent).freeStr = .ok () := by
  cases t with
  | leaf _ _ _ value => cases value <;> rfl
  | lost => rfl
  | node _ _ _ dict => cases dict <;> rfl

/-- A var that frees what is below it frees itself. -/
theorem Frees.of_under (hunder : ∀ (m : VarHeap) (pl : Place), m.Holds t pl → ∀ n,
    2 * t.under.length ≤ n → ∃ first m', (t.cell pl.parent).varFirst = .ok first ∧
      VarHeap.freeAll n m first = .ok m' ∧ m.Freed m' t.under t.addrs) : Frees t := by
  intro m b id h dict pos cs pl hp n hn
  have hnd := hp.nodup
  rw [addrs_node, List.flatMap_cons] at hnd
  obtain ⟨hb, hnd⟩ := List.nodup_cons.mp hnd
  have hdis := (List.nodup_append.mp hnd).2.2
  rw [List.mem_append, not_or] at hb
  have hsep (a : Nat) (ha : a ∈ (PlacedVar.node b id h dict (-1) cs).addrs) : a ∉ t.addrs := by
    rw [addrs_node] at ha
    obtain rfl | ha := List.mem_cons.mp ha
    · exact hb.1
    · exact fun hmem => hdis a hmem a ha rfl
  have hsub (a : Nat) (ha : a ∉ (PlacedVar.node b id h dict pos (t :: cs)).addrs) : a ∉ t.addrs := by
    rw [addrs_node, List.flatMap_cons, List.mem_cons, List.mem_append, not_or, not_or] at ha
    exact ha.2.1
  obtain ⟨m₁, pl', hun, hp₁, ht₁, hmade, hframe⟩ := hp.unlink
  cases n with
  | zero =>
    rw [addrs, List.length_cons] at hn
    omega
  | succ n =>
    rw [addrs, List.length_cons] at hn
    obtain ⟨first, m₂, hfirst, hall, hf⟩ := hunder m₁ pl' ht₁ n (by omega)
    have hkept (a : Nat) (ha : a ∉ t.addrs) : (m₂.set t.addr none).mem a = m₁.mem a := by
      rw [mem_set_of_ne (ne_of_mem_of_not_mem t.addr_mem_addrs ha).symm, hf.frame a ha]
    refine ⟨m₂.set t.addr none, ?_, ?_, hf.made.trans hmade, ?_, ?_⟩
    · rw [freeWithin, hun, Outcome.ok_bind, read_eq ht₁.root, Outcome.ok_bind, freeStr_cell,
        Outcome.ok_bind, hfirst, Outcome.ok_bind, hall, Outcome.ok_bind]
      rfl
    · exact hp₁.congr (fun a ha => hkept a (hsep a ha)) (Nat.le_of_eq hf.made.symm)
    · intro a ha
      by_cases haddr : a = t.addr
      · rw [haddr, mem_set_self]
      · rw [mem_set_of_ne haddr]
        exact hf.gone a ((List.mem_cons.mp ha).resolve_left haddr)
    · intro a ha
      rw [hkept a (hsub a ha), hframe a ha]

theorem Frees.of_varFirst (hfirst : ∀ parent, (t.cell parent).varFirst = .ok none)
    (hunder : t.under = []) : Frees t := by
  refine Frees.of_under fun m pl hp n _ => ⟨none, m, hfirst _, ?_, rfl, ?_, fun _ _ => rfl⟩
  · cases n <;> rfl
  · rw [hunder]
    intro a ha
    cases ha

/-- `var_free` frees a child with all that is below it. -/
theorem frees (t : PlacedVar) : Frees t := by
  induction t using PlacedVar.induction with
  | hleaf a id h value unset =>
    refine Frees.of_varFirst (fun parent => ?_) (under_leaf _ _ _ _ _)
    cases value <;> rfl
  | hlost a id h => exact Frees.of_varFirst (fun parent => rfl) (under_lost _ _ _)
  | hnode a id h dict pos ds ih =>
    refine Frees.of_under fun m pl hp n hn => ?_
    rw [under_node] at hn ⊢
    obtain ⟨m', pos', hall, -, hf⟩ := hp.freeAll ih hn
    refine ⟨_, m', ?_, hall, hf⟩
    cases dict <;> rfl

end VarHeap

end Opticon
