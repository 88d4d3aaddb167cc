import Opticon.Var.Chain
import Opticon.Var.Laws

/-! What the operations on a dict or an array do to the list its children are linked in, and to the
position of the last lookup. -/

namespace Opticon

open Linked

namespace LinkedVar

variable {ihash : BitVec 32} {key : List UInt8} {v v' : LinkedVar} {l l₁ l₂ : List (Nat × Var)} {a : Nat}
  {w : Var}

@[simp] theorem read_eq {node : Node Var} (hm : v.mem a = some node) : v.read a = .ok node := by
  simp [read, hm]

@[simp] theorem write_eq {node : Node Var} (hm : v.mem a = some node) (f : Node Var → Node Var) :
    v.write a f = .ok (v.set a (some (f node))) := by
  simp [write, read_eq hm]

/-- The pointers make one chain of these children, of which there are as many as the counter says. -/
structure Chain (v : LinkedVar) (l : List (Nat × Var)) : Prop where
  walk : Seg v.mem none v.first l v.last none
  nodup : (addrs l).Nodup
  made : l.length ≤ v.made
  count : v.count = BitVec.ofNat 32 l.length

/-- There is no last lookup, or it found the child that is at its position still. -/
def Cached (v : LinkedVar) (as : List Nat) : Prop :=
  v.cachepos = -1 ∨ ∃ i : Nat, v.cachepos = i ∧ i < as.length ∧ v.cachenode = as[i]?

theorem Chain.alloc (dict : Bool) (cachenode : Option Nat) : (alloc dict cachenode).Chain [] :=
  ⟨⟨rfl, rfl⟩, List.nodup_nil, Nat.le_refl 0, rfl⟩

/-! ### Lookups by index -/

theorem walk_seg {p f q : Option Nat} (hl : Seg v.mem p f l q none) (n : Nat) :
    v.walk n f = .ok (addrs l)[n]? := by
  induction l generalizing p f n with
  | nil =>
    obtain ⟨-, rfl⟩ := hl
    cases n <;> rfl
  | cons x l ih =>
    obtain ⟨rfl, next, hm, hl⟩ := hl
    cases n with
    | zero => rfl
    | succ n =>
      rw [walk, read_eq hm, Outcome.ok_bind]
      exact ih hl n

theorem Chain.count_toNat (c : v.Chain l) (hlen : l.length < 2 ^ 31) : v.count.toNat = l.length := by
  rw [c.count, BitVec.toNat_ofNat]
  omega

/-- The position for an index in an array that is not too long: a negative index never gives one. -/
theorem Chain.absindex (c : v.Chain l) (hlen : l.length < 2 ^ 31) (index : BitVec 32) :
    (0 ≤ index.toInt ∧ v.absindex index = index.toInt) ∨
      (index.toInt < 0 ∧ (v.absindex index < 0 ∨ v.count.toNat ≤ v.absindex index)) := by
  have hcount := c.count_toNat hlen
  unfold LinkedVar.absindex
  split
  · rename_i hneg
    refine .inr ⟨hneg, ?_⟩
    rw [BitVec.toInt_eq_toNat_cond] at hneg ⊢
    rw [BitVec.toNat_sub] at *
    omega
  · rename_i hpos
    exact .inl ⟨Int.not_lt.mp hpos, rfl⟩

/-- The child at a position that is in the array. -/
theorem getElem?_addrs {i : Nat} (hi : i < l.length) :
    ∃ a c, l[i]? = some (a, c) ∧ (addrs l)[i]? = some a := by
  refine ⟨l[i].1, l[i].2, List.getElem?_eq_getElem hi, ?_⟩
  rw [addrs, List.getElem?_map, List.getElem?_eq_getElem hi, Option.map_some]

/-- The node of the last lookup, with its neighbours. -/
theorem Chain.cachenode (c : v.Chain l) {i : Nat} (hi : i < l.length)
    (hnode : v.cachenode = (addrs l)[i]?) : ∃ n, v.deref v.cachenode = .ok n ∧
      n.prev = (if i = 0 then none else (addrs l)[i - 1]?) ∧ n.next = (addrs l)[i + 1]? := by
  obtain ⟨a, w, hget, haddr⟩ := getElem?_addrs hi
  obtain ⟨n, hn, -, hprev, hnext⟩ := c.walk.getElem? hget
  rw [Option.or_none] at hnext
  refine ⟨n, ?_, hprev, hnext⟩
  rw [hnode, haddr, deref, read_eq hn]

/-- A short way leads to the right child, where there is one. -/
theorem Chain.nearby (c : v.Chain l) (hc : v.Cached (addrs l)) {index : BitVec 32} {i : Nat}
    (hi : v.absindex index = i) (hindex : index.toInt ≠ -1) :
    ∃ near, v.nearby index = .ok near ∧ (near = none ∨ near = (addrs l)[i]?) := by
  unfold LinkedVar.nearby
  rw [if_neg hindex, hi]
  split_ifs with hbefore hbehind
  · obtain hnone | ⟨j, hpos, hj, hnode⟩ := hc
    · omega
    · obtain ⟨n, hn, hprev, -⟩ := c.cachenode (by simpa [addrs] using hj) hnode
      obtain rfl : j = i + 1 := by omega
      rw [if_neg (Nat.succ_ne_zero i), Nat.add_sub_cancel] at hprev
      rw [hn, Outcome.ok_bind]
      exact ⟨_, rfl, .inr hprev⟩
  · obtain hnone | ⟨j, hpos, hj, hnode⟩ := hc
    · omega
    · obtain ⟨n, hn, -, hnext⟩ := c.cachenode (by simpa [addrs] using hj) hnode
      obtain rfl : i = j + 1 := by omega
      rw [hn, Outcome.ok_bind]
      exact ⟨_, rfl, .inr hnext⟩
  · exact ⟨none, rfl, .inl rfl⟩

theorem Chain.reach (c : v.Chain l) (hc : v.Cached (addrs l)) {index : BitVec 32} {i : Nat}
    (hi : v.absindex index = i) (hindex : index.toInt ≠ -1) (hlen : i < l.length) :
    v.reach index = .ok (addrs l)[i]? := by
  obtain ⟨near, hnear, hright⟩ := c.nearby hc hi hindex
  obtain ⟨a, w, -, haddr⟩ := getElem?_addrs hlen
  rw [LinkedVar.reach, hnear, Outcome.ok_bind]
  obtain rfl | rfl := hright
  · rw [if_pos rfl, hi, Int.toNat_natCast]
    exact walk_seg c.walk i
  · rw [haddr, if_neg (by simp)]
    rfl

/-- The child at a position, if it is one. -/
def foundAt (as : List Nat) (i : ℤ) : Option Nat := if i < 0 then none else as[i.toNat]?

/-- A lookup finds the child at its position, and remembers it. -/
theorem Chain.varFindIndex (c : v.Chain l) (hc : v.Cached (addrs l)) (hlen : l.length < 2 ^ 31)
    (index : BitVec 32) : ∃ pos node,
      v.varFindIndex index =
        .ok (foundAt (addrs l) index.toInt, { v with cachepos := pos, cachenode := node }) ∧
      Cached { v with cachepos := pos, cachenode := node } (addrs l) := by
  have hcount := c.count_toNat hlen
  have hsize : (addrs l).length = l.length := List.length_map _
  unfold LinkedVar.varFindIndex
  obtain ⟨hpos, habs⟩ | ⟨hneg, hout⟩ := c.absindex hlen index
  · obtain ⟨i, hi⟩ := Int.eq_ofNat_of_zero_le hpos
    rw [hi] at habs
    have hfound : foundAt (addrs l) index.toInt = (addrs l)[i]? := by
      rw [hi, foundAt, if_neg (by omega), Int.toNat_natCast]
    rw [habs, if_neg (by omega), hfound]
    split_ifs with hover hhit
    · have hnone : (addrs l)[i]? = none := List.getElem?_eq_none (by omega)
      rw [hnone]
      exact ⟨v.cachepos, v.cachenode, rfl, hc⟩
    · obtain hnone | ⟨j, hj, -, hnode⟩ := id hc
      · omega
      · obtain rfl : j = i := by omega
        rw [← hnode]
        exact ⟨v.cachepos, v.cachenode, rfl, hc⟩
    · obtain ⟨a, w, -, haddr⟩ := getElem?_addrs (l := l) (i := i) (by omega)
      rw [c.reach hc habs (by omega) (by omega), Outcome.ok_bind, haddr, if_neg (by simp)]
      refine ⟨i, some a, rfl, .inr ⟨i, rfl, by omega, haddr.symm⟩⟩
  · have hfound : foundAt (addrs l) index.toInt = none := by rw [foundAt, if_pos hneg]
    rw [hfound]
    refine ⟨v.cachepos, v.cachenode, ?_, hc⟩
    split_ifs
    · rfl
    · rfl
    all_goals omega

/-! ### Lookups by key -/

/-- What a search for a key among the children `cs` leaves of a chain: the hashes that were not known
are filled in, and the child that was found is at the position where it is in the tree. -/
structure Searched (ihash : BitVec 32) (key : List UInt8) (m m' : Heap Var) (l l' : List (Nat × Var))
    (o : Option Nat) : Prop where
  rest : ∀ a ∉ addrs l, m' a = m a
  addrs_eq : addrs l' = addrs l
  children : l'.map Prod.snd = (findKeyIn ihash key (l.map Prod.snd)).1
  found : Option.Rel (fun a p => (addrs l)[p.1]? = some a) o (findKeyIn ihash key (l.map Prod.snd)).2

variable (ihash key) in
theorem findKeyFrom_seg {p f q : Option Nat} {n : Nat} (hl : Seg v.mem p f l q none)
    (hnd : (addrs l).Nodup) (hn : l.length ≤ n) : ∃ o m l',
      findKeyFrom ihash key n f v = .ok (o, { v with mem := m }) ∧ Seg m p f l' q none ∧
      Searched ihash key v.mem m l l' o := by
  induction l generalizing p f n v with
  | nil =>
    obtain ⟨rfl, rfl⟩ := hl
    refine ⟨none, v.mem, [], ?_, ⟨rfl, rfl⟩, fun _ _ => rfl, rfl, rfl, .none⟩
    cases n <;> rfl
  | cons x l ih =>
    obtain ⟨rfl, next, hm, hl⟩ := hl
    obtain ⟨a, c⟩ := x
    cases n with
    | zero => simp at hn
    | succ n =>
      rw [addrs_cons] at hnd
      obtain ⟨hal, hnd⟩ := List.nodup_cons.mp hnd
      rw [findKeyFrom, read_eq hm, Outcome.ok_bind]
      by_cases hc : (c.hashcode = 0 ∨ c.hashcode = hashToken ihash key) ∧ c.id.str = key
      · have hfind : findKeyIn ihash key (c :: l.map Prod.snd) = (c :: l.map Prod.snd, some (0, c)) := by
          rw [findKeyIn, if_pos hc]
        refine ⟨some a, v.mem, (a, c) :: l, by rw [if_pos hc]; rfl, ⟨rfl, next, hm, hl⟩, ?_⟩
        refine ⟨fun _ _ => rfl, rfl, ?_, ?_⟩
        · rw [List.map_cons, hfind]
        · rw [List.map_cons, hfind]
          exact .some rfl
      · -- the child is passed, with its hash
        let c' : Var := if c.hashcode = 0 then c.setHashcode (hashToken ihash c.id.str) else c
        let m₁ : Heap Var := Function.update v.mem a (some ⟨p, next, c'⟩)
        have hset : (if c.hashcode = 0 then
            v.set a (some ⟨p, next, c.setHashcode (hashToken ihash c.id.str)⟩) else v) =
            { v with mem := m₁ } := by
          by_cases hz : c.hashcode = 0
          · simp only [m₁, c', if_pos hz]
            rfl
          · have hsame : m₁ = v.mem := by
              rw [show m₁ = Function.update v.mem a (some ⟨p, next, c⟩) by simp only [m₁, c', if_neg hz],
                ← hm, Function.update_eq_self]
            rw [if_neg hz, hsame]
        have hl₁ : Seg m₁ (some a) next l q none := hl.update hal _
        obtain ⟨o, m, l', hrun, hseg, hs⟩ := ih (v := { v with mem := m₁ }) hl₁ hnd (Nat.le_of_succ_le_succ hn)
        have hfind : findKeyIn ihash key (c :: l.map Prod.snd) =
            (c' :: (findKeyIn ihash key (l.map Prod.snd)).1,
              (findKeyIn ihash key (l.map Prod.snd)).2.map fun p => (p.1 + 1, p.2)) := by
          rw [findKeyIn, if_neg hc]
        have hma : m a = some ⟨p, next, c'⟩ := by
          rw [hs.rest a hal]
          exact Function.update_self _ _ _
        refine ⟨o, m, (a, c') :: l', ?_, ⟨rfl, next, hma, hseg⟩, ?_, ?_, ?_, ?_⟩
        · rw [if_neg hc]
          dsimp only
          rw [hset]
          exact hrun
        · intro b hb
          rw [addrs_cons, List.mem_cons, not_or] at hb
          rw [hs.rest b hb.2]
          exact Function.update_of_ne hb.1 _ _
        · rw [addrs_cons, addrs_cons, hs.addrs_eq]
        · rw [List.map_cons, List.map_cons, hfind, hs.children]
        · rw [List.map_cons, hfind]
          have hfound := hs.found
          generalize (findKeyIn ihash key (l.map Prod.snd)).2 = r at hfound ⊢
          cases hfound with
          | none => exact .none
          | some hi => exact .some hi

/-- The children of a chain may be others, at the same addresses. -/
theorem Chain.of_addrs (c : v.Chain l) {m : Heap Var} {l' : List (Nat × Var)}
    (hseg : Seg m none v.first l' v.last none) (haddrs : addrs l' = addrs l) :
    Chain { v with mem := m } l' := by
  have hlen : l'.length = l.length := by simpa [addrs] using congrArg List.length haddrs
  exact ⟨hseg, haddrs ▸ c.nodup, hlen ▸ c.made, hlen ▸ c.count⟩

variable (ihash key) in
/-- A lookup in a dict. -/
theorem Chain.varFindKey (c : v.Chain l) (hd : v.dict = true) : ∃ o m l',
    v.varFindKey ihash key = .ok (o, { v with mem := m }) ∧ Chain { v with mem := m } l' ∧
      Searched ihash key v.mem m l l' o := by
  obtain ⟨o, m, l', hrun, hseg, hs⟩ := findKeyFrom_seg ihash key c.walk c.nodup c.made
  refine ⟨o, m, l', ?_, c.of_addrs hseg hs.addrs_eq, hs⟩
  rw [LinkedVar.varFindKey, if_pos hd, hrun]

/-! ### New children -/

/-- The last lookup is what it was. -/
structure SameLookup (v v' : LinkedVar) : Prop where
  dict : v'.dict = v.dict
  cachepos : v'.cachepos = v.cachepos
  cachenode : v'.cachenode = v.cachenode

theorem Cached.of_same {as bs : List Nat} (hc : v.Cached as) (hs : v.SameLookup v')
    (hget : ∀ i : Nat, v.cachepos = i → i < as.length → i < bs.length ∧ bs[i]? = as[i]?) :
    v'.Cached bs := by
  obtain hnone | ⟨i, hpos, hi, hnode⟩ := hc
  · exact .inl (hs.cachepos.trans hnone)
  · obtain ⟨hlt, heq⟩ := hget i hpos hi
    exact .inr ⟨i, hs.cachepos.trans hpos, hlt, hs.cachenode.trans (hnode.trans heq.symm)⟩

theorem Cached.append {as : List Nat} (hc : v.Cached as) (hs : v.SameLookup v') (bs : List Nat) :
    v'.Cached (as ++ bs) := by
  apply hc.of_same hs
  intro i _ hi
  rw [List.length_append, List.getElem?_append_left hi]
  exact ⟨Nat.lt_add_right _ hi, rfl⟩

theorem Chain.linkLast (c : v.Chain l) {w : Var} (hm : v.mem a = some ⟨none, none, w⟩)
    (ha : a ∉ addrs l) (hmade : l.length + 1 ≤ v.made) :
    ∃ v', v.linkLast a = .ok v' ∧ v'.Chain (l ++ [(a, w)]) ∧ v.SameLookup v' := by
  have hnodup : (addrs (l ++ [(a, w)])).Nodup := by
    rw [addrs_append, List.nodup_append_comm]
    exact List.nodup_cons.mpr ⟨ha, c.nodup⟩
  have hlen : (l ++ [(a, w)]).length = l.length + 1 := by simp
  have hmade : (l ++ [(a, w)]).length ≤ v.made := hlen ▸ hmade
  have hcount : v.count + 1 = BitVec.ofNat 32 (l ++ [(a, w)]).length := by
    rw [hlen, c.count, BitVec.ofNat_add]
    rfl
  unfold LinkedVar.linkLast
  rcases List.eq_nil_or_concat' l with rfl | ⟨l₀, ⟨b, u⟩, rfl⟩
  · have hlast : v.last = none := c.walk.1.symm
    rw [hlast]
    exact ⟨_, rfl, ⟨⟨rfl, none, hm, rfl, rfl⟩, hnodup, hmade, hcount⟩, rfl, rfl, rfl⟩
  · have hlast : v.last = some b := by simpa using c.walk.last_eq
    have hb : b ∉ addrs l₀ := by
      have hnd := c.nodup
      rw [addrs_append, List.nodup_append_comm] at hnd
      exact (List.nodup_cons.mp hnd).1
    have hab : a ≠ b := by
      rintro rfl
      simp at ha
    obtain ⟨n, hn, hseg⟩ := (c.walk.update ha (some ⟨some b, none, w⟩)).setNext hb (some a)
    rw [hlast]
    dsimp only
    rw [write_eq hm, Outcome.ok_bind, write_eq (show _ = some n from hn), Outcome.ok_bind]
    refine ⟨_, rfl, ⟨seg_append.mpr ⟨some b, some a, hseg, rfl, none, ?_, rfl, rfl⟩, hnodup, hmade, hcount⟩,
      rfl, rfl, rfl⟩
    simp only [set]
    rw [Function.update_of_ne hab, Function.update_self]

/-- The var that is linked, with its hash. -/
def keyed (ihash : BitVec 32) (nvar : Var) : Var :=
  if nvar.hashcode = 0 ∧ nvar.id.str ≠ [] then nvar.setHashcode (hashToken ihash nvar.id.str) else nvar

/-- The children as a tree. -/
def tree (v : LinkedVar) (l : List (Nat × Var)) : Var := Var.node v.dict FString.empty 0 (l.map Prod.snd)

theorem varLink_node (nvar : Var) (dict : Bool) (id : FString) (h : BitVec 32) (cs : List Var) :
    Opticon.varLink ihash nvar (Var.node dict id h cs) =
      if (keyed ihash nvar).id.str = [] ↔ dict then (keyed ihash nvar, Var.node dict id h cs, none)
      else (keyed ihash nvar, Var.node dict id h (cs ++ [keyed ihash nvar]), some cs.length) := by
  unfold Opticon.varLink keyed
  dsimp only
  cases dict with
  | true =>
    simp only [Var.node, if_true, iff_true]
  | false =>
    simp only [Var.node, Bool.false_eq_true, if_false, iff_false, ite_not]

/-- The chain goes on as it did, maybe with a new child at its end. -/
structure Extends (v v' : LinkedVar) (l l' : List (Nat × Var)) : Prop where
  chain : v'.Chain l'
  same : v.SameLookup v'
  addrs : ∃ bs, addrs l' = addrs l ++ bs ∧ bs.length ≤ 1

/-- Where a var with an address is, as its place in the tree says. -/
inductive Placed (v : LinkedVar) (l : List (Nat × Var)) (b : Nat) : Option Nat → Var → Prop
  | inside {i : Nat} {res : Var} : l[i]? = some (b, res) → Placed v l b (some i) res
  | outside {n : Node Var} : v.mem b = some n → b ∉ Linked.addrs l → Placed v l b none n.val

theorem Chain.free_not_mem (c : v.Chain l) (ha : v.mem a = none) : a ∉ addrs l := by
  intro hmem
  obtain ⟨n, hn⟩ := c.walk.allocated hmem
  rw [ha] at hn
  cases hn

variable (ihash) in
/-- A var that is linked becomes the last child, if it fits. -/
theorem Chain.varLink (c : v.Chain l) (ha : v.mem a = none) (nvar : Var) : ∃ v' l',
    v.varLink ihash a nvar = .ok v' ∧ v.Extends v' l l' ∧
      v'.tree l' = (Opticon.varLink ihash nvar (v.tree l)).2.1 ∧
      Placed v' l' a (Opticon.varLink ihash nvar (v.tree l)).2.2 (Opticon.varLink ihash nvar (v.tree l)).1 := by
  have hal := c.free_not_mem ha
  let v₁ : LinkedVar := { v.set a (some ⟨none, none, keyed ihash nvar⟩) with made := v.made + 1 }
  have hm₁ : v₁.mem a = some ⟨none, none, keyed ihash nvar⟩ := Function.update_self _ _ _
  have c₁ : v₁.Chain l := ⟨c.walk.update hal _, c.nodup, Nat.le_succ_of_le c.made, c.count⟩
  have hrun : v.varLink ihash a nvar =
    if (keyed ihash nvar).id.str = [] ↔ v.dict then .ok v₁ else v₁.linkLast a := rfl
  rw [hrun, tree, varLink_node]
  by_cases hfit : (keyed ihash nvar).id.str = [] ↔ v.dict
  · rw [if_pos hfit, if_pos hfit]
    exact ⟨v₁, l, rfl, ⟨c₁, ⟨rfl, rfl, rfl⟩, [], (List.append_nil _).symm, Nat.zero_le 1⟩, rfl,
      .outside hm₁ hal⟩
  · rw [if_neg hfit, if_neg hfit]
    obtain ⟨v', hlink, c', hs⟩ := c₁.linkLast hm₁ hal (Nat.succ_le_succ c.made)
    refine ⟨v', _, hlink, ⟨c', ⟨hs.dict, hs.cachepos, hs.cachenode⟩, [a], addrs_append _ _, Nat.le_refl 1⟩, ?_,
      .inside ?_⟩
    · rw [tree, hs.dict, List.map_append]
      rfl
    · simp

variable (ihash) in
/-- A child that is looked up, and made if it is not there. -/
theorem Chain.varForkey (c : v.Chain l) (ha : v.mem a = none) (key : List UInt8)
    (make : FString → BitVec 32 → Var) : ∃ b v' l',
      v.varForkey ihash a key make = .ok (b, v') ∧ v.Extends v' l l' ∧
      v'.tree l' = (Opticon.varForkey ihash (v.tree l) key make).1 ∧
      Placed v' l' b (Opticon.varForkey ihash (v.tree l) key make).2.1
        (Opticon.varForkey ihash (v.tree l) key make).2.2 := by
  unfold LinkedVar.varForkey
  cases hd : v.dict with
  | false =>
    have hfind : v.varFindKey ihash key = .ok (none, v) := by
      rw [LinkedVar.varFindKey, hd]
      rfl
    have hpure : Opticon.varForkey ihash (v.tree l) key make =
        let r := Opticon.varLink ihash (make (FString.strncpy key) (hashToken ihash key)) (v.tree l)
        (r.2.1, r.2.2, r.1) := by
      rw [tree, hd]
      rfl
    obtain ⟨v', l', hrun, he, htree, hp⟩ := c.varLink ihash ha
      (make (FString.strncpy key) (hashToken ihash key))
    rw [hfind, Outcome.ok_bind]
    dsimp only
    rw [hrun, Outcome.ok_bind, hpure]
    exact ⟨a, v', l', rfl, he, htree, hp⟩
  | true =>
    obtain ⟨o, m, l', hrun, c', hs⟩ := c.varFindKey ihash key hd
    have hfound := hs.found
    rw [hrun, Outcome.ok_bind]
    cases hfind : (findKeyIn ihash key (l.map Prod.snd)).2 with
    | some p =>
      obtain ⟨i, res⟩ := p
      obtain ⟨hget, -, -⟩ := findKeyIn_some hfind
      have hpure : Opticon.varForkey ihash (v.tree l) key make =
          (.dict FString.empty 0 (l'.map Prod.snd), some i, res) := by
        simp only [tree, Var.node, hd, if_true, Opticon.varForkey, Opticon.varFindKey, hfind, hs.children]
      rw [hfind] at hfound
      rcases hfound with ⟨hb⟩
      rename_i b
      rw [hpure]
      refine ⟨b, _, l', rfl, ⟨c', ⟨rfl, rfl, rfl⟩, [], ?_, Nat.zero_le 1⟩, ?_, .inside ?_⟩
      · rw [hs.addrs_eq, List.append_nil]
      · simp only [tree, Var.node, hd, if_true]
      · rw [← hs.children, List.getElem?_map] at hget
        rw [← hs.addrs_eq, addrs, List.getElem?_map] at hb
        obtain ⟨x, hx, rfl⟩ := Option.map_eq_some_iff.mp hget
        rw [hx] at hb ⊢
        cases hb
        rfl
    | none =>
      rw [hfind] at hfound
      cases hfound
      have hpure : Opticon.varForkey ihash (v.tree l) key make =
          let r := Opticon.varLink ihash (make (FString.strncpy key) (hashToken ihash key))
            (tree { v with mem := m } l')
          (r.2.1, r.2.2, r.1) := by
        simp only [tree, Var.node, hd, if_true, Opticon.varForkey, Opticon.varFindKey, hfind, hs.children]
      have ha' : m a = none := (hs.rest a (c.free_not_mem ha)).trans ha
      obtain ⟨v', l'', hlink, he, htree, hp⟩ := c'.varLink ihash ha'
        (make (FString.strncpy key) (hashToken ihash key))
      dsimp only
      rw [hlink, Outcome.ok_bind, hpure]
      refine ⟨a, v', l'', rfl, ⟨he.chain, ⟨he.same.dict, he.same.cachepos, he.same.cachenode⟩, ?_⟩, htree, hp⟩
      rw [← hs.addrs_eq]
      exact he.addrs

/-- A child is changed through a pointer to it. -/
theorem Chain.writeVal (c : v.Chain l) {b : Nat} {place : Option Nat} {res : Var}
    (hp : Placed v l b place res) (f : Var → Var) : ∃ v' l',
      v.write b (fun x => { x with val := f x.val }) = .ok v' ∧ v'.Chain l' ∧ v.SameLookup v' ∧
        addrs l' = addrs l ∧ v'.tree l' = (v.tree l).put place (f res) := by
  cases hp with
  | @outside n hn hb =>
    rw [write_eq hn]
    refine ⟨_, l, rfl, ⟨c.walk.update hb _, c.nodup, c.made, c.count⟩, ⟨rfl, rfl, rfl⟩, rfl, ?_⟩
    cases hd : v.dict <;> simp [tree, set, hd, Var.node, Var.put]
  | @inside i res hget =>
    obtain ⟨l₁, l₂, rfl, rfl⟩ := exists_split hget
    obtain ⟨n, hn, rfl, hseg⟩ := c.walk.setVal c.nodup (f res)
    have haddrs : addrs (l₁ ++ (b, f n.val) :: l₂) = addrs (l₁ ++ (b, n.val) :: l₂) := addrs_setVal _
    rw [write_eq hn]
    refine ⟨_, _, rfl, c.of_addrs hseg haddrs, ⟨rfl, rfl, rfl⟩, haddrs, ?_⟩
    cases hd : v.dict <;> simp [tree, set, hd, Var.node, Var.put]

theorem varGetOrMake_node (dict : Bool) (id : FString) (h : BitVec 32) (cs : List Var) :
    varGetOrMake ihash (Var.node dict id h cs) key =
      Opticon.varForkey ihash (Var.node dict id h cs) key fun id h => .leaf id h .null := by
  cases dict <;> rfl

variable (ihash) in
theorem Chain.varSetForkey (c : v.Chain l) (ha : v.mem a = none) (key : List UInt8) (val : VarValue) :
    ∃ v' l', v.varSetForkey ihash a key val = .ok v' ∧ v.Extends v' l l' ∧
      v'.tree l' = Opticon.varSetForkey ihash (v.tree l) key val := by
  obtain ⟨b, v₁, l₁, hrun, he, htree, hp⟩ := c.varForkey ihash ha key fun id h => .leaf id h .null
  obtain ⟨v', l', hwrite, c', hs, haddrs, htree'⟩ := he.chain.writeVal hp (varSet · val)
  refine ⟨v', l', ?_, ⟨c', ⟨?_, ?_, ?_⟩, haddrs ▸ he.addrs⟩, ?_⟩
  · rw [LinkedVar.varSetForkey, hrun, Outcome.ok_bind]
    exact hwrite
  · exact hs.dict.trans he.same.dict
  · exact hs.cachepos.trans he.same.cachepos
  · exact hs.cachenode.trans he.same.cachenode
  · have hmake : varGetOrMake ihash (v.tree l) key =
        Opticon.varForkey ihash (v.tree l) key fun id h => .leaf id h .null := varGetOrMake_node _ _ _ _
    rw [htree', htree, Opticon.varSetForkey, hmake]

variable (ihash) in
theorem Chain.varGetNodeForkey (c : v.Chain l) (ha : v.mem a = none) (key : List UInt8) (dict : Bool) :
    ∃ v' l', v.varGetNodeForkey ihash a key dict = .ok v' ∧ v.Extends v' l l' ∧
      v'.tree l' = (Opticon.varGetNodeForkey ihash (v.tree l) key dict).1 := by
  obtain ⟨b, v', l', hrun, he, htree, -⟩ := c.varForkey ihash ha key fun id h => Var.node dict id h []
  refine ⟨v', l', ?_, he, ?_⟩
  · rw [LinkedVar.varGetNodeForkey, hrun, Outcome.ok_bind]
    rfl
  · rw [htree, Opticon.varGetNodeForkey]
    split <;> rfl

variable (ihash) in
theorem Chain.varAdd (c : v.Chain l) (ha : v.mem a = none) (val : VarValue) : ∃ v' l',
    v.varAdd ihash a val = .ok v' ∧ v.Extends v' l l' ∧ v'.tree l' = Opticon.varAdd ihash (v.tree l) val := by
  unfold LinkedVar.varAdd
  cases hd : v.dict with
  | true =>
    refine ⟨v, l, rfl, ⟨c, ⟨rfl, rfl, rfl⟩, [], (List.append_nil _).symm, Nat.zero_le 1⟩, ?_⟩
    simp only [tree, hd, Var.node, if_true, Opticon.varAdd]
  | false =>
    obtain ⟨v', l', hrun, he, htree, -⟩ := c.varLink ihash ha (varAlloc val)
    refine ⟨v', l', hrun, he, ?_⟩
    rw [htree, tree, hd]
    rfl

variable (ihash) in
theorem Chain.varAddNode (c : v.Chain l) (ha : v.mem a = none) (dict : Bool) : ∃ v' l',
    v.varAddNode ihash a dict = .ok v' ∧ v.Extends v' l l' ∧
      v'.tree l' = (Opticon.varAddNode ihash (v.tree l) dict).1 := by
  unfold LinkedVar.varAddNode
  cases hd : v.dict with
  | true =>
    refine ⟨v, l, rfl, ⟨c, ⟨rfl, rfl, rfl⟩, [], (List.append_nil _).symm, Nat.zero_le 1⟩, ?_⟩
    simp only [tree, hd, Var.node, if_true, Opticon.varAddNode]
  | false =>
    obtain ⟨v', l', hrun, he, htree, -⟩ := c.varLink ihash ha (Var.node dict FString.empty 0 [])
    refine ⟨v', l', hrun, he, ?_⟩
    rw [htree, tree, hd]
    rfl

/-! ### Children that go -/

/-- A child is bridged. -/
theorem unlink_eq {node : Node Var} (hprev : ∀ p, node.prev = some p → ∃ x, v.mem p = some x)
    (hnext : ∀ n, node.next = some n → ∃ x, v.mem n = some x) : v.unlink node = .ok { v with
      mem := withPrev (withNext v.mem node.prev node.next) node.next node.prev
      first := if node.prev = none then node.next else v.first
      last := if node.next = none then node.prev else v.last } := by
  unfold LinkedVar.unlink
  cases hp : node.prev with
  | none =>
    cases hn : node.next with
    | none => rfl
    | some n =>
      obtain ⟨x, hx⟩ := hnext n hn
      simp only [Outcome.pure_ok, Outcome.ok_bind, write_eq (v := { v with first := some n }) hx, set,
        withPrev, withNext, hx]
      rfl
  | some p =>
    obtain ⟨y, hy⟩ := hprev p hp
    cases hn : node.next with
    | none =>
      simp only [write_eq hy, Outcome.pure_ok, Outcome.ok_bind, set, withPrev, withNext, hy]
      rfl
    | some n =>
      have hx : ∃ x, (v.set p (some { y with next := some n })).mem n = some x := by
        by_cases hnp : n = p
        · subst hnp
          exact ⟨_, Function.update_self _ _ _⟩
        · obtain ⟨x, hx⟩ := hnext n hn
          exact ⟨x, (Function.update_of_ne hnp _ _).trans hx⟩
      obtain ⟨x, hx⟩ := hx
      simp only [write_eq hy, Outcome.ok_bind, write_eq hx]
      simp only [set] at hx ⊢
      simp only [withPrev, withNext, hy, Option.map_some, hx]
      rfl

/-- A child whose node is known is taken out of the chain and freed. -/
theorem Chain.unlink (c : v.Chain (l₁ ++ (a, w) :: l₂)) {node : Node Var} (hm : v.mem a = some node) :
    ∃ v', v.unlink node = .ok v' ∧ v.SameLookup v' ∧
      Chain { v'.set a none with count := v'.count - 1 } (l₁ ++ l₂) ∧ node.next = (addrs l₂).head? := by
  obtain ⟨prev, next, hnode, hprev, hnext, hseg⟩ := c.walk.unlink c.nodup
  obtain rfl : node = ⟨prev, next, w⟩ := Option.some.inj (hm.symm.trans hnode)
  have hnd := c.nodup
  rw [addrs_append, addrs_cons] at hnd
  obtain ⟨hnd₁, hnd₂, hdis⟩ := List.nodup_append.mp hnd
  obtain ⟨ha₂, hnd₂⟩ := List.nodup_cons.mp hnd₂
  have ha : a ∉ addrs (l₁ ++ l₂) := by
    rw [addrs_append, List.mem_append, not_or]
    exact ⟨fun h => hdis a h a List.mem_cons_self rfl, ha₂⟩
  have hlive (b : Nat) (hb : b ∈ addrs l₁ ∨ b ∈ addrs l₂) : ∃ x, v.mem b = some x := by
    apply c.walk.allocated
    rw [addrs_append, addrs_cons, List.mem_append, List.mem_cons]
    exact hb.imp_right .inr
  have hfirst : (if l₁ = [] then next else v.first) = if prev = none then next else v.first := by
    rw [hprev]
    cases l₁ <;> simp [addrs]
  have hlast : (if l₂ = [] then prev else v.last) = if next = none then prev else v.last := by
    rw [hnext]
    cases l₂ <;> simp [addrs]
  refine ⟨_, unlink_eq ?_ ?_, ⟨rfl, rfl, rfl⟩, ⟨?_, ?_, ?_, ?_⟩, hnext⟩
  · intro b hb
    exact hlive b (.inl (List.mem_of_getLast? (hprev.symm.trans hb)))
  · intro b hb
    exact hlive b (.inr (List.mem_of_head? (hnext.symm.trans hb)))
  · rw [hfirst, hlast] at hseg
    exact hseg.update ha none
  · rw [addrs_append]
    exact List.nodup_append.mpr ⟨hnd₁, hnd₂, fun x hx y hy => hdis x hx y (List.mem_cons_of_mem _ hy)⟩
  · have hmade := c.made
    simp only [List.length_append, List.length_cons] at hmade ⊢
    exact Nat.le_of_succ_le hmade
  · have hlen : (l₁ ++ (a, w) :: l₂).length = (l₁ ++ l₂).length + 1 := by
      simp only [List.length_append, List.length_cons]
      omega
    have hcount := c.count
    rw [hlen, BitVec.ofNat_add] at hcount
    show v.count - 1 = _
    rw [hcount]
    exact BitVec.add_sub_cancel _ _

variable (ihash) in
/-- What `var_delete_key` does in a dict: the child at the position that is found goes, and its memory is
freed. -/
theorem Chain.varDeleteKey (c : v.Chain l) (key : List UInt8) : ∃ v' l',
    v.varDeleteKey ihash key = .ok v' ∧ v'.Chain l' ∧ v.SameLookup v' ∧
      v'.tree l' = Opticon.varDeleteKey ihash (v.tree l) key ∧
      ((Opticon.varFindKey ihash (v.tree l) key).2 = none ∧ addrs l' = addrs l ∨
        ∃ i, (Opticon.varFindKey ihash (v.tree l) key).2.map Prod.fst = some i ∧
        addrs l' = (addrs l).eraseIdx i ∧ ∀ a, (addrs l)[i]? = some a → v'.mem a = none) := by
  unfold LinkedVar.varDeleteKey
  cases hd : v.dict with
  | false =>
    have hfind : v.varFindKey ihash key = .ok (none, v) := by
      rw [LinkedVar.varFindKey, hd]
      rfl
    rw [hfind, Outcome.ok_bind]
    refine ⟨v, l, rfl, c, ⟨rfl, rfl, rfl⟩, ?_, .inl ⟨?_, rfl⟩⟩
    · rw [tree, hd]
      rfl
    · rw [tree, hd]
      rfl
  | true =>
    obtain ⟨o, m, l', hrun, c', hs⟩ := c.varFindKey ihash key hd
    have hfound := hs.found
    have htree : v.tree l = .dict FString.empty 0 (l.map Prod.snd) := by simp only [tree, hd, Var.node, if_true]
    rw [hrun, Outcome.ok_bind]
    cases hfind : (findKeyIn ihash key (l.map Prod.snd)).2 with
    | none =>
      rw [hfind] at hfound
      cases hfound
      refine ⟨_, l', rfl, c', ⟨rfl, rfl, rfl⟩, ?_, .inl ⟨?_, hs.addrs_eq⟩⟩
      · simp only [Opticon.varDeleteKey, Opticon.varFindKey, hfind, tree, hd, Var.node, if_true, hs.children]
      · simp only [htree, Opticon.varFindKey, hfind]
    | some p =>
      obtain ⟨i, res⟩ := p
      rw [hfind] at hfound
      rcases hfound with ⟨hb⟩
      rename_i b
      have hpos : ∃ w, l'[i]? = some (b, w) := by
        rw [← hs.addrs_eq, addrs, List.getElem?_map] at hb
        obtain ⟨x, hx, rfl⟩ := Option.map_eq_some_iff.mp hb
        exact ⟨x.2, hx⟩
      obtain ⟨w, hpos⟩ := hpos
      obtain ⟨l₁, l₂, rfl, rfl⟩ := exists_split hpos
      obtain ⟨n, hn, -⟩ := c'.walk.lookup (List.mem_append_right _ List.mem_cons_self)
      obtain ⟨v', hunlink, hsame, hchain, -⟩ := c'.unlink hn
      dsimp only
      rw [read_eq hn, Outcome.ok_bind, hunlink, Outcome.ok_bind]
      refine ⟨_, l₁ ++ l₂, rfl, hchain, ⟨hsame.dict, hsame.cachepos, hsame.cachenode⟩, ?_,
        .inr ⟨l₁.length, ?_, ?_, ?_⟩⟩
      · have hd' : v'.dict = true := hsame.dict.trans hd
        simp only [htree, Opticon.varDeleteKey, Opticon.varFindKey, hfind, ← hs.children]
        simp [tree, set, hd', Var.node, List.eraseIdx_append_of_length_le]
      · simp only [htree, Opticon.varFindKey, hfind, Option.map_some]
      · rw [← hs.addrs_eq]
        simp [addrs, List.eraseIdx_append_of_length_le]
      · intro d hd
        obtain rfl : b = d := Option.some.inj (hb.symm.trans hd)
        exact Function.update_self _ _ _

/-- The ways to bridge a child come to the same. -/
theorem bridge_eq (node : Node Var) : v.bridge node = v.unlink node := by
  unfold bridge LinkedVar.unlink
  cases node.prev with
  | none =>
    cases node.next with
    | none => rfl
    | some n =>
      simp only [Outcome.pure_ok, Outcome.ok_bind, write, read]
      cases v.mem n <;> rfl
  | some p =>
    cases node.next with
    | none => rfl
    | some n => rfl

theorem varFree_eq {node : Node Var} (hm : v.mem a = some node) : v.varFree a =
    v.unlink node >>= fun v => .ok { v.set a none with count := v.count - 1, cachepos := -1 } := by
  rw [varFree, read_eq hm, Outcome.ok_bind, bridge_eq]
  rfl

/-- The first child is freed until there is none. -/
theorem clearFrom_chain {n : Nat} (c : v.Chain l) (hn : l.length ≤ n) :
    ∃ v', clearFrom n v.first v = .ok v' ∧ v'.Chain [] ∧ v'.dict = v.dict := by
  induction l generalizing v n with
  | nil =>
    have hfirst : v.first = none := c.walk.2
    rw [hfirst]
    refine ⟨v, ?_, c, rfl⟩
    cases n <;> rfl
  | cons x l ih =>
    obtain ⟨a, w⟩ := x
    have hfirst : v.first = some a := c.walk.1
    cases n with
    | zero => simp at hn
    | succ n =>
      obtain ⟨node, hnode, -⟩ := c.walk.lookup List.mem_cons_self
      obtain ⟨v', hunlink, hsame, hchain, hnext⟩ := (show v.Chain ([] ++ (a, w) :: l) from c).unlink hnode
      let v₁ : LinkedVar := { v'.set a none with count := v'.count - 1, cachepos := -1 }
      have c₁ : v₁.Chain l := ⟨hchain.walk, hchain.nodup, hchain.made, hchain.count⟩
      have hfree : v.varFree a = .ok v₁ := by rw [varFree_eq hnode, hunlink, Outcome.ok_bind]
      obtain ⟨v'', hrun, hempty, hdict⟩ := ih c₁ (Nat.le_of_succ_le_succ hn)
      rw [c₁.walk.first_eq, ← hnext] at hrun
      rw [hfirst]
      refine ⟨v'', ?_, hempty, hdict.trans hsame.dict⟩
      rw [clearFrom, read_eq hnode, Outcome.ok_bind, hfree, Outcome.ok_bind]
      exact hrun

theorem Chain.varClearArray (c : v.Chain l) : ∃ v' l', v.varClearArray = .ok v' ∧ v'.Chain l' ∧
    v'.tree l' = Opticon.varClearArray (v.tree l) ∧ l'.length ≤ l.length ∧
      (v.Cached (addrs l) → v'.Cached (addrs l')) := by
  unfold LinkedVar.varClearArray
  cases hd : v.dict with
  | true =>
    refine ⟨v, l, rfl, c, ?_, Nat.le_refl _, fun hc => hc⟩
    rw [tree, hd]
    rfl
  | false =>
    obtain ⟨v', hrun, c', hdict⟩ := clearFrom_chain c c.made
    rw [if_neg (by simp), hrun, Outcome.ok_bind]
    refine ⟨_, [], rfl, ⟨c'.walk, c'.nodup, c'.made, c'.count⟩, ?_, Nat.zero_le _, fun _ => .inl rfl⟩
    simp only [tree, hdict, hd, Var.node, Bool.false_eq_true, if_false, List.map_nil, Opticon.varClearArray]

end LinkedVar

end Opticon
