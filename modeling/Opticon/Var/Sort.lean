import Opticon.Var.ChainLaws

/-! Sorting the children of a dict or an array (`var.c`). -/

namespace Opticon

open Linked

def SORT_VALUE : BitVec 8 := 0x00
def SORT_ID : BitVec 8 := 0x01
def SORT_KEY : BitVec 8 := 0x02
def SORT_DESCEND : BitVec 8 := 0x80

def tolower (c : UInt8) : UInt8 := if 65 ≤ c ∧ c ≤ 90 then c + 32 else c

/-- The difference of the first two characters that differ. -/
def strcmp : List UInt8 → List UInt8 → ℤ
  | [], [] => 0
  | [], d :: _ => -d.toNat
  | c :: _, [] => c.toNat
  | c :: cs, d :: ds => if c = d then strcmp cs ds else c.toNat - d.toNat

def strcasecmp (cs ds : List UInt8) : ℤ := strcmp (cs.map tolower) (ds.map tolower)

/-- The result of a comparison by `>` and `==`. -/
def threeWay {α : Type} [LT α] [DecidableLT α] [DecidableEq α] (left right : α) : ℤ :=
  if right < left then 1 else if left = right then 0 else -1

/-- Compare two vars by value for sorting purposes. An integer is narrowed to an `int`. -/
def varCompValues (left right : Var) : Except Fault ℤ :=
  match left with
  | .leaf _ _ .null =>
    match right with
    | .leaf _ _ .null => .ok 0
    | _ => .ok 1
  | .leaf _ _ (.int _) =>
    .ok (threeWay ((varGetInt left).setWidth 32).toInt ((varGetInt right).setWidth 32).toInt)
  | .leaf _ _ (.double _) => .ok (threeWay (varGetDouble left) (varGetDouble right))
  | .leaf _ _ (.str sval) =>
    match varGetStr right with
    | none => .error .nullPointer
    | some sval' => .ok (strcasecmp sval sval')
  | .dict _ _ cs =>
    match right with
    | .dict _ _ ds => .ok (threeWay (BitVec.ofNat 32 cs.length) (BitVec.ofNat 32 ds.length))
    | _ => .ok 0
  | .array _ _ cs =>
    match right with
    | .array _ _ ds => .ok (threeWay (BitVec.ofNat 32 cs.length) (BitVec.ofNat 32 ds.length))
    | _ => .ok 0

/-- A key that decides if those before it did not, and if there is one. -/
def compareKey (ihash : BitVec 32) (crsr i : Var) (res : ℤ) : Option (List UInt8) → Except Fault ℤ
  | none => .ok res
  | some k =>
    if res ≠ 0 then .ok res
    else
      match varChild ihash crsr k, varChild ihash i k with
      | some left, some right => varCompValues left right
      | _, _ => .ok res

/-- Compare two vars by specified criteria. -/
def varSortfunc (ihash : BitVec 32) (crsr i : Var) (f : BitVec 8) (keys : List (Option (List UInt8))) :
    Except Fault ℤ := do
  let res ←
    if f &&& 0x0f = SORT_VALUE then varCompValues crsr i
    else if f &&& 0x0f = SORT_ID then pure (strcmp crsr.id.str i.id.str)
    else if ¬ crsr.isNode true then pure (-1)
    else if ¬ i.isNode true then pure 1
    else keys.foldlM (compareKey ihash crsr i) 0
  return if f &&& SORT_DESCEND ≠ 0 then -res else res

namespace LinkedVar

variable (cmp : Var → Var → Except Fault ℤ)

/-- The first child of the result, from one on, that another one goes in front of. -/
def sortPlace (res : LinkedVar) (crsr : Var) : Nat → Option Nat → Except Fault (Option Nat)
  | _, none => .ok none
  | 0, some _ => .error .endlessLoop
  | n + 1, some icrsr => do
    let node ← res.read icrsr
    let order ← cmp node.val crsr
    if 0 < order then return some icrsr else sortPlace res crsr n node.next

/-- The child in front of `icrsr` is not led to `crsr`. -/
def insertBefore (res : LinkedVar) (crsr icrsr : Nat) : Except Fault LinkedVar := do
  let inode ← res.read icrsr
  let res ← res.write crsr fun x => { x with next := some icrsr, prev := inode.prev }
  let res ← res.write icrsr fun x => { x with prev := some crsr }
  return if inode.prev = none then { res with first := some crsr } else res

def insertLast (res : LinkedVar) (crsr : Nat) : Except Fault LinkedVar :=
  match res.last with
  | some last => do
    let res ← res.write crsr fun x => { x with next := none, prev := some last }
    let res ← res.write last fun x => { x with next := some crsr }
    return { res with last := some crsr }
  | none => do
    let res ← res.write crsr fun x => { x with next := none, prev := none }
    return { res with first := some crsr, last := some crsr }

/-- The loop over the children that are sorted in, from one on. -/
def sortFrom : Nat → Option Nat → LinkedVar → Except Fault LinkedVar
  | _, none, res => .ok res
  | 0, some _, _ => .error .endlessLoop
  | n + 1, some crsr, res => do
    let node ← res.read crsr
    let place ← sortPlace cmp res node.val res.made res.first
    let res ← match place with
      | some icrsr => res.insertBefore crsr icrsr
      | none => res.insertLast crsr
    sortFrom n node.next res

/-- The result has the children of the original in its own chain. The node of its last lookup is what
the memory had there. -/
def varSortImpl (ihash : BitVec 32) (orig : LinkedVar) (f : BitVec 8) (keys : List (Option (List UInt8)))
    (cachenode : Option Nat) : Except Fault LinkedVar :=
  let res : LinkedVar := { alloc orig.dict cachenode with mem := orig.mem, made := orig.made }
  sortFrom (fun left right => varSortfunc ihash left right f keys) orig.made orig.first res

/-- Sort a dict/array of dict objects by multiple child values. -/
def varSortKeys (ihash : BitVec 32) (orig : LinkedVar) (f : BitVec 8) (k1 k2 k3 : Option (List UInt8))
    (cachenode : Option Nat) : Except Fault LinkedVar :=
  varSortImpl ihash orig (SORT_KEY ||| (f &&& SORT_DESCEND)) [k1, k2, k3] cachenode

end LinkedVar

/-! ### The order of the values -/

/-- Two values of one type: numbers by their size, strings without regard to case, containers by the
number of their children. -/
def valueOrder : Var → Var → Ordering
  | .leaf _ _ (.int a), .leaf _ _ (.int b) => compare a.toNat b.toNat
  | .leaf _ _ (.double a), .leaf _ _ (.double b) => compare a b
  | .leaf _ _ (.str a), .leaf _ _ (.str b) => compare (strcasecmp a b) 0
  | .dict _ _ cs, .dict _ _ ds => compare cs.length ds.length
  | .array _ _ cs, .array _ _ ds => compare cs.length ds.length
  | _, _ => .eq

/-- The values below a key, if there is one. -/
def orderBelow (ihash : BitVec 32) (a b : Var) (key : Option (List UInt8)) : Ordering :=
  ((key.bind fun k => (varChild ihash a k).bind fun x => (varChild ihash b k).map (valueOrder x))).getD .eq

/-- The first key whose values differ decides. -/
def keyOrder (ihash : BitVec 32) (keys : List (Option (List UInt8))) (a b : Var) : Ordering :=
  keys.foldr (fun key order => (orderBelow ihash a b key).then order) .eq

/-- Children that may stand in this order. -/
def mayPrecede (ihash : BitVec 32) (f : BitVec 8) (keys : List (Option (List UInt8))) (x y : Nat × Var) :
    Bool :=
  if f &&& SORT_DESCEND ≠ 0 then keyOrder ihash keys x.2 y.2 ≠ .lt else keyOrder ihash keys x.2 y.2 ≠ .gt

namespace LinkedVar

/-- The result is of the same type, has as many children, and its chain is that of the original sorted by
the values below the keys, with children alike in the order they were in. -/
def SortsKeys (ihash : BitVec 32) (orig : LinkedVar) (l : List (Nat × Var)) (f : BitVec 8)
    (k1 k2 k3 : Option (List UInt8)) (cachenode : Option Nat) : Prop :=
  ∃ res, varSortKeys ihash orig f k1 k2 k3 cachenode = .ok res ∧ res.dict = orig.dict ∧
    res.count.toNat = l.length ∧
    Seg res.mem none res.first (l.mergeSort (mayPrecede ihash f [k1, k2, k3])) res.last none

variable {cmp : Var → Var → Except Fault ℤ} {ihash : BitVec 32} {v v' : LinkedVar} {l : List (Nat × Var)}
  {f : BitVec 8} {k1 k2 k3 : Option (List UInt8)} {cachenode : Option Nat}

theorem write_count {a : Nat} {g : Node Var → Node Var} (h : v.write a g = .ok v') :
    v'.count = v.count := by
  obtain ⟨node, -, h⟩ := Outcome.bind_ok_iff.mp h
  cases h
  rfl

theorem insertBefore_count {crsr icrsr : Nat} (h : v.insertBefore crsr icrsr = .ok v') :
    v'.count = v.count := by
  obtain ⟨inode, -, h⟩ := Outcome.bind_ok_iff.mp h
  obtain ⟨v₁, h₁, h⟩ := Outcome.bind_ok_iff.mp h
  obtain ⟨v₂, h₂, h⟩ := Outcome.bind_ok_iff.mp h
  rw [← write_count h₁, ← write_count h₂]
  cases h
  split <;> rfl

theorem insertLast_count {crsr : Nat} (h : v.insertLast crsr = .ok v') : v'.count = v.count := by
  unfold insertLast at h
  cases hlast : v.last with
  | none =>
    rw [hlast] at h
    obtain ⟨v₁, h₁, h⟩ := Outcome.bind_ok_iff.mp h
    rw [← write_count h₁]
    cases h
    rfl
  | some last =>
    rw [hlast] at h
    obtain ⟨v₁, h₁, h⟩ := Outcome.bind_ok_iff.mp h
    obtain ⟨v₂, h₂, h⟩ := Outcome.bind_ok_iff.mp h
    rw [← write_count h₁, ← write_count h₂]
    cases h
    rfl

/-- The loop does not count the children it links. -/
theorem sortFrom_count {n : Nat} {crsr : Option Nat} (h : sortFrom cmp n crsr v = .ok v') :
    v'.count = v.count := by
  induction n generalizing crsr v with
  | zero =>
    cases crsr with
    | none =>
      cases h
      rfl
    | some crsr => cases h
  | succ n ih =>
    cases crsr with
    | none =>
      cases h
      rfl
    | some crsr =>
      obtain ⟨node, -, h⟩ := Outcome.bind_ok_iff.mp h
      obtain ⟨place, -, h⟩ := Outcome.bind_ok_iff.mp h
      cases place with
      | none =>
        obtain ⟨v₁, h₁, h⟩ := Outcome.bind_ok_iff.mp h
        exact (ih h).trans (insertLast_count h₁)
      | some icrsr =>
        obtain ⟨v₁, h₁, h⟩ := Outcome.bind_ok_iff.mp h
        exact (ih h).trans (insertBefore_count h₁)

/-- The counter of the result stays where it began. -/
theorem varSortKeys_count (h : v.varSortKeys ihash f k1 k2 k3 cachenode = .ok v') : v'.count = 0 :=
  sortFrom_count h

theorem sortFrom_none (n : Nat) (v : LinkedVar) : sortFrom cmp n none v = .ok v := by
  cases n <;> rfl

/-- A container is sorted right exactly if it has no children. -/
theorem sort_keys_right (ihash : BitVec 32) (f : BitVec 8) (k1 k2 k3 : Option (List UInt8))
    (cachenode : Option Nat) (c : v.Chain l) : v.SortsKeys ihash l f k1 k2 k3 cachenode ↔ l = [] := by
  constructor
  · rintro ⟨res, hsort, -, hcount, -⟩
    rw [varSortKeys_count hsort] at hcount
    exact List.length_eq_zero_iff.mp hcount.symm
  · rintro rfl
    have hfirst : v.first = none := c.walk.2
    refine ⟨{ alloc v.dict cachenode with mem := v.mem, made := v.made }, ?_, rfl, rfl, ?_⟩
    · rw [varSortKeys, varSortImpl, hfirst]
      exact sortFrom_none _ _
    · rw [List.mergeSort_nil]
      exact ⟨rfl, rfl⟩

theorem sort_keys_right_empty : (alloc true none).SortsKeys 5138 [] SORT_DESCEND (some (asc "weight")) none none
    none ↔ ([] : List (Nat × Var)) = [] :=
  sort_keys_right 5138 SORT_DESCEND (some (asc "weight")) none none none (.alloc true none)

/-- A row with a weight. -/
def row (name : String) (weight : BitVec 64) : Var :=
  .dict (FString.strncpy (asc name)) (hashToken 5138 (asc name))
    [.leaf (FString.strncpy (asc "weight")) (hashToken 5138 (asc "weight")) (.int weight)]

/-- Rows with the weights 1, 3 and 2. -/
def threeRows : LinkedVar where
  dict := true
  first := some 0
  last := some 2
  count := 3
  cachepos := -1
  cachenode := none
  mem := fun a => [⟨none, some 1, row "a" 1⟩, ⟨some 0, some 2, row "b" 3⟩, ⟨some 1, none, row "c" 2⟩][a]?
  made := 3

def threeRows.children : List (Nat × Var) := [(0, row "a" 1), (1, row "b" 3), (2, row "c" 2)]

/-- Rows that have weights are not counted when they are sorted. -/
theorem rows_not_sorted : threeRows.Chain threeRows.children ∧
    ¬ threeRows.SortsKeys 5138 threeRows.children 0 (some (asc "weight")) none none none := by
  refine ⟨⟨?_, by decide, Nat.le_refl 3, rfl⟩, ?_⟩
  · exact ⟨rfl, _, rfl, rfl, _, rfl, rfl, _, rfl, rfl, rfl⟩
  · rintro ⟨res, hsort, -, hcount, -⟩
    rw [varSortKeys_count hsort] at hcount
    cases hcount

/-- The row that goes between the two others is not reached from the first one. -/
example : (threeRows.varSortKeys 5138 0 (some (asc "weight")) none none none).toOption.map
    (fun res => (res.first, (res.mem 0).map Node.next, (res.mem 1).map Node.next)) =
      some (some 0, some (some 1), some none) := by
  rfl

end LinkedVar

end Opticon
