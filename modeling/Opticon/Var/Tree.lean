import Opticon.Lib.Decimal
import Opticon.Meter.Data

/-! The variable tree (`var.c`), as far as its parser and its writer use it. -/

namespace Opticon

/-- The hash of a token before `hash_token` replaces a zero. `ihash` is the random initial
hash of the process. -/
def tokenHash (ihash : BitVec 32) (str : List UInt8) : BitVec 32 :=
  let low (c : UInt8) : BitVec 32 := (c &&& 0xDF).toBitVec.setWidth 32
  let at' (k : Nat) : BitVec 32 := low (str.getD k 0)
  let s : BitVec 32 := str.foldl (fun (hash : BitVec 32) c => (hash <<< 5) + hash + low c) ihash
  let hash := if 6 ≤ str.length then s + s % 5779 * at' 6 else s
  let hash :=
    if 5 ≤ str.length then let h := hash + s % 4643 * at' 5; h ^^^ (h <<< 7) else hash
  let hash := if 4 ≤ str.length then hash + s % 271 * at' 4 else hash
  let hash :=
    if 3 ≤ str.length then let h := hash + s % 1607 * at' 3; h ^^^ (h <<< 15) else hash
  let hash := if 2 ≤ str.length then hash + s % 7649 * at' 2 else hash
  let hash :=
    if 1 ≤ str.length then let h := hash + s % 6101 * at' 1; h ^^^ (h <<< 25) else hash
  hash + s % 1217 * at' 0

def hashToken (ihash : BitVec 32) (str : List UInt8) : BitVec 32 :=
  if tokenHash ihash str = 0 then 154004 else tokenHash ihash str

theorem hashToken_ne_zero (ihash : BitVec 32) (str : List UInt8) : hashToken ihash str ≠ 0 := by
  unfold hashToken
  split
  · decide
  · assumption

/-- What a var holds that has no vars below it. Doubles are exact. -/
inductive VarValue where
  | null
  | int (ival : BitVec 64)
  | double (dval : ℚ)
  | str (sval : List UInt8)
  deriving DecidableEq

/-- A var with its key, which is empty for the elements of an array, and the hash of the
key, or 0. -/
inductive Var where
  | leaf (id : FString) (hashcode : BitVec 32) (value : VarValue)
  | dict (id : FString) (hashcode : BitVec 32) (children : List Var)
  | array (id : FString) (hashcode : BitVec 32) (children : List Var)

namespace Var

def id : Var → FString
  | .leaf id _ _ | .dict id _ _ | .array id _ _ => id

def hashcode : Var → BitVec 32
  | .leaf _ h _ | .dict _ h _ | .array _ h _ => h

def setHashcode : Var → BitVec 32 → Var
  | .leaf id _ val, h => .leaf id h val
  | .dict id _ cs, h => .dict id h cs
  | .array id _ cs, h => .array id h cs

/-- The vars linked below a var. -/
def children : Var → List Var
  | .leaf _ _ _ => []
  | .dict _ _ cs | .array _ _ cs => cs

/-- A dict or an array. -/
def node (dict : Bool) (id : FString) (h : BitVec 32) (cs : List Var) : Var :=
  if dict then .dict id h cs else .array id h cs

def isNode (dict : Bool) : Var → Bool
  | .leaf _ _ _ => false
  | .dict _ _ _ => dict
  | .array _ _ _ => !dict

/-- A var below another one was changed in place. A var that never was linked has no
place. -/
def put (self : Var) (place : Option Nat) (child : Var) : Var :=
  match place, self with
  | some i, .dict id h cs => .dict id h (cs.set i child)
  | some i, .array id h cs => .array id h (cs.set i child)
  | _, self => self

end Var

/-- A fresh var: the root of a tree, or an element of an array. -/
def varAlloc (value : VarValue) : Var := .leaf FString.empty 0 value

/-- Looks for a key among the children of a dict. The hashes that were not known yet are
filled in on the way. -/
def findKeyIn (ihash : BitVec 32) (key : List UInt8) : List Var → List Var × Option (Nat × Var)
  | [] => ([], none)
  | c :: cs =>
    if (c.hashcode = 0 ∨ c.hashcode = hashToken ihash key) ∧ c.id.str = key then
      (c :: cs, some (0, c))
    else
      let c := if c.hashcode = 0 then c.setHashcode (hashToken ihash c.id.str) else c
      let r := findKeyIn ihash key cs
      (c :: r.1, r.2.map fun p => (p.1 + 1, p.2))

/-- Find a key in a dictionary node. An unset node becomes a dictionary. -/
def varFindKey (ihash : BitVec 32) (self : Var) (key : List UInt8) : Var × Option (Nat × Var) :=
  match self with
  | .leaf id h .null => (.dict id h [], none)
  | .dict id h cs =>
    let r := findKeyIn ihash key cs
    (.dict id h r.1, r.2)
  | self => (self, none)

/-- Link a var into its parent. Nodes without an id go into arrays only, nodes with one
into dictionaries only: the place is where the node ended up, if it was linked. -/
def varLink (ihash : BitVec 32) (self parent : Var) : Var × Var × Option Nat :=
  let self :=
    if self.hashcode = 0 ∧ self.id.str ≠ [] then
      self.setHashcode (hashToken ihash self.id.str)
    else self
  if self.id.str = [] then
    match parent with
    | .leaf id h .null => (self, .array id h [self], some 0)
    | .array id h cs => (self, .array id h (cs ++ [self]), some cs.length)
    | parent => (self, parent, none)
  else
    match parent with
    | .leaf id h .null => (self, .dict id h [self], some 0)
    | .dict id h cs => (self, .dict id h (cs ++ [self]), some cs.length)
    | parent => (self, parent, none)

/-- The child with the given key, with its place and the parent as it is afterwards. A
child that is not there is linked in as `make` makes it. -/
def varForkey (ihash : BitVec 32) (self : Var) (key : List UInt8)
    (make : FString → BitVec 32 → Var) : Var × Option Nat × Var :=
  let r := varFindKey ihash self key
  match r.2 with
  | some (i, res) => (r.1, some i, res)
  | none =>
    let l := varLink ihash (make (FString.strncpy key) (hashToken ihash key)) r.1
    (l.2.1, l.2.2, l.1)

def varGetOrMake (ihash : BitVec 32) (self : Var) (key : List UInt8) : Var × Option Nat × Var :=
  let self : Var := match self with
    | .leaf id h .null => .dict id h []
    | self => self
  varForkey ihash self key fun id h => .leaf id h .null

/-- Find, or create, a dictionary or an array inside a dictionary. The second component is
missing if there is a child of another type. -/
def varGetNodeForkey (ihash : BitVec 32) (self : Var) (key : List UInt8) (dict : Bool) :
    Var × Option (Option Nat × Var) :=
  let r := varForkey ihash self key fun id h => Var.node dict id h []
  if r.2.2.isNode dict then (r.1, some r.2) else (r.1, none)

def varGetDictForkey (ihash : BitVec 32) (self : Var) (key : List UInt8) :
    Var × Option (Option Nat × Var) :=
  varGetNodeForkey ihash self key true

def varGetArrayForkey (ihash : BitVec 32) (self : Var) (key : List UInt8) :
    Var × Option (Option Nat × Var) :=
  varGetNodeForkey ihash self key false

/-- `var_set_int`, `var_set_double` and `var_set_str`: they change unset vars and vars of
their own type. -/
def varSet (v : Var) (val : VarValue) : Var :=
  match v, val with
  | .leaf id h .null, val => .leaf id h val
  | .leaf id h (.int _), .int val => .leaf id h (.int val)
  | .leaf id h (.double _), .double val => .leaf id h (.double val)
  | .leaf id h (.str _), .str val => .leaf id h (.str val)
  | v, _ => v

/-- `var_set_int_forkey`, `var_set_double_forkey` and `var_set_str_forkey`. -/
def varSetForkey (ihash : BitVec 32) (self : Var) (key : List UInt8) (val : VarValue) : Var :=
  let r := varGetOrMake ihash self key
  r.1.put r.2.1 (varSet r.2.2 val)

def varClearArray : Var → Var
  | .array id h _ => .array id h []
  | v => v

/-- `var_add_int`, `var_add_double` and `var_add_str`. -/
def varAdd (ihash : BitVec 32) (self : Var) (val : VarValue) : Var :=
  match self with
  | .array _ _ _ => (varLink ihash (varAlloc val) self).2.1
  | self => self

/-- Add an empty array or an empty dictionary to an array var. -/
def varAddNode (ihash : BitVec 32) (self : Var) (dict : Bool) : Var × Option (Option Nat × Var) :=
  let self : Var := match self with
    | .leaf id h .null => .array id h []
    | self => self
  match self with
  | .array _ _ _ =>
    let l := varLink ihash (Var.node dict FString.empty 0 []) self
    (l.2.1, some (l.2.2, l.1))
  | self => (self, none)

def varAddArray (ihash : BitVec 32) (self : Var) : Var × Option (Option Nat × Var) :=
  varAddNode ihash self false

def varAddDict (ihash : BitVec 32) (self : Var) : Var × Option (Option Nat × Var) :=
  varAddNode ihash self true

/-- Escape quoted string content with backslash. -/
def varEscapeStr : List UInt8 → List UInt8
  | [] => []
  | c :: cs =>
    if c = 92 ∨ c = 34 then 92 :: c :: varEscapeStr cs
    else if c = 10 then 92 :: 110 :: varEscapeStr cs
    else c :: varEscapeStr cs

end Opticon
