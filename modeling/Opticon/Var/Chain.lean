import Opticon.Lib.Linked
import Opticon.Lib.Outcome
import Opticon.Var.Access

/-! A dict or an array and its children as they are linked in memory (`var.c`), with the position of
the last lookup. A pointer to a child is an address. -/

namespace Opticon

/-- The pointers and the counter of a var that has children, the position and the node of the last
lookup, the vars that are allocated, and how many of them there ever were. -/
structure LinkedVar where
  dict : Bool
  first : Option Nat
  last : Option Nat
  count : BitVec 32
  cachepos : ℤ
  cachenode : Option Nat
  mem : Linked.Heap Var
  made : Nat

namespace LinkedVar

/-- A var without children. The node of the last lookup is what the memory had there. -/
def alloc (dict : Bool) (cachenode : Option Nat) : LinkedVar where
  dict := dict
  first := none
  last := none
  count := 0
  cachepos := -1
  cachenode := cachenode
  mem _ := none
  made := 0

def read (v : LinkedVar) (a : Nat) : Except Fault (Linked.Node Var) :=
  match v.mem a with
  | none => .error .useAfterFree
  | some node => .ok node

def set (v : LinkedVar) (a : Nat) (node : Option (Linked.Node Var)) : LinkedVar :=
  { v with mem := Function.update v.mem a node }

def write (v : LinkedVar) (a : Nat) (f : Linked.Node Var → Linked.Node Var) : Except Fault LinkedVar := do
  let node ← v.read a
  return v.set a (some (f node))

def deref (v : LinkedVar) : Option Nat → Except Fault (Linked.Node Var)
  | none => .error .nullPointer
  | some a => v.read a

/-! ### Lookups -/

/-- The `for` loop of `var_find_index`. -/
def walk (v : LinkedVar) : Nat → Option Nat → Except Fault (Option Nat)
  | 0, res => .ok res
  | _ + 1, none => .ok none
  | i + 1, some a => do
    let node ← v.read a
    v.walk i node.next

/-- The position for an index. The counter is unsigned, and so is what is added to it. -/
def absindex (v : LinkedVar) (index : BitVec 32) : ℤ :=
  if index.toInt < 0 then (v.count - index).toInt else index.toInt

/-- The short ways to a position: the last child, and the neighbours of the last lookup. -/
def nearby (v : LinkedVar) (index : BitVec 32) : Except Fault (Option Nat) :=
  if index.toInt = -1 then .ok v.last
  else if v.cachepos = v.absindex index + 1 then do
    let node ← v.deref v.cachenode
    return node.prev
  else if v.absindex index ≠ 0 ∧ v.cachepos = v.absindex index - 1 then do
    let node ← v.deref v.cachenode
    return node.next
  else .ok none

/-- The child at the position for an index, from the start if there is no short way. -/
def reach (v : LinkedVar) (index : BitVec 32) : Except Fault (Option Nat) := do
  let near ← v.nearby index
  if near = none then v.walk (v.absindex index).toNat v.first else return near

/-- Lookup a var inside a parent by its index, with the parent as it is afterwards. -/
def varFindIndex (self : LinkedVar) (index : BitVec 32) : Except Fault (Option Nat × LinkedVar) := do
  if self.absindex index < 0 then return (none, self)
  if self.count.toNat ≤ self.absindex index then return (none, self)
  if self.cachepos = self.absindex index then return (self.cachenode, self)
  let res ← self.reach index
  if res = none then return (none, self)
  return (res, { self with cachepos := self.absindex index, cachenode := res })

/-- The loop of `var_find_key`, from a child on. As many rounds are enough as children were ever
made. -/
def findKeyFrom (ihash : BitVec 32) (key : List UInt8) :
    Nat → Option Nat → LinkedVar → Except Fault (Option Nat × LinkedVar)
  | _, none, v => .ok (none, v)
  | 0, some _, _ => .error .endlessLoop
  | n + 1, some a, v => do
    let node ← v.read a
    if (node.val.hashcode = 0 ∨ node.val.hashcode = hashToken ihash key) ∧ node.val.id.str = key then
      return (some a, v)
    else
      let v :=
        if node.val.hashcode = 0 then
          v.set a (some { node with val := node.val.setHashcode (hashToken ihash node.val.id.str) })
        else v
      findKeyFrom ihash key n node.next v

def varFindKey (ihash : BitVec 32) (self : LinkedVar) (key : List UInt8) :
    Except Fault (Option Nat × LinkedVar) :=
  if self.dict then findKeyFrom ihash key self.made self.first self else .ok (none, self)

/-! ### New children -/

/-- Link a var, which `malloc` gave this address, behind the last child. -/
def linkLast (self : LinkedVar) (a : Nat) : Except Fault LinkedVar :=
  match self.last with
  | some last => do
    let self ← self.write a fun x => { x with prev := some last }
    let self ← self.write last fun x => { x with next := some a }
    return { self with last := some a, count := self.count + 1 }
  | none => .ok { self with first := some a, last := some a, count := self.count + 1 }

/-- `var_alloc` and `var_link`: a var without an id goes into an array only, one with an id into a
dict only. -/
def varLink (ihash : BitVec 32) (self : LinkedVar) (a : Nat) (nvar : Var) : Except Fault LinkedVar :=
  let nvar : Var :=
    if nvar.hashcode = 0 ∧ nvar.id.str ≠ [] then nvar.setHashcode (hashToken ihash nvar.id.str) else nvar
  let self : LinkedVar := { self.set a (some ⟨none, none, nvar⟩) with made := self.made + 1 }
  if (nvar.id.str = []) ↔ self.dict then .ok self else self.linkLast a

def varForkey (ihash : BitVec 32) (self : LinkedVar) (a : Nat) (key : List UInt8)
    (make : FString → BitVec 32 → Var) : Except Fault (Nat × LinkedVar) := do
  let (res, self) ← self.varFindKey ihash key
  match res with
  | some b => return (b, self)
  | none => return (a, ← self.varLink ihash a (make (FString.strncpy key) (hashToken ihash key)))

def varSetForkey (ihash : BitVec 32) (self : LinkedVar) (a : Nat) (key : List UInt8) (val : VarValue) :
    Except Fault LinkedVar := do
  let (b, self) ← self.varForkey ihash a key fun id h => .leaf id h .null
  self.write b fun x => { x with val := varSet x.val val }

/-- `var_get_dict_forkey` and `var_get_array_forkey`. -/
def varGetNodeForkey (ihash : BitVec 32) (self : LinkedVar) (a : Nat) (key : List UInt8) (dict : Bool) :
    Except Fault LinkedVar := do
  let (_, self) ← self.varForkey ihash a key fun id h => Var.node dict id h []
  return self

def varAdd (ihash : BitVec 32) (self : LinkedVar) (a : Nat) (val : VarValue) : Except Fault LinkedVar :=
  if self.dict then .ok self else self.varLink ihash a (varAlloc val)

/-- `var_add_dict` and `var_add_array`. -/
def varAddNode (ihash : BitVec 32) (self : LinkedVar) (a : Nat) (dict : Bool) : Except Fault LinkedVar :=
  if self.dict then .ok self else self.varLink ihash a (Var.node dict FString.empty 0 [])

/-! ### Children that go -/

/-- The four ways of `var_free` to bridge a child. -/
def bridge (self : LinkedVar) (node : Linked.Node Var) : Except Fault LinkedVar :=
  match node.prev, node.next with
  | some prev, some next => do
    let self ← self.write prev fun x => { x with next := some next }
    self.write next fun x => { x with prev := some prev }
  | some prev, none => do
    let self ← self.write prev fun x => { x with next := none }
    return { self with last := some prev }
  | none, some next => do
    let self ← self.write next fun x => { x with prev := none }
    return { self with first := some next }
  | none, none => .ok { self with first := none, last := none }

/-- `var_free` for a child. What is below it is freed with it. -/
def varFree (self : LinkedVar) (a : Nat) : Except Fault LinkedVar := do
  let node ← self.read a
  let self ← self.bridge node
  return { self.set a none with count := self.count - 1, cachepos := -1 }

/-- Take a child out of the chain, as `var_delete_key` does. -/
def unlink (self : LinkedVar) (node : Linked.Node Var) : Except Fault LinkedVar := do
  let self ← match node.prev with
    | some prev => self.write prev fun x => { x with next := node.next }
    | none => pure { self with first := node.next }
  match node.next with
  | some next => self.write next fun x => { x with prev := node.prev }
  | none => pure { self with last := node.prev }

/-- Remove a named member from a dict. The position of the last lookup is reset in the member, not in
the dict. -/
def varDeleteKey (ihash : BitVec 32) (self : LinkedVar) (key : List UInt8) : Except Fault LinkedVar := do
  let (res, self) ← self.varFindKey ihash key
  match res with
  | none => return self
  | some a =>
    let node ← self.read a
    let self ← self.unlink node
    return { self.set a none with count := self.count - 1 }

/-- The loop of `var_clear_array`, from a child on. -/
def clearFrom : Nat → Option Nat → LinkedVar → Except Fault LinkedVar
  | _, none, v => .ok v
  | 0, some _, _ => .error .endlessLoop
  | n + 1, some c, v => do
    let node ← v.read c
    clearFrom n node.next (← v.varFree c)

def varClearArray (self : LinkedVar) : Except Fault LinkedVar :=
  if self.dict then .ok self
  else do
    let self ← clearFrom self.made self.first self
    return { self with cachepos := -1 }

end LinkedVar

end Opticon
