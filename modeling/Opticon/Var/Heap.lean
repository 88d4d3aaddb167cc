import Opticon.Lib.Linked
import Opticon.Lib.Outcome
import Opticon.Var.Access

/-! Whole trees in memory (`var.c`): each var at its address, linked with its neighbours and its
parent, with the union that its type says how to read. -/

namespace Opticon

inductive VarType where
  | null | int | double | str | dict | array
  deriving DecidableEq

/-- What a var with children knows of them. The counter and the position of the last lookup may be
what another member of the union left there. -/
structure VarArr where
  first : Option Nat
  last : Option Nat
  count : Option (BitVec 32)
  cachepos : Option ℤ
  deriving DecidableEq

/-- The union of a var, by the member that was written last. A string may be missing. -/
inductive VarUnion where
  | ival (ival : BitVec 64)
  | dval (dval : ℚ)
  | sval (sval : Option (List UInt8))
  | arr (links : VarArr)
  deriving DecidableEq

structure VarCell where
  id : FString
  hashcode : BitVec 32
  parent : Option Nat
  type : VarType
  value : VarUnion

namespace VarUnion

def getIval : VarUnion → Except Fault (BitVec 64)
  | .ival n => .ok n
  | _ => .error .uninitialised

def getDval : VarUnion → Except Fault ℚ
  | .dval x => .ok x
  | _ => .error .uninitialised

def getSval : VarUnion → Except Fault (Option (List UInt8))
  | .sval s => .ok s
  | _ => .error .uninitialised

def getArr : VarUnion → Except Fault VarArr
  | .arr links => .ok links
  | _ => .error .uninitialised

/-- No children: all of the member is written. -/
def noChildren : VarUnion := .arr ⟨none, none, some 0, some (-1)⟩

/-- The pointers to the children are reset, and nothing else. -/
def clearLinks : VarUnion → VarUnion
  | .arr links => .arr { links with first := none, last := none }
  | _ => .arr ⟨none, none, none, none⟩

end VarUnion

/-- A string that is read. -/
def derefStr : Option (List UInt8) → Except Fault (List UInt8)
  | none => .error .nullPointer
  | some str => .ok str

namespace VarCell

/-- A var as `var_alloc` makes it. -/
def fresh : VarCell := ⟨FString.empty, 0, none, .null, .noChildren⟩

def varGetInt (self : VarCell) : Except Fault (BitVec 64) :=
  match self.type with
  | .str => do
    let str ← derefStr (← self.value.getSval)
    return strtoullOf str
  | .double => do
    let dval ← self.value.getDval
    return BitVec.ofInt 64 ⌊dval⌋
  | .int => self.value.getIval
  | _ => .ok 0

def varGetDouble (self : VarCell) : Except Fault ℚ :=
  match self.type with
  | .str => do
    let str ← derefStr (← self.value.getSval)
    return atofOf str
  | .double => self.value.getDval
  | .int => do
    let ival ← self.value.getIval
    return ival.toNat
  | _ => .ok 0

def varGetStr (self : VarCell) : Except Fault (Option (List UInt8)) :=
  match self.type with
  | .str => self.value.getSval
  | _ => .ok none

/-- An unset var takes the type, a var of another type keeps what it has. -/
def varSetInt (v : VarCell) (val : BitVec 64) : VarCell :=
  if v.type = .null ∨ v.type = .int then { v with type := .int, value := .ival val } else v

def varSetDouble (v : VarCell) (val : ℚ) : VarCell :=
  if v.type = .null ∨ v.type = .double then { v with type := .double, value := .dval val } else v

/-- The string is copied, unless the var has an equal one. -/
def varSetStr (v : VarCell) (val : Option (List UInt8)) : Except Fault VarCell :=
  match v.type with
  | .null => do
    let str ← derefStr val
    return { v with type := .str, value := .sval (some str) }
  | .str => do
    let old ← derefStr (← v.value.getSval)
    let str ← derefStr val
    return if old = str then v else { v with value := .sval (some str) }
  | _ => .ok v

def varFirst (self : VarCell) : Except Fault (Option Nat) :=
  if self.type = .array ∨ self.type = .dict then do
    let arr ← self.value.getArr
    return arr.first
  else .ok none

/-- The string of a string var is given to `free`, which takes a missing one as well. -/
def freeStr (self : VarCell) : Except Fault Unit :=
  if self.type = .str then do
    let _ ← self.value.getSval
    return ()
  else .ok ()

/-- A var with a key that is not hashed yet gets its hash. -/
def hashed (ihash : BitVec 32) (self : VarCell) : VarCell :=
  if self.hashcode = 0 ∧ self.id.str ≠ [] then
    { self with hashcode := hashToken ihash self.id.str }
  else self

/-- The value of a var of one of the four types without children, set into another var. -/
def setFrom (self orig : VarCell) : Except Fault VarCell :=
  match orig.type with
  | .int => do return self.varSetInt (← orig.varGetInt)
  | .double => do return self.varSetDouble (← orig.varGetDouble)
  | .str => do self.varSetStr (← orig.varGetStr)
  | _ => .ok self

end VarCell

/-- The vars that are allocated, and the addresses that were ever given to one. -/
structure VarHeap where
  mem : Linked.Heap VarCell
  made : Nat

namespace VarHeap

def read (m : VarHeap) (a : Nat) : Except Fault (Linked.Node VarCell) :=
  match m.mem a with
  | none => .error .useAfterFree
  | some node => .ok node

def set (m : VarHeap) (a : Nat) (node : Option (Linked.Node VarCell)) : VarHeap :=
  { m with mem := Function.update m.mem a node }

def write (m : VarHeap) (a : Nat) (f : Linked.Node VarCell → Linked.Node VarCell) :
    Except Fault VarHeap := do
  let node ← m.read a
  return m.set a (some (f node))

def writeVar (m : VarHeap) (a : Nat) (f : VarCell → VarCell) : Except Fault VarHeap :=
  m.write a fun x => { x with val := f x.val }

def writeArr (m : VarHeap) (a : Nat) (f : VarArr → VarArr) : Except Fault VarHeap := do
  let node ← m.read a
  let arr ← node.val.value.getArr
  m.writeVar a fun x => { x with value := .arr (f arr) }

def varAlloc (m : VarHeap) : Nat × VarHeap :=
  (m.made, { m.set m.made (some ⟨none, none, .fresh⟩) with made := m.made + 1 })

/-! ### Links -/

/-- Link a var behind the last child of another one. -/
def linkLast (m : VarHeap) (self parent : Nat) : Except Fault VarHeap := do
  let node ← m.read parent
  let arr ← node.val.value.getArr
  match arr.last with
  | some last => do
    let m ← m.write self fun x => { x with prev := some last }
    let m ← m.write last fun x => { x with next := some self }
    m.writeArr parent fun arr => { arr with last := some self, count := arr.count.map (· + 1) }
  | none => do
    let m ← m.write self fun x => { x with prev := none }
    m.writeArr parent fun arr =>
      { arr with first := some self, last := some self, count := arr.count.map (· + 1) }

/-- An unset var becomes an array or a dict. -/
def becomes (m : VarHeap) (a : Nat) (type : VarType) : Except Fault VarHeap := do
  let node ← m.read a
  if node.val.type = .null then
    m.writeVar a fun x => { x with type := type, value := .noChildren }
  else return m

/-- Link a var into its parent: a var without an id goes into an array only, one with an id into a
dict only. -/
def varLink (ihash : BitVec 32) (m : VarHeap) (self parent : Nat) : Except Fault VarHeap := do
  let m ← m.write self fun x =>
    { x with next := none, val := { x.val.hashed ihash with parent := some parent } }
  let node ← m.read self
  let type := if node.val.id.str = [] then VarType.array else .dict
  let m ← m.becomes parent type
  let node ← m.read parent
  if node.val.type ≠ type then return m
  m.linkLast self parent

def varLinkAs (ihash : BitVec 32) (m : VarHeap) (self parent : Nat) (id : FString) :
    Except Fault VarHeap := do
  let m ← m.writeVar self fun x => { x with id := id }
  m.varLink ihash self parent

/-- A clone is linked, in a dict under the key that the var has. -/
def linkClone (ihash : BitVec 32) (m : VarHeap) (dict : Bool) (ins res : Nat) (id : FString) :
    Except Fault VarHeap :=
  if dict then m.varLinkAs ihash ins res id else m.varLink ihash ins res

/-! ### Vars that go -/

/-- The four ways of `var_free` to bridge a child. -/
def bridge (m : VarHeap) (parent : Nat) : Option Nat → Option Nat → Except Fault VarHeap
  | some prev, some next => do
    let m ← m.write prev fun x => { x with next := some next }
    m.write next fun x => { x with prev := some prev }
  | some prev, none => do
    let m ← m.write prev fun x => { x with next := none }
    m.writeArr parent fun arr => { arr with last := some prev }
  | none, some next => do
    let m ← m.write next fun x => { x with prev := none }
    m.writeArr parent fun arr => { arr with first := some next }
  | none, none => m.writeArr parent fun arr => { arr with first := none, last := none }

/-- Unlink a var from its parent, if it has one. -/
def unlink (m : VarHeap) (self : Nat) : Except Fault VarHeap := do
  let node ← m.read self
  match node.val.parent with
  | none => return m
  | some parent => do
    let m ← m.bridge parent node.prev node.next
    m.writeArr parent fun arr =>
      { arr with count := arr.count.map (· - 1), cachepos := some (-1) }

mutual

/-- `var_free`, in at most so many rounds: unlink a var and free it with what is below it. -/
def freeWithin : Nat → VarHeap → Nat → Except Fault VarHeap
  | 0, _, _ => .error .endlessLoop
  | n + 1, m, self => do
    let m ← m.unlink self
    let node ← m.read self
    node.val.freeStr
    let m ← freeAll n m (← node.val.varFirst)
    return m.set self none

/-- The loop that frees a child and those behind it. -/
def freeAll : Nat → VarHeap → Option Nat → Except Fault VarHeap
  | _, m, none => .ok m
  | 0, _, some _ => .error .endlessLoop
  | n + 1, m, some c => do
    let node ← m.read c
    let m ← freeWithin n m c
    freeAll n m node.next

end

/-! ### Copies -/

mutual

/-- `var_clone`, in at most so many rounds. -/
def cloneWithin (ihash : BitVec 32) : Nat → VarHeap → Nat → Except Fault (Nat × VarHeap)
  | 0, _, _ => .error .endlessLoop
  | n + 1, m, orig => do
    let (res, m) := m.varAlloc
    let node ← m.read orig
    match node.val.type with
    | .dict => do
      let m ← m.writeVar res fun x => { x with type := .dict, value := x.value.clearLinks }
      let m ← cloneInto ihash n m true res (← node.val.varFirst)
      return (res, m)
    | .array => do
      let m ← m.writeVar res fun x => { x with type := .array, value := x.value.clearLinks }
      let m ← cloneInto ihash n m false res (← node.val.varFirst)
      return (res, m)
    | _ => do
      let self ← m.read res
      let val ← self.val.setFrom node.val
      return (res, m.set res (some { self with val := val }))

/-- The loop that links clones of a child and of those behind it below another var. -/
def cloneInto (ihash : BitVec 32) : Nat → VarHeap → Bool → Nat → Option Nat → Except Fault VarHeap
  | _, m, _, _, none => .ok m
  | 0, _, _, _, some _ => .error .endlessLoop
  | n + 1, m, dict, res, some crsr => do
    let (ins, m) ← cloneWithin ihash n m crsr
    let node ← m.read crsr
    let m ← m.linkClone ihash dict ins res node.val.id
    let node ← m.read crsr
    cloneInto ihash n m dict res node.next

end

/-- Create a clone of a var and its children. There are at most as many rounds, down and along, as
twice the vars that were ever made. -/
def varClone (ihash : BitVec 32) (m : VarHeap) (orig : Nat) : Except Fault (Nat × VarHeap) :=
  cloneWithin ihash (2 * m.made) m orig

/-- What `var_copy_merge` does first when it does not merge: the string of the destination and its
children are freed, and it is unset. -/
def erase (m : VarHeap) (self : Nat) : Except Fault VarHeap := do
  let node ← m.read self
  node.val.freeStr
  match node.val.type with
  | .str => m.writeVar self fun x => { x with type := .null, value := .sval none }
  | .array | .dict => do
    let m ← freeAll (2 * m.made) m (← node.val.varFirst)
    m.writeVar self fun x => { x with type := .null, value := .noChildren }
  | _ => m.writeVar self fun x => { x with type := .null }

/-- The loop of `var_copy_merge` over the elements of an array. -/
def copyInto (ihash : BitVec 32) : Nat → VarHeap → Nat → Option Nat → Except Fault VarHeap
  | _, m, _, none => .ok m
  | 0, _, _, some _ => .error .endlessLoop
  | n + 1, m, self, some crsr => do
    let (nvar, m) ← m.varClone ihash crsr
    let m ← m.writeVar nvar fun x => { x with id := FString.empty, hashcode := 0 }
    let m ← m.varLink ihash nvar self
    let node ← m.read crsr
    copyInto ihash n m self node.next

/-- Deep copy another var into one: `var_copy_merge` without merging. -/
def varCopy (ihash : BitVec 32) (m : VarHeap) (self orig : Nat) : Except Fault VarHeap := do
  let m ← m.erase self
  let node ← m.read orig
  match node.val.type with
  | .array => do
    let m ← m.writeVar self fun x => { x with type := .array, value := .noChildren }
    let arr ← node.val.value.getArr
    copyInto ihash (2 * m.made) m self arr.first
  | .dict => do
    let m ← m.writeVar self fun x => { x with type := .dict, value := .noChildren }
    let arr ← node.val.value.getArr
    cloneInto ihash (2 * m.made) m true self arr.first
  | _ => do
    let dst ← m.read self
    let val ← dst.val.setFrom node.val
    return m.set self (some { dst with val := val })

end VarHeap

end Opticon
