import Opticon.Api.Dispatch
import Opticon.Lib.Linked
import Opticon.Lib.Outcome

/-! The login sessions of the API (`authsession.c`). -/

namespace Opticon

open Linked

def hashUuid (u : Uuid) : BitVec 32 :=
  let acc := u.msb ^^^ u.lsb
  let upper := (acc >>> 32).setWidth 32
  let lower := acc.setWidth 32
  upper ^^^ lower

structure Authsession where
  hash : BitVec 32
  id : Uuid
  tenant : Uuid
  userlevel : AuthLevel
  heartbeat : ℤ

def SESSION_IDLE_TIMEOUT : ℤ := 600

/-- The pointers of the list, the sessions that are allocated, and the address of the next one.
Memory that was freed is not given to another one. -/
structure Authsessionlist where
  first : Option Nat
  last : Option Nat
  mem : Heap Authsession
  next : Nat

def authsessionInit : Authsessionlist := ⟨none, none, fun _ => none, 0⟩

namespace Authsessionlist

def read (t : Authsessionlist) (s : Nat) : Except Fault (Node Authsession) :=
  match t.mem s with
  | none => .error .useAfterFree
  | some node => .ok node

def set (t : Authsessionlist) (s : Nat) (node : Option (Node Authsession)) : Authsessionlist :=
  { t with mem := Function.update t.mem s node }

def write (t : Authsessionlist) (s : Nat) (f : Node Authsession → Node Authsession) :
    Except Fault Authsessionlist := do
  let node ← t.read s
  return t.set s (some (f node))

/-- `resid` is what `uuidgen` gives. -/
def authsessionCreate (t : Authsessionlist) (resid tenant : Uuid) (userlevel : AuthLevel) (now : ℤ) :
    Except Fault Authsessionlist :=
  let s := t.next
  let val := { hash := hashUuid resid, id := resid, tenant, userlevel, heartbeat := now }
  let t := { t.set s (some ⟨none, none, val⟩) with next := s + 1 }
  match t.first with
  | some _ =>
    match t.last with
    | none => .error .nullPointer
    | some last => do
      let t ← t.write s fun n => { n with prev := some last }
      let t ← t.write last fun n => { n with next := some s }
      return { t with last := some s }
  | none => return { t with first := some s, last := some s }

/-- Take a session out of the list. -/
def unlink (t : Authsessionlist) (crsr : Node Authsession) : Except Fault Authsessionlist :=
  match crsr.prev with
  | some prev => do
    let t ← t.write prev fun n => { n with next := crsr.next }
    match crsr.next with
    | some next => t.write next fun n => { n with prev := some prev }
    | none => return { t with last := some prev }
  | none =>
    let t := { t with first := crsr.next }
    match crsr.next with
    | some next => t.write next fun n => { n with prev := none }
    | none => return { t with last := none }

/-- What becomes of the session that was asked for. -/
def visit (t : Authsessionlist) (now : ℤ) (crsr : Nat) (node : Node Authsession) :
    Except Fault (Option Nat × Authsessionlist) := do
  if now - node.val.heartbeat < SESSION_IDLE_TIMEOUT then
    let t ← t.write crsr fun n => { n with val.heartbeat := now }
    return (some crsr, t)
  else if 2 * SESSION_IDLE_TIMEOUT < now - node.val.heartbeat then
    let t ← t.unlink node
    return (none, t.set crsr none)
  else return (none, t)

/-- A list that goes on for longer than there are sessions comes back to itself. -/
def findFrom (t : Authsessionlist) (id : Uuid) (now : ℤ) :
    Nat → Option Nat → Except Fault (Option Nat × Authsessionlist)
  | _, none => .ok (none, t)
  | 0, some _ => .error .endlessLoop
  | fuel + 1, some crsr => do
    let node ← t.read crsr
    if node.val.hash = hashUuid id ∧ node.val.id = id then t.visit now crsr node
    else findFrom t id now fuel node.next

def authsessionFind (t : Authsessionlist) (id : Uuid) (now : ℤ) :
    Except Fault (Option Nat × Authsessionlist) := t.findFrom id now t.next t.first

end Authsessionlist

end Opticon
