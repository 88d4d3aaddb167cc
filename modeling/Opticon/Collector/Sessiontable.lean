import Opticon.Collector.Session
import Opticon.Lib.Linked
import Opticon.Lib.Outcome

/-! The session table with its pointers (`auth.c`). -/

namespace Opticon

/-- The pointers of the buckets, the sessions that are allocated, and the address of the next
one. Memory that was freed is not given to another one. -/
structure Sessiontable where
  first : BitVec 8 → Option Nat
  last : BitVec 8 → Option Nat
  mem : Linked.Heap Session
  next : Nat

namespace Sessiontable

/-- Initialize session-related global storage. -/
def sessiondbInit : Sessiontable := ⟨fun _ => none, fun _ => none, fun _ => none, 0⟩

def read (t : Sessiontable) (s : Nat) : Except Fault (Linked.Node Session) :=
  match t.mem s with
  | none => .error .useAfterFree
  | some node => .ok node

def set (t : Sessiontable) (s : Nat) (node : Option (Linked.Node Session)) : Sessiontable :=
  { t with mem := Function.update t.mem s node }

def write (t : Sessiontable) (s : Nat) (f : Linked.Node Session → Linked.Node Session) :
    Except Fault Sessiontable := do
  let node ← t.read s
  return t.set s (some (f node))

def setFirst (t : Sessiontable) (bucket : BitVec 8) (s : Option Nat) : Sessiontable :=
  { t with first := Function.update t.first bucket s }

def setLast (t : Sessiontable) (bucket : BitVec 8) (s : Option Nat) : Sessiontable :=
  { t with last := Function.update t.last bucket s }

/-- Allocate a session, with the values its callers give it. -/
def sessionAlloc (t : Sessiontable) (val : Session) : Nat × Sessiontable :=
  (t.next, { t.set t.next (some ⟨none, none, val⟩) with next := t.next + 1 })

/-- Link a new session into the proper bucket. -/
def sessionLink (t : Sessiontable) (s : Nat) : Except Fault Sessiontable := do
  let node ← t.read s
  let bucket := sessionBucket node.val.addr node.val.sessid
  match t.first bucket with
  | some first =>
    let t ← t.write s fun n => { n with next := some first }
    let t ← t.write first fun n => { n with prev := some s }
    return t.setFirst bucket (some s)
  | none => return (t.setFirst bucket (some s)).setLast bucket (some s)

/-- A bucket that goes on for longer than there are sessions comes back to itself. -/
def findFrom (t : Sessiontable) (addrpart sess_id : BitVec 32) :
    Nat → Option Nat → Except Fault (Option Nat)
  | _, none => .ok none
  | 0, some _ => .error .endlessLoop
  | fuel + 1, some s => do
    let node ← t.read s
    if node.val.matches addrpart sess_id then return some s
    else findFrom t addrpart sess_id fuel node.next

/-- Look up a session by 32 bits worth of IP address data and a 32 bits session-id. -/
def sessionFind (t : Sessiontable) (addrpart sess_id : BitVec 32) : Except Fault (Option Nat) :=
  findFrom t addrpart sess_id t.next (t.first (sessionBucket addrpart sess_id))

/-- Register a new session (or update an existing session to stop it from expiring). `h` is
what `host_find` returns. -/
def sessionRegister (t : Sessiontable) (tenantid hostid : Uuid) (h : Option Nat)
    (addrpart sess_id : BitVec 32) (sess_key : AesKey) (ss : Sockaddr) (tnow : Nat) :
    Except Fault (Option Nat × Sessiontable) := do
  match h with
  | none => return (none, t)
  | some h =>
    match ← t.sessionFind addrpart sess_id with
    | some s =>
      let t ← t.write s fun n => { n with
        val := { n.val with lastcycle := tnow, key := sess_key, remote := ss } }
      return (some s, t)
    | none =>
      let (s, t) := t.sessionAlloc
        { tenantid := tenantid
          hostid := hostid
          addr := addrpart
          sessid := sess_id
          lastserial := 0
          key := sess_key
          lastcycle := tnow
          remote := ss
          host := h
          expired := false }
      let t ← t.sessionLink s
      return (some s, t)

def removeTenantFrom (tenantid : Uuid) : Nat → Option Nat → Sessiontable → Except Fault Sessiontable
  | _, none, t => .ok t
  | 0, some _, _ => .error .endlessLoop
  | fuel + 1, some crsr, t => do
    let node ← t.read crsr
    if node.val.tenantid = tenantid then
      let t ← t.write crsr fun n => { n with val.expired := true }
      removeTenantFrom tenantid fuel node.next t
    else removeTenantFrom tenantid fuel node.next t

def buckets : List (BitVec 8) := (List.range 256).map (BitVec.ofNat 8)

/-- Invalidate all sessions for a given tenant id. -/
def sessiondbRemoveTenant (t : Sessiontable) (tenantid : Uuid) : Except Fault Sessiontable :=
  buckets.foldlM (fun t i => removeTenantFrom tenantid t.next (t.first i) t) t

/-- Take a session out of its bucket. -/
def unlink (t : Sessiontable) (i : BitVec 8) (s : Linked.Node Session) : Except Fault Sessiontable :=
  match s.prev, s.next with
  | some prev, some next => do
    let t ← t.write prev fun n => { n with next := some next }
    t.write next fun n => { n with prev := some prev }
  | some prev, none => do
    let t ← t.write prev fun n => { n with next := none }
    return t.setLast i (some prev)
  | none, some next => do
    let t ← t.write next fun n => { n with prev := none }
    return t.setFirst i (some next)
  | none, none => return (t.setLast i none).setFirst i none

/-- A session that is too old is marked first, and the `continue` behind that comes back to
it. -/
def expireFrom (cutoff : Nat) (i : BitVec 8) :
    Nat → Option Nat → Sessiontable → Except Fault Sessiontable
  | _, none, t => .ok t
  | 0, some _, _ => .error .endlessLoop
  | fuel + 1, some s, t => do
    let node ← t.read s
    if node.val.expired ∨ node.val.lastcycle < cutoff then
      if ¬ node.val.expired then
        let t ← t.write s fun n => { n with val.expired := true }
        expireFrom cutoff i fuel (some s) t
      else
        let t ← t.unlink i node
        expireFrom cutoff i fuel node.next (t.set s none)
    else expireFrom cutoff i fuel node.next t

/-- Expire sessions that have been last updated before a given cut-off point. No session is
visited more than twice. -/
def sessionExpire (t : Sessiontable) (cutoff : Nat) : Except Fault Sessiontable :=
  buckets.foldlM (fun t i => expireFrom cutoff i (2 * t.next) (t.first i) t) t

end Sessiontable

end Opticon
