import Opticon.Lib.Linked
import Opticon.Lib.Outcome
import Opticon.Meter.Host

/-! The notifications of a tenant (`notify.c`, `tenant.c`). -/

namespace Opticon

structure Notification where
  status : List UInt8
  isproblem : Bool
  notified : Bool
  hostid : Uuid
  lastchange : Nat
  deriving DecidableEq

/-- The pointers of a list, the notifications that are allocated, and the address of the next
one. Memory that was freed is not given to another one. -/
structure Notifylist where
  first : Option Nat
  last : Option Nat
  mem : Linked.Heap Notification
  next : Nat

def notifylistInit : Notifylist := ⟨none, none, fun _ => none, 0⟩

namespace Notifylist

def read (self : Notifylist) (n : Nat) : Except Fault (Linked.Node Notification) :=
  match self.mem n with
  | none => .error .useAfterFree
  | some node => .ok node

def set (self : Notifylist) (n : Nat) (node : Option (Linked.Node Notification)) : Notifylist :=
  { self with mem := Function.update self.mem n node }

def write (self : Notifylist) (n : Nat)
    (f : Linked.Node Notification → Linked.Node Notification) : Except Fault Notifylist := do
  let node ← self.read n
  return self.set n (some (f node))

end Notifylist

/-- Allocate a notification. -/
def notificationCreate (self : Notifylist) (val : Notification) : Nat × Notifylist :=
  (self.next, { self.set self.next (some ⟨none, none, val⟩) with next := self.next + 1 })

/-- Take a notification out of the list. -/
def notifylistUnlink (self : Notifylist) (node : Linked.Node Notification) :
    Except Fault Notifylist :=
  match node.prev, node.next with
  | some prev, some next => do
    let self ← self.write next fun x => { x with prev := some prev }
    self.write prev fun x => { x with next := some next }
  | some prev, none => do
    let self ← self.write prev fun x => { x with next := none }
    return { self with last := some prev }
  | none, some next => do
    let self ← self.write next fun x => { x with prev := none }
    return { self with first := some next }
  | none, none => .ok { self with first := none, last := none }

/-- Removes a notification object from a notifylist. -/
def notifylistRemove (self : Notifylist) (n : Nat) : Except Fault Notifylist := do
  let node ← self.read n
  let self ← notifylistUnlink self node
  return self.set n none

/-- Add a notification object to a notifylist. -/
def notifylistLink (self : Notifylist) (n : Nat) : Except Fault Notifylist := do
  let self ← self.write n fun x => { x with next := none }
  match self.last with
  | some last =>
    let self ← self.write n fun x => { x with prev := some last }
    -- `last` stays where it is
    self.write last fun x => { x with next := some n }
  | none =>
    let self ← self.write n fun x => { x with prev := none }
    return { self with last := some n, first := some n }

/-- Follow the list up to a notification that meets `p`. A list that goes on for longer than
there are notifications comes back to itself. -/
def findFrom (self : Notifylist) (p : Notification → Bool) :
    Nat → Option Nat → Except Fault (Option Nat)
  | _, none => .ok none
  | 0, some _ => .error .endlessLoop
  | fuel + 1, some n => do
    let node ← self.read n
    if p node.val then return some n
    else findFrom self p fuel node.next

/-- Find a specific host in a tenant's notifylist. -/
def notifylistFind (self : Notifylist) (hostid : Uuid) : Except Fault (Option Nat) :=
  findFrom self (fun n => hostid == n.hostid) self.next self.first

def Notification.actionable (tnow : Nat) (n : Notification) : Bool :=
  290 < tnow - n.lastchange && !n.notified

def Notification.overdue (tnow : Nat) (n : Notification) : Bool :=
  120 < tnow - n.lastchange && !n.notified

/-- At least one notification has been queued for at least 290 seconds. -/
def notifylistCheckActionable (self : Notifylist) (tnow : Nat) : Except Fault Bool := do
  let n ← findFrom self (Notification.actionable tnow) self.next self.first
  return n.isSome

/-- Set notification status for a host. -/
def tenantSetNotification (self : Notifylist) (isproblem : Bool) (status : List UInt8)
    (hostid : Uuid) (tnow : Nat) : Except Fault Notifylist := do
  match ← notifylistFind self hostid with
  | some n =>
    let self ← self.write n fun x => { x with val.status := status.take 15 }
    let node ← self.read n
    if node.val.isproblem = isproblem then return self
    -- is it a problem that went away before notification?
    else if node.val.isproblem ∧ ¬ node.val.notified then notifylistRemove self n
    else self.write n fun x => { x with val.lastchange := tnow, val.notified := false }
  | none =>
    -- ignore non-problems that weren't problems
    if isproblem then
      let (n, self) := notificationCreate self ⟨status.take 15, isproblem, false, hostid, tnow⟩
      notifylistLink self n
    else return self

structure Issue where
  hostid : Uuid
  status : List UInt8
  isproblem : Bool
  deriving DecidableEq

/-- The issues are a dictionary with the hosts for keys. -/
def putIssue (issues : List Issue) (i : Issue) : List Issue :=
  if issues.any fun j => j.hostid == i.hostid then
    issues.map fun j => if j.hostid = i.hostid then i else j
  else issues ++ [i]

/-- Report the overdue notifications from the pointer `n` on. -/
def reportFrom (tnow : Nat) : Nat → Option Nat → Notifylist → List Issue →
    Except Fault (List Issue × Notifylist)
  | 0, _, _, _ => .error .endlessLoop
  | fuel + 1, n, self, issues => do
    match ← findFrom self (Notification.overdue tnow) self.next n with
    | none => return (issues, self)
    | some n =>
      let node ← self.read n
      let issues := putIssue issues ⟨node.val.hostid, node.val.status, node.val.isproblem⟩
      let self ← self.write n fun x => { x with val.notified := true }
      let node ← self.read n
      reportFrom tnow fuel node.next self issues

/-- Check and handle outstanding notifications for a tenant. -/
def tenantCheckNotification (self : Notifylist) (tnow : Nat) :
    Except Fault (Option (List Issue) × Notifylist) := do
  if ← notifylistCheckActionable self tnow then
    let (issues, self) ← reportFrom tnow (self.next + 1) self.first self []
    return (some issues, self)
  else return (none, self)

end Opticon
