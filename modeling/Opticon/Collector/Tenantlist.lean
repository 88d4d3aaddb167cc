import Opticon.Collector.Tenant
import Opticon.Lib.Linked
import Opticon.Lib.Outcome
import Opticon.Lib.Transition

/-! The list of tenants (`tenant.c`) and the threads that use it. What a thread does between
taking and releasing the lock of the list is one step. -/

namespace Opticon

/-- What of a tenant the list is about. -/
structure TenantHead where
  uuid : Uuid
  key : AesKey

inductive Tenantlock where
  | read | write
  deriving DecidableEq

/-- The pointers of the list, the tenants that are allocated, and the address of the next one.
Memory that was freed is not given to another one. -/
structure Tenantlist where
  first : Option Nat
  last : Option Nat
  mem : Linked.Heap TenantHead
  next : Nat

namespace Tenantlist

/-- Initialize the tenant list. -/
def tenantInit : Tenantlist := ⟨none, none, fun _ => none, 0⟩

def read (T : Tenantlist) (t : Nat) : Except Fault (Linked.Node TenantHead) :=
  match T.mem t with
  | none => .error .useAfterFree
  | some node => .ok node

def set (T : Tenantlist) (t : Nat) (node : Option (Linked.Node TenantHead)) : Tenantlist :=
  { T with mem := Function.update T.mem t node }

def write (T : Tenantlist) (t : Nat) (f : Linked.Node TenantHead → Linked.Node TenantHead) :
    Except Fault Tenantlist := do
  let node ← T.read t
  return T.set t (some (f node))

/-- Allocate a tenant object, and give it its id. -/
def tenantAlloc (T : Tenantlist) (tenantid : Uuid) : Nat × Tenantlist :=
  (T.next, { T.set T.next (some ⟨none, none, tenantid, (Opticon.tenantAlloc tenantid).key⟩) with
    next := T.next + 1 })

/-- The successor of a tenant, or the start of the list. -/
def setNext (T : Tenantlist) (prev next : Option Nat) : Except Fault Tenantlist :=
  match prev with
  | some prev => T.write prev fun n => { n with next := next }
  | none => .ok { T with first := next }

/-- The predecessor of a tenant, or the end of the list. -/
def setPrev (T : Tenantlist) (next prev : Option Nat) : Except Fault Tenantlist :=
  match next with
  | some next => T.write next fun n => { n with prev := prev }
  | none => .ok { T with last := prev }

/-- Delete a tenant, unless one of its neighbours is locked. The flag tells whether it was
deleted. -/
def tenantDelete (T : Tenantlist) (t : Nat) (prevFree nextFree : Bool) :
    Except Fault (Bool × Tenantlist) := do
  let node ← T.read t
  if node.prev ≠ none ∧ prevFree = false then return (false, T)
  let T ← T.setNext node.prev node.next
  if node.next ≠ none ∧ nextFree = false then
    -- back out of the deal
    let T ← T.setNext node.prev (some t)
    return (false, T)
  let T ← T.setPrev node.next node.prev
  return (true, T.set t none)

/-- A list that goes on for longer than there are tenants comes back to itself. -/
def lookFrom (T : Tenantlist) (tenantid : Uuid) : Nat → Nat → Except Fault (Option Nat)
  | 0, _ => .error .endlessLoop
  | fuel + 1, t => do
    let node ← T.read t
    if node.val.uuid = tenantid then return some t
    else match node.next with
      | some next => lookFrom T tenantid fuel next
      | none => return none

end Tenantlist

/-- Where `tenant_find` is before a section: at its start, having seen an empty list, having seen
that it is not empty any more, and with a new tenant for a list without it. -/
inductive FindPlace where
  | start | empty | filled
  | missing (nt : Nat)
  deriving DecidableEq

inductive FindStep where
  | goes (p : FindPlace)
  | returns (t : Option Nat)
  deriving DecidableEq

/-- A section of `tenant_find`, the find-or-create by id. -/
def tenantFindSection (T : Tenantlist) (tenantid : Uuid) :
    FindPlace → Except Fault (FindStep × Tenantlist)
  | .start =>
    match T.first with
    | none => .ok (.goes .empty, T)
    | some t => do
      match ← T.lookFrom tenantid T.next t with
      | some t => return (.returns (some t), T)
      | none =>
        let (nt, T) := T.tenantAlloc tenantid
        return (.goes (.missing nt), T)
  | .empty =>
    match T.first with
    | none =>
      let (nt, T) := T.tenantAlloc tenantid
      .ok (.returns (some nt), { T with first := some nt, last := some nt })
    | some _ => .ok (.goes .filled, T)
  -- the pointer to the first tenant is not read again
  | .filled => .ok (.returns none, T)
  | .missing nt =>
    match T.last with
    | none => .error .nullPointer
    | some t => do
      let T ← T.write t fun n => { n with next := some nt }
      let T ← T.write nt fun n => { n with prev := some t }
      return (.returns (some nt), { T with last := some nt })

/-- A call of `tenant_find`, or of `tenant_create` if there is a key. -/
structure FindCall where
  tenantid : Uuid
  lockt : Tenantlock
  key : Option AesKey
  place : FindPlace

/-- A thread has a tenant locked. -/
structure Hold where
  thread : Nat
  tenant : Nat
  lockt : Tenantlock
  deriving DecidableEq

structure TenantThreads where
  list : Tenantlist
  calls : Nat → Option FindCall
  held : List Hold

namespace TenantThreads

def setCall (w : TenantThreads) (thread : Nat) (c : Option FindCall) : TenantThreads :=
  { w with calls := Function.update w.calls thread c }

def mayLock (w : TenantThreads) (t : Nat) : Tenantlock → Prop
  | .read => ∀ h ∈ w.held, h.tenant = t → h.lockt = .read
  | .write => ∀ h ∈ w.held, h.tenant ≠ t

instance (w : TenantThreads) (t : Nat) (lockt : Tenantlock) : Decidable (w.mayLock t lockt) := by
  cases lockt
  · exact inferInstanceAs (Decidable (∀ h ∈ w.held, _))
  · exact inferInstanceAs (Decidable (∀ h ∈ w.held, _))

/-- The caller goes on with what was returned: `tenant_create` writes the key. -/
def returned (w : TenantThreads) (thread : Nat) (c : FindCall) (t : Option Nat) :
    Except Fault (Option TenantThreads) :=
  match t, c.key with
  | none, none => .ok (some (w.setCall thread none))
  | none, some _ => .error .nullPointer
  | some t, key =>
    -- the section waits for the lock
    if ¬ w.mayLock t c.lockt then .ok none
    else do
      let list ← match key with
        | none => .ok w.list
        | some key => w.list.write t fun n => { n with val.key := key }
      return some { w.setCall thread none with
        list := list
        held := ⟨thread, t, c.lockt⟩ :: w.held }

end TenantThreads

inductive TenantEvent where
  | find (thread : Nat) (tenantid : Uuid) (lockt : Tenantlock)
  | create (thread : Nat) (tenantid : Uuid) (key : AesKey)
  | proceed (thread : Nat)
  | done (thread t : Nat)
  | delete (thread t : Nat) (prevFree nextFree : Bool)

/-- What a thread may do next: a call or its next section, the release of a tenant, and the
deletion of one that it has locked for writing. -/
def tenantStep (w : TenantThreads) : TenantEvent → Except Fault (Option TenantThreads)
  | .find thread tenantid lockt =>
    .ok (if (w.calls thread).isNone then some (w.setCall thread (some ⟨tenantid, lockt, none, .start⟩))
      else none)
  | .create thread tenantid key =>
    .ok (if (w.calls thread).isNone then
        some (w.setCall thread (some ⟨tenantid, .write, some key, .start⟩))
      else none)
  | .proceed thread =>
    match w.calls thread with
    | none => .ok none
    | some c => do
      let (r, list) ← tenantFindSection w.list c.tenantid c.place
      match r with
      | .goes p => return some ({ w with list := list }.setCall thread (some { c with place := p }))
      | .returns t => TenantThreads.returned { w with list := list } thread c t
  | .done thread t =>
    .ok (some { w with held := w.held.filter fun h => ¬ (h.thread = thread ∧ h.tenant = t) })
  | .delete thread t prevFree nextFree =>
    if (w.calls thread).isNone ∧ ⟨thread, t, .write⟩ ∈ w.held then do
      let (gone, list) ← w.list.tenantDelete t prevFree nextFree
      let held := if gone then w.held.filter fun h => h.tenant ≠ t else w.held
      return some { w with list := list, held := held }
    else .ok none

def tenantRuns : Transition TenantThreads TenantEvent where
  init w := w = ⟨.tenantInit, fun _ => none, []⟩
  step w e w' := tenantStep w e = .ok (some w')

/-- The list is a doubly linked chain from its first to its last tenant, in which no id occurs
twice. -/
def Tenantlist.Chain (T : Tenantlist) (l : List (Nat × TenantHead)) : Prop :=
  Linked.Seg T.mem none T.first l T.last none ∧ (Linked.addrs l).Nodup ∧
    (l.map fun x => x.2.uuid).Nodup

/-- A section comes to an end, and if it returns it returns a tenant of the list that has the id,
and otherwise does not go where the next one returns none; a deletion comes to an end, and if it
backs out the list is what it was. -/
def SectionRight (w : TenantThreads) : TenantEvent → Prop
  | .proceed thread => ∀ c, w.calls thread = some c → ∃ r list,
      tenantFindSection w.list c.tenantid c.place = .ok (r, list) ∧ r ≠ .goes .filled ∧
        ∀ t, r = .returns t →
          ∃ a l v, t = some a ∧ list.Chain l ∧ (a, v) ∈ l ∧ v.uuid = c.tenantid
  | .delete thread t prevFree nextFree =>
      (w.calls thread).isNone → ⟨thread, t, .write⟩ ∈ w.held →
        ∃ gone list, w.list.tenantDelete t prevFree nextFree = .ok (gone, list) ∧
          (gone = false → list = w.list)
  | _ => True

/-- When `tenant_find` takes the lock for writing, the list is as it was when it looked: empty
if it was empty, and otherwise not empty and without the tenant. -/
def Undisturbed (w : TenantThreads) : TenantEvent → Prop
  | .proceed thread => ∀ c, w.calls thread = some c →
      match c.place with
      | .empty => w.list.first = none
      | .missing _ => ∃ t, w.list.first = some t ∧ w.list.lookFrom c.tenantid w.list.next t = .ok none
      | _ => True
  | _ => True

end Opticon
