import Opticon.Collector.Session

/-! The tenants and hosts a collector has in memory (`tenant.c`, `host.c`). -/

namespace Opticon

/-- A host at its address. -/
structure HostNode where
  addr : Nat
  host : Host
  deriving DecidableEq

structure Tenant where
  uuid : Uuid
  key : AesKey
  hosts : List HostNode
  deriving DecidableEq

/-- The tenants, the address the next host is allocated at, and the sessions. The memory of a
host that was deleted is not given to another one, so an address tells the hosts apart. -/
structure Collector where
  tenants : List Tenant
  next : Nat
  sessions : Sessiondb

def Collector.empty : Collector := ⟨[], 0, .empty⟩

def tenantAlloc (tenantid : Uuid) : Tenant := ⟨tenantid, ⟨List.replicate 32 0, rfl⟩, []⟩

def Tenant.is (tenantid : Uuid) (t : Tenant) : Bool := t.uuid == tenantid

/-- Find a tenant in the list by id, or create one if it doesn't exist yet. -/
def tenantFind (c : Collector) (tenantid : Uuid) : Tenant × Collector :=
  match c.tenants.find? (Tenant.is tenantid) with
  | some t => (t, c)
  | none => (tenantAlloc tenantid, { c with tenants := c.tenants ++ [tenantAlloc tenantid] })

/-- Write to the tenant with this id. -/
def Collector.modifyTenant (c : Collector) (tenantid : Uuid) (f : Tenant → Tenant) : Collector :=
  { c with tenants := updateFirst (Tenant.is tenantid) f c.tenants }

/-- Find or create a host structure for a specified tenant. -/
def hostFind (c : Collector) (tenantid hostid : Uuid) : Nat × Collector :=
  let (t, c) := tenantFind c tenantid
  match t.hosts.find? fun n => n.host.uuid == hostid with
  | some n => (n.addr, c)
  | none =>
    let nh : HostNode := ⟨c.next, hostAlloc hostid⟩
    (c.next,
      { c.modifyTenant tenantid (fun t => { t with hosts := t.hosts ++ [nh] }) with
        next := c.next + 1 })

/-- The linked hosts, each with the id of its tenant. -/
def Collector.linked (c : Collector) : List (Uuid × HostNode) :=
  c.tenants.flatMap fun t => t.hosts.map fun n => (t.uuid, n)

/-- Follow the pointer to a host. -/
def Collector.deref (c : Collector) (addr : Nat) : Except Fault Host :=
  match c.linked.find? fun n => n.2.addr == addr with
  | none => .error .useAfterFree
  | some n => .ok n.2.host

/-- Write to the host at an address. -/
def Collector.setHost (c : Collector) (addr : Nat) (h : Host) : Collector :=
  { c with tenants := c.tenants.map fun t => { t with
      hosts := t.hosts.map fun n => if n.addr = addr then { n with host := h } else n } }

/-- Unlink a host from its tenant and free it. -/
def hostDelete (c : Collector) (addr : Nat) : Collector :=
  { c with tenants := c.tenants.map fun t => { t with
      hosts := t.hosts.filter fun n => n.addr != addr } }

/-- The neighbours of a tenant in the list are locked before it is unlinked; `prevLock` and
`nextLock` tell whether that succeeds where there is a neighbour. -/
def tenantDelete (c : Collector) (tenantid : Uuid) (prevLock nextLock : Bool) : Collector :=
  match c.tenants.findIdx? (Tenant.is tenantid) with
  | none => c
  | some i =>
    if 0 < i ∧ ¬ prevLock then c
    else if i + 1 < c.tenants.length ∧ ¬ nextLock then c
    else { c with
      tenants := c.tenants.eraseIdx i
      sessions := sessiondbRemoveTenant c.sessions tenantid }

/-- Register a new session (or update an existing session to stop it from expiring). -/
def sessionRegister (c : Collector) (tenantid hostid : Uuid) (addrpart sess_id : BitVec 32)
    (sess_key : AesKey) (ss : Sockaddr) (tnow : Nat) : Session × Collector :=
  let (h, c) := hostFind c tenantid hostid
  match sessionFind c.sessions addrpart sess_id with
  | some s =>
    let renew (s : Session) := { s with lastcycle := tnow, key := sess_key, remote := ss }
    (renew s, { c with sessions := c.sessions.modify addrpart sess_id renew })
  | none =>
    let s : Session :=
      { tenantid := tenantid
        hostid := hostid
        addr := addrpart
        sessid := sess_id
        lastserial := 0
        key := sess_key
        lastcycle := tnow
        remote := ss
        host := h
        expired := false }
    (s, { c with sessions := sessionLink c.sessions s })

end Opticon
