import Opticon.Db.Usage
import Opticon.Var.Access

/-! The quota reaper (`main.c`). -/

namespace Opticon

/-- A tenant's directory: the text of its metadata, if there is one, and its hosts. -/
structure TenantDir where
  metadata : Option (List UInt8)
  hosts : List HostFiles

/-- What the rounds over the tenants go by: the tenants that are left, the position of the first
of these, the variable for the quota, and the database. -/
structure Reaper where
  rest : List Uuid
  i : Nat
  quota : BitVec 64
  db : Uuid → Option TenantDir

/-- The room in the list of hosts, which doubles whenever the list is full. -/
def hostRoom : Nat → Nat
  | 0 => 4
  | n + 1 => if n + 1 = hostRoom n then 2 * hostRoom n else hostRoom n

def staleInfo (tnow : Nat) (info : UsageInfo) : Bool :=
  info.last != 0 && 86400 < tnow - info.last

/-- The hosts from the position on; the hosts that stay, the bytes they take and the earliest
time of any. Of a host that is removed the log tells, by `hosts[i]`. -/
def checkHosts (tnow i numhosts : Nat) :
    List HostFiles → Nat → Nat → Except Fault (List HostFiles × Nat × Nat)
  | [], totalsz, earliest => .ok ([], totalsz, earliest)
  | h :: hosts, totalsz, earliest => do
    let (info, h) := localdbGetUsage h
    if staleInfo tnow info then
      if i < hostRoom numhosts then checkHosts tnow i numhosts hosts totalsz earliest
      else .error .outOfBounds
    else if info.earliest ≠ 0 then
      let (hosts, totals) ← checkHosts tnow i numhosts hosts ((totalsz + info.bytes) % 2 ^ 64)
        (if earliest = 0 ∨ info.earliest < earliest then info.earliest else earliest)
      return (h :: hosts, totals)
    else
      let (hosts, totals) ← checkHosts tnow i numhosts hosts totalsz earliest
      return (h :: hosts, totals)

/-- The quota in bytes, of one in megabytes; 128 if it is not set. -/
def quotaBytes (quota : BitVec 64) : BitVec 64 :=
  (if quota = 0 then 128 else quota) * (1024 * 1024)

/-- One round for a tenant. The flag tells whether it gets another one. -/
def reapTenant (ihash : BitVec 32) (tnow i : Nat) (quota : BitVec 64) (T : TenantDir) :
    Except Fault (BitVec 64 × Bool × TenantDir) := do
  let v ← varLoadJson ihash T.metadata
  -- the variable keeps its value if there is no metadata
  let quota := quotaBytes ((v.map fun v => varGetIntForkey ihash v (asc "quota")).getD quota)
  let (hosts, totalsz, earliest) ← checkHosts tnow i T.hosts.length T.hosts 0 0
  if quota.toNat < totalsz ∧ 86399 < tnow - earliest then
    return (quota, true, { T with hosts := hosts.map fun h => localdbDeleteHostDate h earliest })
  else return (quota, false, { T with hosts := hosts })

/-- One round of the loop over the tenants, if there is one left. -/
def Reaper.next (ihash : BitVec 32) (tnow : Nat) (s : Reaper) : Except Fault (Option Reaper) :=
  match s.rest with
  | [] => .ok none
  | t :: ts =>
    match s.db t with
    | none => .ok (some { s with rest := ts, i := s.i + 1 })
    | some T => do
      let (quota, again, T) ← reapTenant ihash tnow s.i s.quota T
      return some
        { rest := if again then t :: ts else ts
          i := if again then s.i else s.i + 1
          quota := quota
          db := Function.update s.db t (some T) }

/-- A pass, up to a number of rounds. -/
def reaperRun (ihash : BitVec 32) (tnow : Nat) : Nat → Reaper → Except Fault Reaper
  | 0, _ => .error .endlessLoop
  | n + 1, s => do
    match ← s.next ihash tnow with
    | none => return s
    | some s => reaperRun ihash tnow n s

end Opticon
