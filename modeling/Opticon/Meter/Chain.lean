import Opticon.Lib.Decimal
import Opticon.Lib.Linked
import Opticon.Lib.Outcome
import Opticon.Meter.Host

/-! A host and its meters as they are linked in memory (`host.c`). A pointer to a meter is an
address. -/

namespace Opticon

/-- The pointers of a host, its counter and its time, the meters that are allocated, and the address of
the next one. Memory that was freed is not given to another one. -/
structure LinkedHost where
  lastmodified : Nat
  first : Option Nat
  last : Option Nat
  trash : Option Nat
  mcount : Int
  mem : Linked.Heap Meter
  next : Nat

namespace LinkedHost

/-- `host_alloc` -/
def alloc : LinkedHost where
  lastmodified := 0
  first := none
  last := none
  trash := none
  mcount := 0
  mem _ := none
  next := 0

def read (h : LinkedHost) (m : Nat) : Except Fault (Linked.Node Meter) :=
  match h.mem m with
  | none => .error .useAfterFree
  | some node => .ok node

def set (h : LinkedHost) (m : Nat) (node : Option (Linked.Node Meter)) : LinkedHost :=
  { h with mem := Function.update h.mem m node }

def write (h : LinkedHost) (m : Nat) (f : Linked.Node Meter → Linked.Node Meter) :
    Except Fault LinkedHost := do
  let node ← h.read m
  return h.set m (some (f node))

/-- Apply a meter operation through a pointer. -/
def updateMeter (h : LinkedHost) (m : Nat) (f : Meter → Except Fault Meter) : Except Fault LinkedHost := do
  let node ← h.read m
  let val ← f node.val
  return h.set m (some { node with val := val })

/-- The loop of the lookups: from `crsr` on, to the first meter that is looked for. As many rounds are
enough as meters were ever allocated. -/
def findFrom (h : LinkedHost) (p : Meter → Bool) : Nat → Option Nat → Except Fault (Option Nat)
  | _, none => .ok none
  | 0, some _ => .error .endlessLoop
  | n + 1, some m => do
    let node ← h.read m
    if p node.val then return some m else findFrom h p n node.next

/-- Find a meter only by its name, regardless of type. -/
def hostFindMeterName (h : LinkedHost) (id : MeterId) : Except Fault (Option Nat) :=
  h.findFrom (fun m => m.name == id &&& MMASK_NAME) h.next h.first

/-- Look up a meter. -/
def hostFindMeter (h : LinkedHost) (id : MeterId) : Except Fault (Option Nat) :=
  h.findFrom (fun m => m.id == id &&& (MMASK_TYPE ||| MMASK_NAME)) h.next h.first

/-- Look up a meter by prefix, behind `prev`, or behind the first meter. -/
def hostFindPrefix (h : LinkedHost) (pfx : MeterId) (prev : Option Nat) : Except Fault (Option Nat) :=
  let mask := id2mask pfx
  match prev.or h.first with
  | none => .ok none
  | some crsr => do
    let node ← h.read crsr
    h.findFrom (fun m => m.id &&& mask == pfx &&& MMASK_NAME && idisprefix pfx m.id mask) h.next node.next

/-- `meter_alloc`, with the id its callers assign at once. -/
def allocMeter (h : LinkedHost) (rid : MeterId) : Nat × LinkedHost :=
  (h.next, { h.set h.next (some ⟨none, none, meterAlloc rid⟩) with next := h.next + 1 })

/-- Link a new meter behind the last one. -/
def linkMeter (h : LinkedHost) (rid : MeterId) (m : Nat) : Except Fault (LinkedHost × Nat) := do
  let (nm, h) := h.allocMeter rid
  let h ← h.write m fun x => { x with next := some nm }
  let h ← h.write nm fun x => { x with prev := some m }
  return ({ h with last := some nm, mcount := h.mcount + 1 }, nm)

/-- The loop of `host_get_meter`, at the meter `m`. -/
def getLoop (rid : MeterId) : Nat → Nat → LinkedHost → Except Fault (LinkedHost × Nat)
  | 0, _, _ => .error .endlessLoop
  | n + 1, m, h => do
    let node ← h.read m
    if node.val.id = rid then return (h, m)
    else if node.val.name = rid &&& MMASK_NAME ∧ node.val.count = SZ_EMPTY_ARRAY then return (h, m)
    else
      match node.next with
      | some next => getLoop rid n next h
      | none => h.linkMeter rid m

/-- Get (or create) a specific meter for a host. -/
def hostGetMeter (h : LinkedHost) (id : MeterId) : Except Fault (LinkedHost × Nat) :=
  let rid := id &&& (MMASK_TYPE ||| MMASK_NAME)
  match h.first with
  | none =>
    let (nm, h) := h.allocMeter rid
    .ok ({ h with first := some nm, last := some nm, mcount := 1 }, nm)
  | some m => getLoop rid h.next m h

/-- Bridge a meter that is to be deleted. -/
def unlink (h : LinkedHost) (node : Linked.Node Meter) : Except Fault LinkedHost :=
  match node.prev, node.next with
  | some prev, some next => do
    let h ← h.write prev fun x => { x with next := some next }
    h.write next fun x => { x with prev := some prev }
  | some prev, none => do
    let h ← h.write prev fun x => { x with next := none }
    return { h with last := some prev }
  | none, some next => do
    let h ← h.write next fun x => { x with prev := none }
    return { h with first := some next }
  | none, none => .ok { h with first := none, last := none }

/-- Remove a meter from a host list. It is added to the trash only if there is some already. -/
def hostDeleteMeter (h : LinkedHost) (m : Nat) : Except Fault LinkedHost := do
  let node ← h.read m
  let h ← h.unlink node
  let h := { h with mcount := h.mcount - 1 }
  let h ← h.updateMeter m (meterSetEmpty h.lastmodified)
  let h ← h.write m fun x => ⟨none, none, { x.val with lastmodified := 0 }⟩
  match h.trash with
  | none => return h
  | some trash =>
    let h ← h.write trash fun x => { x with prev := some m }
    let h ← h.write m fun x => { x with next := some trash }
    return { h with trash := some m }

def emptyTrashLoop : Nat → Option Nat → LinkedHost → Except Fault LinkedHost
  | _, none, h => .ok h
  | 0, some _, _ => .error .endlessLoop
  | n + 1, some m, h => do
    let node ← h.read m
    emptyTrashLoop n node.next (h.set m none)

def hostEmptyTrash (h : LinkedHost) : Except Fault LinkedHost := do
  let h ← emptyTrashLoop h.next h.trash h
  return { h with trash := none }

def hostBeginUpdate (h : LinkedHost) (t : Nat) : LinkedHost := { h with lastmodified := t }

/-- The loop of `host_end_update`, at `m`. -/
def endLoop (isStale : Bool) (last : Nat) : Nat → Option Nat → LinkedHost → Except Fault LinkedHost
  | _, none, h => .ok h
  | 0, some _, _ => .error .endlessLoop
  | n + 1, some m, h => do
    let node ← h.read m
    let h ←
      if isStale then h.write m fun x => { x with val := { x.val with lastmodified := last } }
      else if node.val.lastmodified < last ∧ 600 < last - node.val.lastmodified then h.hostDeleteMeter m
      else .ok h
    endLoop isStale last n node.next h

/-- Whether the meter for the status, if there is one, tells that the host is stale. -/
def isStale (h : LinkedHost) (mStatus : Option Nat) : Except Fault Bool :=
  match mStatus with
  | none => .ok false
  | some m => do
    let node ← h.read m
    let status ← meterGetStr node.val 0
    return status.str == asc "STALE"

/-- End an update round. Reaps any dangling meters that have been inactive for more than ten minutes,
but not from stale hosts. -/
def hostEndUpdate (h : LinkedHost) : Except Fault LinkedHost := do
  let mStatus ← h.hostFindMeter (makeid (asc "status") MTYPE_STR)
  let h ← h.hostEmptyTrash
  let isStale ← h.isStale mStatus
  endLoop isStale h.lastmodified h.next h.first h

end LinkedHost

end Opticon
