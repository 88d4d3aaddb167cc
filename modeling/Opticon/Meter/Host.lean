import Opticon.Meter.Data

/-! A host and its list of meters (`host.c`). A pointer to a meter of the list is its
position in the list. -/

namespace Opticon

structure Uuid where
  msb : BitVec 64
  lsb : BitVec 64
  deriving DecidableEq

/-- Check whether a uuid is not nil. -/
def uuidvalid (u : Uuid) : Bool :=
  (u.msb != 0 || u.lsb != 0) && (u.msb != BitVec.allOnes 64 || u.lsb != BitVec.allOnes 64)

def default_host_max_meters : Int := 256

structure Host where
  uuid : Uuid
  lastmodified : Nat
  lastserial : BitVec 32
  badness : ℚ
  lastmetasync : Nat
  meters : List Meter
  mcount : Int
  deriving DecidableEq

/-- `host_alloc`, with the uuid its callers assign at once. -/
def hostAlloc (uuid : Uuid) : Host where
  uuid := uuid
  lastmodified := 0
  lastserial := 0
  badness := 0
  lastmetasync := 0
  meters := []
  mcount := 0

/-- Apply a meter operation through a pointer to one of the host's meters. -/
def Host.updateMeter (h : Host) (i : Nat) (f : Meter → Except Fault Meter) : Except Fault Host :=
  match h.meters[i]? with
  | none => .error .nullPointer
  | some m => do return { h with meters := h.meters.set i (← f m) }

/-- Find a meter only by its name, regardless of type. -/
def hostFindMeterName (h : Host) (id : MeterId) : Option Nat :=
  h.meters.findIdx? fun m => m.name == id &&& MMASK_NAME

def hostGetMeter (h : Host) (id : MeterId) : Host × Nat :=
  let rid := id &&& (MMASK_TYPE ||| MMASK_NAME)
  let found := h.meters.findIdx? fun m =>
    m.id == rid || (m.name == rid &&& MMASK_NAME && m.count == SZ_EMPTY_ARRAY)
  match found with
  | some i => (h, i)
  | none =>
    ({ h with
        meters := h.meters ++ [meterAlloc rid]
        mcount := if h.meters = [] then 1 else h.mcount + 1 },
      h.meters.length)

/-- The search starts behind `prev`, and without one behind the first meter of the list. -/
def hostFindPrefix (h : Host) (pfx : MeterId) (prev : Option Nat) : Option Nat :=
  let mask := id2mask pfx
  let start := prev.getD 0 + 1
  let found := (h.meters.drop start).findIdx? fun crsr =>
    crsr.id &&& mask == pfx &&& MMASK_NAME && idisprefix pfx crsr.id mask
  found.map (· + start)

def hostDeleteMeter (h : Host) (i : Nat) : Host :=
  { h with meters := h.meters.eraseIdx i, mcount := h.mcount - 1 }

end Opticon
