import Opticon.Meter.Host
import Opticon.Wire.Ioport

/-! The packet codec (`codec_pkt.c`). -/

namespace Opticon

def pktcodecWriteValue (io : Ioport) (m : Meter) (pos : Nat) : Except Fault (Bool × Ioport) :=
  if m.type = MTYPE_INT then do
    m.inBounds 8 pos
    return (true, ioportWriteEncint io (m.uint pos))
  else if m.type = MTYPE_FRAC then do
    m.inBounds 8 pos
    return (true, ioportWriteEncfrac io (m.frac pos))
  else if m.type = MTYPE_STR then do
    m.inBounds 128 pos
    ioportWriteEncstring io (m.str pos).str
  else .ok (false, io)

/-- The values from position `i` on, `n` of them. -/
def encodeValues (m : Meter) : Nat → Nat → Ioport → Except Fault (Bool × Ioport)
  | 0, _, io => .ok (true, io)
  | n + 1, i, io => do
    let (ok, io) ← pktcodecWriteValue io m i
    if ok then encodeValues m n (i + 1) io else return (false, io)

def encodeMeters : List Meter → Ioport → Except Fault (Bool × Ioport)
  | [], io => .ok (true, io)
  | m :: ms, io => do
    let id := m.id ||| BitVec.ofNat 64 m.count
    let cnt := elemCount m.count
    let io := ioportWriteU64 io id
    if cnt < SZ_EMPTY_VAL then
      let (ok, io) ← encodeValues m cnt 0 io
      if ok then encodeMeters ms io else return (false, io)
    else encodeMeters ms io

def pktcodecEncodeHost (io : Ioport) (h : Host) : Except Fault (Bool × Ioport) :=
  encodeMeters h.meters io

/-- The local variables of `pktcodec_decode_host` that live from one record to the next. -/
structure DecodeState where
  io : Ioport
  host : Host
  lastpfx : MeterId
  strbuf : List UInt8
  deriving DecidableEq

def emptyPrefixed (pfx : MeterId) : Nat → Option Nat → Host → Except Fault Host
  | 0, _, h => .ok h
  | _, none, h => .ok h
  | n + 1, some crsr, h => do
    let h ← h.updateMeter crsr (meterSetEmptyArray h.lastmodified)
    emptyPrefixed pfx n (hostFindPrefix h pfx (some crsr)) h

/-- The treatment of a record with count `SZ_EMPTY_ARRAY`: the children of the name are
emptied, or else a meter of that name. The flag tells that the record is done. -/
def decodeEmptyArray (h : Host) (mid : MeterId) : Except Fault (Bool × Host) :=
  match hostFindPrefix h mid none with
  | some crsr => do return (true, ← emptyPrefixed mid h.meters.length (some crsr) h)
  | none =>
    match hostFindMeterName h mid with
    | some crsr => do return (false, ← h.updateMeter crsr (meterSetEmptyArray h.lastmodified))
    | none => .ok (false, h)

def displaceLoop (pfx : MeterId) : Nat → Host → List UInt8 → Host × List UInt8
  | 0, h, strbuf => (h, strbuf)
  | n + 1, h, strbuf =>
    match hostFindMeterName h pfx with
    | none => (h, strbuf)
    | some crsr =>
      let id := (h.meters[crsr]?.map Meter.id).getD 0
      let strbuf := overwrite strbuf (idChars id)
      let strbuf := strbuf.set (idEnd (idChars id) + 1) 0
      displaceLoop pfx n (hostDeleteMeter h crsr) strbuf

/-- If the id has a prefix, get rid of a possible node that has the prefix for its name. -/
def decodeDisplace (s : DecodeState) (mid : MeterId) : DecodeState :=
  let pfx := idgetprefix mid
  if pfx ≠ 0 ∧ pfx ≠ s.lastpfx then
    let (host, strbuf) := displaceLoop pfx s.host.meters.length s.host s.strbuf
    { s with host := host, lastpfx := pfx, strbuf := strbuf }
  else s

/-- The meter a record is decoded into; none if it is new and the host is full. -/
def decodeTarget (h : Host) (mid : MeterId) : Host × Option Nat :=
  match hostFindMeterName h mid with
  | some M => (h, some M)
  | none =>
    if h.mcount ≤ default_host_max_meters then
      let (h, M) := hostGetMeter h mid
      (h, some M)
    else (h, none)

/-- `meter_setcount` allocates for the type the meter had, then the meter takes the type
of the record. -/
def decodeSetup (now : Nat) (mid : MeterId) (count : Nat) (m : Meter) : Except Fault Meter := do
  let m ← meterSetcount now m count
  return { m with id := m.id &&& (MMASK_NAME ||| MMASK_COUNT) ||| mid &&& MMASK_TYPE }

def Host.updateTarget (h : Host) (M : Option Nat) (f : Meter → Except Fault Meter) :
    Except Fault Host :=
  match M with
  | none => .ok h
  | some i => h.updateMeter i f

/-- One value of the record; none if the type of the record is unknown. -/
def decodeValue (s : DecodeState) (mid : MeterId) (M : Option Nat) (i : Nat) :
    Except Fault (Option DecodeState) :=
  if mid &&& MMASK_TYPE = MTYPE_INT then do
    let (ival, io) := ioportReadEncint s.io
    let host ← s.host.updateTarget M fun m => meterSetUint s.host.lastmodified m i ival
    return some { s with io := io, host := host }
  else if mid &&& MMASK_TYPE = MTYPE_FRAC then do
    let (dval, io) := ioportReadEncfrac s.io
    let host ← s.host.updateTarget M fun m => meterSetFrac s.host.lastmodified m i dval
    return some { s with io := io, host := host }
  else if mid &&& MMASK_TYPE = MTYPE_STR then do
    let (_, strbuf, io) := ioportReadEncstring s.io s.strbuf
    let host ← s.host.updateTarget M fun m => meterSetStr s.host.lastmodified m i strbuf
    return some { s with io := io, host := host, strbuf := strbuf }
  else .ok none

/-- The values from position `i` on, `n` of them. -/
def decodeValues (mid : MeterId) (M : Option Nat) :
    Nat → Nat → DecodeState → Except Fault (Bool × DecodeState)
  | 0, _, s => .ok (true, s)
  | n + 1, i, s => do
    match ← decodeValue s mid M i with
    | none => return (false, s)
    | some s => decodeValues mid M n (i + 1) s

/-- The part of a record's treatment that is about the meter of its name. -/
def decodeMeter (s : DecodeState) (mid : MeterId) : Except Fault (Bool × DecodeState) := do
  let count := (mid &&& MMASK_COUNT).toNat
  let s := decodeDisplace s mid
  let (host, M) := decodeTarget s.host mid
  let host ← host.updateTarget M (decodeSetup host.lastmodified mid count)
  let s := { s with host := host }
  if SZ_EMPTY_VAL ≤ elemCount count then return (true, s)
  decodeValues mid M (elemCount count) 0 s

/-- A record behind its id word; the flag is false if decoding ends in failure. -/
def decodeRecord (s : DecodeState) (mid : MeterId) : Except Fault (Bool × DecodeState) :=
  if (mid &&& MMASK_COUNT).toNat = SZ_EMPTY_ARRAY then do
    let (finished, host) ← decodeEmptyArray s.host mid
    let s := { s with host := host }
    if finished then return (true, s) else decodeMeter s mid
  else decodeMeter s mid

/-- Every round of the loop takes eight bytes at least, so the bytes left bound the rounds. -/
def decodeLoop : Nat → DecodeState → Except Fault (Bool × DecodeState)
  | 0, s => .ok (true, s)
  | n + 1, s => do
    let (mid, io) := ioportReadU64 s.io
    let s := { s with io := io }
    if mid = 0 then return (true, s)
    let (ok, s) ← decodeRecord s mid
    if ok then decodeLoop n s else return (false, s)

/-- `strbuf` is what the decoder's string buffer holds when it is entered. -/
def pktcodecDecodeHost (io : Ioport) (h : Host) (strbuf : List UInt8) :
    Except Fault (Bool × DecodeState) :=
  decodeLoop (io.unread.length + 1) ⟨io, h, 0, strbuf⟩

end Opticon
