import Opticon.Collector.Tenant
import Opticon.Db.Record
import Opticon.Wire.Pktwrap

/-! The handling of packets (`opticon-collector/main.c`). -/

namespace Opticon

/-- What is called of other libraries: the decompression of a buffer, and an address in
text. -/
structure Library where
  inflate : List UInt8 → Option (List UInt8)
  inetNtop : Sockaddr → List UInt8

/-- What is read from the database when a packet is handled: for a tenant that can be opened
and has metadata, the key in it, if there is one; and the current record of a host. -/
structure Database where
  key : Uuid → Option (Option AesKey)
  current : Uuid → Uuid → Option (List UInt8)

/-- A packet as it is received: its bytes and the address they came from, the time, the
database at that time, and what was left in the memory that is used for it. -/
structure Received where
  bytes : List UInt8
  remote : Sockaddr
  tnow : Nat
  db : Database
  mem : Leftover
  strbuf : List UInt8

def Received.netid (p : Received) : BitVec 32 := genNetworkid p.remote

/-- Look up a tenant in memory and in the database, then return the AES key for that
tenant. -/
def resolveTenantkey (db : Database) (tenantid : Uuid) (_serial : BitVec 32) (c : Collector) :
    Option AesKey × Collector :=
  match db.key tenantid with
  | none => (none, c)
  | some b64 =>
    let (_, c) := tenantFind c tenantid
    match b64 with
    | none => (none, c)
    | some key => (some key, c.modifyTenant tenantid fun T => { T with key := key })

/-- Whether a serial is refused as an old one. -/
def oldSerial (lastserial serial : BitVec 32) : Bool :=
  serial ≤ lastserial && (lastserial < 0xfffffff8 || 8 < serial)

/-- Look up a session by netid and sessionid. If it's a valid session, return its current
AES session key. -/
def resolveSessionkey (netid sid serial : BitVec 32) (c : Collector) :
    Except Fault (Option (AesKey × Session) × Collector) :=
  match sessionFind c.sessions netid sid with
  | none => .ok (none, c)
  | some S =>
    if oldSerial S.lastserial serial then .ok (none, c)
    else do
      let h ← c.deref S.host
      if oldSerial h.lastserial serial then return (none, c)
      return (some (S.key, S), c.setHost S.host { h with lastserial := serial })

/-- Put a text into a meter of a host. -/
def setStringMeter (h : Host) (id : MeterId) (text : List UInt8) : Except Fault Host := do
  let (h, i) := hostGetMeter h id
  let h ← h.updateMeter i fun m => meterSetcount h.lastmodified m 0
  h.updateMeter i fun m => meterSetStr h.lastmodified m 0 text

/-- What follows once the session is found or registered: the host gets the address of the
session, and sessions that are too old go. -/
def authDone (lib : Library) (tnow : Nat) (S : Session) (c : Collector) :
    Except Fault Collector := do
  let h ← c.deref S.host
  let h ← setStringMeter { h with lastmodified := tnow } (makeid (asc "link/ip") MTYPE_STR)
    (lib.inetNtop S.remote)
  let c := c.setHost S.host h
  return { c with sessions := sessionExpire c.sessions (tnow - 905) }

/-- What is done for an auth packet that the crypto and decoding layer lets through. -/
def authSession (lib : Library) (p : Received) (auth : Authinfo) (c : Collector) :
    Except Fault Collector :=
  if ¬ uuidvalid auth.hostid then .ok c
  else match sessionFind c.sessions p.netid auth.sessionid with
    | some S =>
      if S.lastserial < auth.serial then
        authDone lib p.tnow S { c with
          sessions := c.sessions.modify p.netid auth.sessionid fun S => { S with
            key := auth.sessionkey
            lastcycle := p.tnow
            lastserial := auth.serial } }
      else .ok c
    | none =>
      let (S, c) := sessionRegister c auth.tenantid auth.hostid p.netid auth.sessionid
        auth.sessionkey p.remote p.tnow
      authDone lib p.tnow S c

def handleAuthPacket (lib : Library) (p : Received) (c : Collector) : Except Fault Collector := do
  let (auth, c) ← ioportUnwrapAuthdata p.bytes p.mem p.tnow (resolveTenantkey p.db) c
  match auth with
  | none => return c
  | some auth => authSession lib p auth c

def meterTimedOut (last : Nat) (m : Meter) : Bool :=
  m.lastmodified < last && 600 < last - m.lastmodified

/-- The status in a host's own meter for it. -/
def storedStatus (h : Host) : Except Fault FString :=
  match h.meters.find? fun m => m.id == makeid (asc "status") MTYPE_STR with
  | none => .ok FString.empty
  | some m => meterGetStr m 0

/-- End an update round. Reaps any dangling meters that have been inactive for more than ten
minutes, but not from stale hosts. -/
def hostEndUpdate (h : Host) : Except Fault Host := do
  let status ← storedStatus h
  let last := h.lastmodified
  if status.str = asc "STALE" then
    return { h with meters := h.meters.map fun m => { m with lastmodified := last } }
  else
    return { h with
      meters := h.meters.filter fun m => !meterTimedOut last m
      mcount := h.mcount - (h.meters.countP (meterTimedOut last) : Nat) }

/-- The synchronisation of metadata, as far as it is about the host's own times, and
`host_begin_update`. -/
def hostBeginUpdate (p : Received) (H : Host) : Host :=
  { H with
    lastmetasync := if 300 < p.tnow - H.lastmetasync then p.tnow else H.lastmetasync
    lastmodified := p.tnow }

/-- A host without meters gets those of its current record. -/
def repopulate (p : Received) (S : Session) (H : Host) : Except Fault Host :=
  if H.mcount = 0 then do
    let (_, H) ← localdbGetCurrent (p.db.current S.tenantid H.uuid) H p.strbuf
    return H
  else .ok H

/-- Write the meter data of a packet into its host. -/
def updateHost (p : Received) (S : Session) (data : List UInt8) (H : Host) :
    Except Fault Host := do
  let H ← repopulate p S (hostBeginUpdate p H)
  let (_, s) ← pktcodecDecodeHost (.reader data) H p.strbuf
  let (H, _) := hostGetMeter s.host (makeid (asc "link/rtt") MTYPE_FRAC)
  let (H, _) := hostGetMeter H (makeid (asc "link/loss") MTYPE_FRAC)
  hostEndUpdate H

def unwrapMeterPacket (lib : Library) (p : Received) (c : Collector) :
    Except Fault (Except UnwrapError (Session × List UInt8) × Collector) :=
  ioportUnwrapMeterdata lib.inflate p.netid p.bytes p.mem p.tnow resolveSessionkey c

def handleMeterPacket (lib : Library) (p : Received) (c : Collector) :
    Except Fault Collector := do
  let (unwrap, c) ← unwrapMeterPacket lib p c
  match unwrap with
  | .error _ => return c
  | .ok (S, data) =>
    let H ← c.deref S.host
    let H ← updateHost p S data H
    return c.setHost S.host H

/-- One round of the main loop. -/
def handlePacket (lib : Library) (p : Received) (c : Collector) : Except Fault Collector :=
  if p.bytes.take 4 = asc "o6a1" then handleAuthPacket lib p c
  else if p.bytes.take 4 = asc "o6m1" then handleMeterPacket lib p c
  else .ok c

end Opticon
