import Opticon.Collector.Tenant
import Opticon.Crypto.Base64
import Opticon.Meter.UuidText
import Opticon.Var.Access
import Opticon.Var.TimeText

/-! The session table as a document, which a collector writes when a session begins and reads
when it starts (`auth.c`). -/

namespace Opticon

/-- `inet_ntop` and `inet_pton`, the latter with what it leaves in the address when it fails.
`ntopOther` is printed of an address of any other family. -/
structure Inet where
  ntop4 : BitVec 32 → List UInt8
  ntop6 : BitVec 32 → BitVec 32 → BitVec 32 → BitVec 32 → List UInt8
  ntopOther : List UInt8
  pton4 : List UInt8 → Sockaddr
  pton6 : List UInt8 → Sockaddr

def ip2str (net : Inet) : Sockaddr → List UInt8
  | .inet addr => net.ntop4 addr
  | .inet6 a b c d => net.ntop6 a b c d
  | .other => net.ntopOther

def str2ip (net : Inet) (addrbuf : List UInt8) : Sockaddr :=
  if 58 ∈ addrbuf then net.pton6 addrbuf else net.pton4 addrbuf

/-- What is set in the dictionary of a session. -/
def sessionFields (net : Inet) (s : Session) : List (List UInt8 × VarValue) :=
  [(asc "tenantid", .str (uuid2str s.tenantid)), (asc "hostid", .str (uuid2str s.hostid)),
    (asc "addr", .int (s.addr.setWidth 64)), (asc "sessid", .int (s.sessid.setWidth 64)),
    (asc "lastcycle", .str (time2utcstr s.lastcycle)),
    (asc "lastserial", .int (s.lastserial.setWidth 64)),
    (asc "key", .str (aeskeyToBase64 s.key)), (asc "remote", .str (ip2str net s.remote))]

def saveSession (net : Inet) (ihash : BitVec 32) (v_session : Var) (s : Session) : Var :=
  let r := varAddDict ihash v_session
  match r.2 with
  | some (place, v_sess) =>
    r.1.put place ((sessionFields net s).foldl (fun v f => varSetForkey ihash v f.1 f.2) v_sess)
  | none => r.1

/-- The sessions that are saved, in the order of the buckets. -/
def savedSessions (db : Sessiondb) : List Session :=
  (List.range 256).flatMap fun i => (db (BitVec.ofNat 8 i)).filter (!·.expired)

def saveSessions (net : Inet) (ihash : BitVec 32) (saved : List Session) : Var :=
  let r := varGetArrayForkey ihash (varAlloc .null) (asc "session")
  match r.2 with
  | some (place, v_session) => r.1.put place (saved.foldl (saveSession net ihash) v_session)
  | none => r.1

/-- Encode the sessionlist ready for JSON export -/
def sessiondbSave (net : Inet) (ihash : BitVec 32) (db : Sessiondb) : Var :=
  saveSessions net ihash (savedSessions db)

def varGetUuidForkey (ihash : BitVec 32) (self : Var) (key : List UInt8) : Uuid :=
  match varGetStrForkey ihash self key with
  | some str => mkuuid str
  | none => uuidnil

/-- A time before 1970 is taken for its start. `tm` is what the stack holds. -/
def varGetTime (tm : Tm) : Var → Nat
  | .leaf _ _ (.int ival) => ival.toNat
  | .leaf _ _ (.str sval) => (utcstr2time tm sval).toNat
  | _ => 0

def varGetTimeForkey (tm : Tm) (ihash : BitVec 32) (self : Var) (key : List UInt8) : Nat :=
  ((varChild ihash self key).map (varGetTime tm)).getD 0

/-- A process that starts: the hash it begins with, what its stack holds, and what is done to a
host that a session was restored for. -/
structure Restart where
  ihash : BitVec 32
  tm : Tm
  res : AesKey
  cb : Uuid → Host → Host

/-- One session of the list. A key or an address that is missing is a null pointer. -/
def restoreSession (net : Inet) (p : Restart) (c : Collector) (crsr : Var) :
    Except Fault Collector := do
  let tenantid := varGetUuidForkey p.ihash crsr (asc "tenantid")
  let hostid := varGetUuidForkey p.ihash crsr (asc "hostid")
  let some key := varGetStrForkey p.ihash crsr (asc "key") | .error .nullPointer
  let some remote := varGetStrForkey p.ihash crsr (asc "remote") | .error .nullPointer
  let (h, c) := hostFind c tenantid hostid
  let host ← c.deref h
  let c := c.setHost h (p.cb tenantid host)
  let s : Session :=
    { tenantid := tenantid
      hostid := hostid
      addr := (varGetIntForkey p.ihash crsr (asc "addr")).setWidth 32
      sessid := (varGetIntForkey p.ihash crsr (asc "sessid")).setWidth 32
      lastserial := (varGetIntForkey p.ihash crsr (asc "lastserial")).setWidth 32
      key := aeskeyFromBase64 key p.res
      lastcycle := varGetTimeForkey p.tm p.ihash crsr (asc "lastcycle")
      remote := str2ip net remote
      host := h
      expired := false }
  .ok { c with sessions := sessionLink c.sessions s }

/-- Restore the sessionlist from imported JSON -/
def sessiondbRestore (net : Inet) (p : Restart) (list : Var) (c : Collector) :
    Except Fault Collector :=
  match (varGetArrayForkey p.ihash list (asc "session")).2 with
  | some (_, v_session) => v_session.children.foldlM (restoreSession net p) c
  | none => .error .nullPointer

end Opticon
