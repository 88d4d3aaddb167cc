import Mathlib.Logic.Function.Basic
import Opticon.Crypto.Aes
import Opticon.Lib.UpdateFirst
import Opticon.Meter.Host

/-! The session table (`auth.c`). -/

namespace Opticon

/-- The address a packet came from. -/
inductive Sockaddr where
  | inet (addr : BitVec 32)
  | inet6 (a b c d : BitVec 32)
  | other
  deriving DecidableEq

/-- Generate a 32 bit network identifier out of an address. -/
def genNetworkid : Sockaddr → BitVec 32
  | .inet addr => addr
  | .inet6 a b c d => a ^^^ b ^^^ c ^^^ d
  | .other => 0

/-- A session; its host is the address of one. -/
structure Session where
  tenantid : Uuid
  hostid : Uuid
  addr : BitVec 32
  sessid : BitVec 32
  lastserial : BitVec 32
  key : AesKey
  lastcycle : Nat
  remote : Sockaddr
  host : Nat
  expired : Bool
  deriving DecidableEq

/-- The lists of the 256 buckets. -/
abbrev Sessiondb := BitVec 8 → List Session

def Sessiondb.empty : Sessiondb := fun _ => []

def sessionBucket (addr sessid : BitVec 32) : BitVec 8 :=
  let sid := sessid ^^^ addr
  (sid >>> 24).setWidth 8 ^^^ ((sid &&& 0x00ff0000) >>> 16).setWidth 8 ^^^
    ((sid &&& 0x0000ff00) >>> 8).setWidth 8 ^^^ (sid &&& 0xff).setWidth 8

/-- The session a lookup stops at. -/
def Session.matches (addr sessid : BitVec 32) (s : Session) : Bool :=
  s.addr == addr && s.sessid == sessid && !s.expired

def sessionFind (db : Sessiondb) (addr sessid : BitVec 32) : Option Session :=
  (db (sessionBucket addr sessid)).find? (Session.matches addr sessid)

/-- Write to the session a lookup returns. -/
def Sessiondb.modify (db : Sessiondb) (addr sessid : BitVec 32) (f : Session → Session) :
    Sessiondb :=
  Function.update db (sessionBucket addr sessid)
    (updateFirst (Session.matches addr sessid) f (db (sessionBucket addr sessid)))

/-- A new session is linked in at the top of its bucket. -/
def sessionLink (db : Sessiondb) (s : Session) : Sessiondb :=
  Function.update db (sessionBucket s.addr s.sessid) (s :: db (sessionBucket s.addr s.sessid))

/-- Invalidate all sessions for a given tenant id. -/
def sessiondbRemoveTenant (db : Sessiondb) (tenantid : Uuid) : Sessiondb := fun i =>
  (db i).map fun s => if s.tenantid = tenantid then { s with expired := true } else s

/-- A session that is to go is marked, and the `continue` behind the mark comes back to it,
so that it is unlinked in the same pass. -/
def sessionExpire (db : Sessiondb) (cutoff : Nat) : Sessiondb := fun i =>
  (db i).filter fun s => !(s.expired || s.lastcycle < cutoff)

end Opticon
