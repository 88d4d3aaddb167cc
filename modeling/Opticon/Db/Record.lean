import Opticon.Db.Index
import Opticon.Lib.Decimal
import Opticon.Lib.Transition
import Opticon.Wire.Packet

/-! The record files of a host (`db_local.c`). -/

namespace Opticon

/-- The files in a host's directory: the data and the index of each date, and the record
that was saved last. -/
structure HostDir where
  db : Nat → Option (List UInt8)
  idx : Nat → Option (List Nat)
  current : Option (List UInt8)

def HostDir.empty : HostDir := ⟨fun _ => none, fun _ => none, none⟩

/-- `LOCALDB_FLAG_NOCREATE` is the flag; without it a missing file is made. -/
def openFile {α : Type} (file : Option (List α)) (nocreate : Bool) : Option (List α) :=
  match file with
  | some bytes => some bytes
  | none => if nocreate then none else some []

def localdbOpenDbfile (dir : HostDir) (dt : Nat) (nocreate : Bool) : Option (List UInt8) :=
  openFile (dir.db dt) nocreate

def localdbOpenIndexfile (dir : HostDir) (dt : Nat) (nocreate : Bool) : Option (List Nat) :=
  openFile (dir.idx dt) nocreate

/-- The file is the current record of the host, if there is one; `strbuf` is what the decoder's
string buffer holds when it is entered. -/
def localdbGetCurrent (current : Option (List UInt8)) (into : Host) (strbuf : List UInt8) :
    Except Fault (Bool × Host) :=
  match current with
  | none => .ok (false, into)
  | some bytes => do
    let (pad, dbport) := ioportReadU64 (.fileReader bytes)
    if pad ≠ 0 then return (false, into)
    let (_, dbport) := ioportReadU64 dbport
    let (res, s) ← pktcodecDecodeHost dbport into strbuf
    return (res, s.host)

def localdbGetRecord (dir : HostDir) (when : Nat) (into : Host) (strbuf : List UInt8) :
    Except Fault (Bool × Host) := do
  let dt := time2date when
  match localdbOpenDbfile dir dt true, localdbOpenIndexfile dir dt true with
  | some dbf, some ixf =>
    match ← localdbFindIndex ixf when with
    | none => return (false, into)
    | some offs =>
      let dbport := Ioport.fileReader (dbf.drop offs)
      let (pad, dbport) := ioportReadU64 dbport
      if pad ≠ 0 then return (false, into)
      let (_, dbport) := ioportReadU64 dbport
      let (res, s) ← pktcodecDecodeHost dbport into strbuf
      return (res, s.host)
  | _, _ => return (false, into)

/-- A record that was saved. -/
structure Saved where
  time : Nat
  host : Host
  deriving DecidableEq

/-- The directory of a host, the time of the last call, and the records saved so far. -/
structure Store where
  dir : HostDir
  last : Option Nat
  log : List Saved

def Store.empty : Store := ⟨.empty, none, []⟩

end Opticon
