import Opticon.Api.Metadata

/-! The metadata of a host, and the requests that edit it (`cmd_host.c`). The type of a meter
comes from the definitions for the tenant (`cmd_tenant.c`). -/

namespace Opticon

/-- `db_get_hostmeta`: an unset var if there is no file, or if it cannot be parsed. -/
def dbGetHostmeta (ihash : BitVec 32) (file : MetaFile) : Except Fault Var := do
  let dbmeta ← varLoadJson ihash file
  return dbmeta.getD (varAlloc .null)

section Definitions

/-- A level of the tenant takes the place of the one there is, unless that is no dictionary. -/
def overlayLevel (ihash : BitVec 32) (tc cc : Var) (level : List UInt8) : Var :=
  match varChild ihash tc level with
  | none => cc
  | some tvar =>
    match varGetDictForkey ihash cc level with
    | (cc, none) => cc
    | (cc, some (place, ctrig)) =>
      cc.put place (varSetForkey ihash (varCopy ihash ctrig tvar) (asc "origin") (.str (asc "tenant")))

/-- A text of the tenant's definition, if there is one. -/
def overlayStr (ihash : BitVec 32) (tc cc : Var) (key : List UInt8) : Var :=
  match varGetStrForkey ihash tc key with
  | none => cc
  | some tstr => varSetForkey ihash cc key (.str tstr)

/-- The definition of the tenant over the one of the configuration. -/
def overlayMeter (ihash : BitVec 32) (watchonly : Bool) (cmeters tc : Var) : Var :=
  let found := varFindKey ihash cmeters tc.id.str
  let cell := match found.2 with
    | some (i, cc) => (found.1, some i, cc)
    | none => varForkey ihash found.1 tc.id.str fun id h => Var.node true id h []
  let cc := overlayStr ihash tc cell.2.2 (asc "type")
  let cc :=
    if watchonly then cc
    else
      let cc := overlayStr ihash tc cc (asc "description")
      let cc := overlayStr ihash tc cc (asc "unit")
      if found.2.isSome then cc else varSetForkey ihash cc (asc "origin") (.str (asc "tenant"))
  cell.1.put cell.2.1 (watcherLevels.foldl (overlayLevel ihash tc) cc)

/-- A level of the host: its value goes into a definition that has one. -/
def adjustLevel (ihash : BitVec 32) (hc cc : Var) (level : List UInt8) : Option Var :=
  match varChild ihash hc level with
  | none => some cc
  | some tvar =>
    let found := varFindKey ihash cc level
    match found.2 with
    | none => none
    | some (i, cdef) =>
      let foundVal := varFindKey ihash cdef (asc "val")
      match foundVal.2 with
      | none => none
      | some (j, cval) =>
        let cdef := match varChild ihash tvar (asc "val") with
          | none => foundVal.1
          | some val => foundVal.1.put (some j) (varCopy ihash cval val)
        let cdef := varSetForkey ihash cdef (asc "origin") (.str (asc "host"))
        let cdef := varSetForkey ihash cdef (asc "weight")
          (.double (varGetDoubleForkey ihash tvar (asc "weight")))
        some (found.1.put (some i) cdef)

/-- The meters of the host. Nothing is returned for one without a type, or with another type than
the definition. -/
def adjustMeters (ihash : BitVec 32) : List Var → Var → Except Fault (Option Var)
  | [], cmeters => .ok (some cmeters)
  | hc :: rest, cmeters =>
    match varGetDictForkey ihash cmeters hc.id.str with
    | (cmeters, none) => adjustMeters ihash rest cmeters
    | (cmeters, some (place, cc)) =>
      match varGetStrForkey ihash hc (asc "type"), varGetStrForkey ihash cc (asc "type") with
      | none, _ => .ok none
      | some _, none => .error .nullPointer
      | some tstr, some origtype =>
        if tstr ≠ origtype then .ok none
        else match watcherLevels.foldlM (adjustLevel ihash hc) cc with
          | none => .ok none
          | some cc => adjustMeters ihash rest (cmeters.put place cc)

/-- What is listed of a meter. -/
def listedMeter (ihash : BitVec 32) (watchonly : Bool) (crsr : Var) : Option Var :=
  if watchonly then
    if watcherLevels.all fun level => (varChild ihash crsr level).isNone then none
    else some (varDeleteKey ihash (varDeleteKey ihash crsr (asc "description")) (asc "unit"))
  else some (watcherLevels.foldl (varDeleteKey ihash) crsr)

/-- The dictionary below `meter`, or below `watcher`: the definitions of the configuration, those
of the tenant over them, and the adjustments of a host, if there is a host. -/
def collectMeterdefs (ihash : BitVec 32) (mconf : Var) (tenantmeta : MetaFile)
    (hostmeta : Option MetaFile) (watchonly : Bool) : Except Fault (Option Var) := do
  let tenantmeta := (← varLoadJson ihash tenantmeta).getD (varAlloc .null)
  let cmeters := varCopy ihash (.dict FString.empty 0 []) mconf
  match (varGetDict ihash tenantmeta (asc "meter")).2 with
  | none => .error .nullPointer
  | some tmeters =>
    let cmeters := tmeters.children.foldl (overlayMeter ihash watchonly) cmeters
    let listed : Var → Var
      | .dict id h cs => .dict id h (cs.filterMap (listedMeter ihash watchonly))
      | v => v
    match hostmeta with
    | none => return some (listed cmeters)
    | some hostmeta =>
      let hostmeta ← dbGetHostmeta ihash hostmeta
      match (varGetDict ihash hostmeta (asc "meter")).2 with
      | none => .error .nullPointer
      | some hmeters =>
        if watchonly then return (← adjustMeters ihash hmeters.children cmeters).map listed
        else return some (listed cmeters)

end Definitions

/-- A request for a watcher of a host, with what the definitions of the meters are made of. -/
structure HostPost where
  path : MeterPath
  body : Option CString
  mconf : Var
  tenantmeta : MetaFile

/-- The type of a meter in the definitions, an integer if there is none. -/
def HostPost.type (ihash : BitVec 32) (r : HostPost) (meterid : UrlText) : Except Fault (List UInt8) := do
  let defs ← collectMeterdefs ihash r.mconf r.tenantmeta none false
  let def_meter := defs.bind fun v => (varGetDict ihash v meterid).2
  return (def_meter.bind fun v => varGetStrForkey ihash v (asc "type")).getD (asc "integer")

/-- A value takes the place of the one there is. The weight is set on the value. -/
def setHostVal (ihash : BitVec 32) (nval : Var) (weight : ℚ) (w : Var) : Var :=
  let r := varGetOrMake ihash w (asc "val")
  r.1.put r.2.1 (varSetForkey ihash (varCopy ihash r.2.2 nval) (asc "weight") (.double weight))

/-- A level of the watcher that was sent. -/
def setHostLevel (ihash : BitVec 32) (in_watcher : Option Var) (level : List UInt8)
    (meter : Option Var) : Except Halt (Option Var) :=
  match in_watcher.bind fun v => varChild ihash v level with
  | none => .ok meter
  | some tvar =>
    inDictForkey ihash level (fun w =>
      match varChild ihash tvar (asc "val") with
      | none => .error (.reply errBadRequest)
      | some nval =>
        let weight := varGetDoubleForkey ihash tvar (asc "weight")
        let weight := if weight < 1 / 10000 then 1 else weight
        .ok (w.map (setHostVal ihash nval weight))) meter

/-- The type is copied from the definition; of the levels only what is actually there. -/
def setHostMeter (ihash : BitVec 32) (tp : List UInt8) (in_watcher meter : Option Var) :
    Except Halt (Option Var) :=
  match meter with
  | none => .error (.fault .nullPointer)
  | some meter =>
    watcherLevels.foldlM (fun meter level => setHostLevel ihash in_watcher level meter)
      (some (varSetForkey ihash meter (asc "type") (.str tp)))

/-- `db_get_hostmeta` for a command. -/
def loadHostmeta (ihash : BitVec 32) (file : MetaFile) : Except Halt Var :=
  match dbGetHostmeta ihash file with
  | .error f => .error (.fault f)
  | .ok hmeta => .ok hmeta

/-- `POST /$TENANT/host/$HOST/watcher/$METERID` -/
def cmdHostSetWatcher (ihash : BitVec 32) (r : HostPost) (bodyjson : Var) (file : MetaFile) :
    Except Halt Var :=
  match setMeterid r.path with
  | none => .error (.reply errBadRequest)
  | some meterid =>
    match r.type ihash meterid with
    | .error f => .error (.fault f)
    | .ok tp => do
      let hmeta ← loadHostmeta ihash file
      if tp = asc "table" then .error (.reply ⟨400, some "Cannot set watcher for table root"⟩)
      else
        let in_watcher := (varGetDict ihash bodyjson (asc "watcher")).2
        let v ← inDictForkey ihash (asc "meter")
          (inDictForkey ihash meterid (setHostMeter ihash tp in_watcher)) (some hmeta)
        return v.getD hmeta

/-- `var_delete_key` for each level, which reads what it is given. -/
def deleteHostLevels (ihash : BitVec 32) (meter : Option Var) : Except Halt (Option Var) :=
  match meter with
  | none => .error (.fault .nullPointer)
  | some meter => .ok (some (watcherLevels.foldl (varDeleteKey ihash) meter))

/-- `DELETE /$TENANT/host/$HOST/watcher/$METERID` -/
def cmdHostDeleteWatcher (ihash : BitVec 32) (path : MeterPath) (file : MetaFile) : Except Halt Var :=
  match setMeterid path with
  | none => .error (.reply errBadRequest)
  | some meterid => do
    let hmeta ← loadHostmeta ihash file
    let v ← inDictForkey ihash (asc "meter")
      (inDictForkey ihash meterid (deleteHostLevels ihash)) (some hmeta)
    return v.getD hmeta

inductive HostRequest where
  | set_watcher (r : HostPost)
  | delete_watcher (path : MeterPath)

def HostRequest.run (ihash : BitVec 32) (file : MetaFile) : HostRequest → Except Halt Var
  | .set_watcher r =>
    match parseBody ihash r.body with
    | .error f => .error (.fault f)
    | .ok bodyjson => cmdHostSetWatcher ihash r bodyjson file
  | .delete_watcher path => cmdHostDeleteWatcher ihash path file

/-- The metadata after a request. A command that stops, or ends the process, stores nothing. -/
def HostRequest.apply (ihash : BitVec 32) (r : HostRequest) (file : MetaFile) : MetaFile :=
  match r.run ihash file with
  | .error _ => file
  | .ok hmeta => dbSetMetadata file hmeta

end Opticon
