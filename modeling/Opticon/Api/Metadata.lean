import Opticon.Api.Dispatch
import Opticon.Crypto.Base64
import Opticon.Var.Document

/-! The requests that edit the metadata of a tenant (`cmd_tenant.c`). The metadata is a file. -/

namespace Opticon

/-- How a command ends before it has stored anything. -/
inductive Halt where
  | fault (f : Fault)
  | reply (r : Reply)

abbrev MetaFile := Option (List UInt8)

/-- `db_get_metadata`, where no command survives without the metadata: the null pointer is
written through, or handed to the writer. -/
def dbGetMetadata (ihash : BitVec 32) (file : MetaFile) : Except Halt Var :=
  match varLoadJson ihash file with
  | .error f => .error (.fault f)
  | .ok none => .error (.fault .nullPointer)
  | .ok (some dbmeta) => .ok dbmeta

/-- `db_set_metadata`: a tree without a text is not stored. -/
def dbSetMetadata (file : MetaFile) (v : Var) : MetaFile :=
  if (varDump v).1 then some (varDump v).2 else file

/-- What is done to the dictionary that `var_get_dict_forkey` returns: to a null pointer if
another kind of child has the key, and to a loose dictionary if there is no parent. -/
def inDictForkey (ihash : BitVec 32) (key : List UInt8) (f : Option Var → Except Halt (Option Var))
    (self : Option Var) : Except Halt (Option Var) :=
  match self with
  | none => do
    let _ ← f (some (.dict (FString.strncpy key) (hashToken ihash key) []))
    return none
  | some v =>
    match varGetDictForkey ihash v key with
    | (v, none) => do
      let _ ← f none
      return some v
    | (v, some (place, child)) => do
      let child' ← f (some child)
      return some (v.put place (child'.getD child))

/-- The part of a URL that names a meter, in one element or two. -/
structure MeterPath where
  first : UrlText
  second : Option UrlText
  valid : argValid 83 first ∧ ∀ s ∈ second, argValid 83 s

/-- `set_meterid`: nothing if the name does not fit. -/
def setMeterid (a : MeterPath) : Option UrlText :=
  match a.second with
  | none => if a.first.length > 11 then none else some a.first
  | some second => if a.first.length + second.length > 10 then none else some (a.first ++ 47 :: second)

/-- What a command has at hand: who asks, the parsed body, and what is left in the memory of
a key and of a meter id that are read before they are written. -/
structure MetaCtx where
  ihash : BitVec 32
  userlevel : AuthLevel
  bodyjson : Var
  stackKey : AesKey
  stackId : UrlText

/-- An error reply about the meter id does not end the command. -/
def MetaCtx.meterid (ctx : MetaCtx) (a : MeterPath) : UrlText := (setMeterid a).getD ctx.stackId

/-- A dictionary in the body of the request. -/
def MetaCtx.bodyDict (ctx : MetaCtx) (key : List UInt8) : Option Var :=
  (varGetDictForkey ctx.ihash ctx.bodyjson key).2.map Prod.snd

def MetaCtx.privileged (ctx : MetaCtx) : Bool := ctx.userlevel = .admin ∨ ctx.userlevel = .prov

/-- The key as it will be stored, if one was sent. -/
def sentKey (ctx : MetaCtx) (vopts : Option Var) : Except Halt (Option (List UInt8)) :=
  match vopts.bind fun v => varChild ctx.ihash v (asc "key") with
  | none => .ok none
  | some vkey =>
    match varGetStr vkey with
    | none => .error (.fault .nullPointer)
    | some strvkey =>
      if strvkey = [] then .error (.reply errBadRequest)
      else .ok (some (aeskeyToBase64 (aeskeyFromBase64 strvkey ctx.stackKey)))

/-- `PUT /$TENANT` -/
def cmdTenantUpdate (ctx : MetaCtx) (file : MetaFile) : Except Halt Var := do
  let vopts := ctx.bodyDict (asc "tenant")
  let strkey ← sentKey ctx vopts
  let sname := vopts.bind fun v => varGetStrForkey ctx.ihash v (asc "name")
  let iquota := (vopts.map fun v => varGetIntForkey ctx.ihash v (asc "quota")).getD 0
  if ¬ ctx.privileged ∧ (sname ≠ none ∨ iquota ≠ 0) then .error (.reply errNotAllowed)
  else
    let dbmeta ← dbGetMetadata ctx.ihash file
    let set (v : Var) (key : String) (val : Option VarValue) : Var :=
      match val with
      | some val => varSetForkey ctx.ihash v (asc key) val
      | none => v
    let dbmeta := set dbmeta "key" (strkey.map .str)
    let dbmeta := set dbmeta "name" (sname.map .str)
    return set dbmeta "quota" (if iquota ≠ 0 then some (.int iquota) else none)

/-- `POST /$TENANT/meta`, where the merge does not look at the body if the metadata is not a
dict. -/
def cmdTenantSetMeta (ctx : MetaCtx) (file : MetaFile) : Except Halt Var := do
  let dbMeta ← dbGetMetadata ctx.ihash file
  match ctx.bodyDict (asc "metadata") with
  | none => if dbMeta.isNode true then .error (.fault .nullPointer) else return dbMeta
  | some inMeta => return varMerge ctx.ihash dbMeta inMeta

/-- A text of the request is copied into the definition, where one that is missing is
deleted. -/
def copystr (ctx : MetaCtx) (req : Option Var) (x : String) (meter : Option Var) :
    Except Halt (Option Var) :=
  match req.bind fun v => varGetStrForkey ctx.ihash v (asc x), meter with
  | some tstr, meter =>
    if tstr.length > 128 then .error (.reply ⟨400, some "String too long"⟩)
    else match meter with
      | none => .error (.fault .nullPointer)
      | some v => .ok (some (varSetForkey ctx.ihash v (asc x) (.str tstr)))
  | none, none => .error (.fault .nullPointer)
  | none, some v => .ok (some (varDeleteKey ctx.ihash v (asc x)))

/-- The fields of a definition. The text of the description is compared with the name of a
type, and there has to be one. -/
def setMeterFields (ctx : MetaCtx) (req meter : Option Var) : Except Halt (Option Var) := do
  let meter ← copystr ctx req "type" meter
  let meter ← copystr ctx req "description" meter
  match req.bind fun v => varGetStrForkey ctx.ihash v (asc "description") with
  | none => .error (.fault .nullPointer)
  | some tstr => if tstr ≠ asc "table" then copystr ctx req "unit" meter else return meter

/-- An edit of the definition of a meter. -/
def inMeter (ctx : MetaCtx) (a : MeterPath) (f : Option Var → Except Halt (Option Var))
    (dbmeta : Var) : Except Halt Var := do
  let v ← inDictForkey ctx.ihash (asc "meter") (inDictForkey ctx.ihash (ctx.meterid a) f) (some dbmeta)
  return v.getD dbmeta

/-- `POST /$TENANT/meter/$meterid[/$subid]` -/
def cmdTenantSetMeter (ctx : MetaCtx) (a : MeterPath) (file : MetaFile) : Except Halt Var := do
  let dbmeta ← dbGetMetadata ctx.ihash file
  let req := ctx.bodyDict (asc "meter")
  let types := ["integer", "frac", "table", "string"].map asc
  match req.bind fun v => varGetStrForkey ctx.ihash v (asc "type") with
  | none => .error (.reply errBadRequest)
  | some tstr =>
    if tstr ∉ types then .error (.reply errBadRequest)
    else inMeter ctx a (setMeterFields ctx req) dbmeta

/-- `var_delete_key`, which reads what it is given. -/
def deleteKey (ctx : MetaCtx) (key : List UInt8) (v : Option Var) : Except Halt (Option Var) :=
  match v with
  | none => .error (.fault .nullPointer)
  | some v => .ok (some (varDeleteKey ctx.ihash v key))

/-- `DELETE /$TENANT/meter/$meterid[/$subid]` -/
def cmdTenantDeleteMeter (ctx : MetaCtx) (a : MeterPath) (file : MetaFile) : Except Halt Var := do
  let dbmeta ← dbGetMetadata ctx.ihash file
  let v ← inDictForkey ctx.ihash (asc "meter") (deleteKey ctx (ctx.meterid a)) (some dbmeta)
  return v.getD dbmeta

def watcherLevels : List (List UInt8) := [asc "warning", asc "alert", asc "critical"]

/-- A level of the watcher that was sent takes the place of the one in the definition. -/
def setLevel (ctx : MetaCtx) (ctxwatcher : Option Var) (level : List UInt8) (meter : Option Var) :
    Except Halt (Option Var) :=
  match ctxwatcher.bind fun v => varChild ctx.ihash v level with
  | none => .ok meter
  | some tv =>
    inDictForkey ctx.ihash level (fun v => match v with
      | none => .error (.fault .nullPointer)
      | some v => .ok (some (varCopy ctx.ihash v tv))) meter

def setLevels (ctx : MetaCtx) (ctxwatcher : Option Var) (meter : Option Var) :
    Except Halt (Option Var) :=
  let type := meter.bind fun v => varGetStrForkey ctx.ihash v (asc "type")
  if type = some (asc "table") then
    .error (.reply ⟨400, some "Cannot set watcher for table root"⟩)
  else watcherLevels.foldlM (fun meter level => setLevel ctx ctxwatcher level meter) meter

/-- `POST /$TENANT/watcher/$METERID`. That the reply is made from a null pointer if the body
has no dictionary of this name comes after the metadata is stored. -/
def cmdTenantSetWatcher (ctx : MetaCtx) (a : MeterPath) (file : MetaFile) : Except Halt Var := do
  let dbmeta ← dbGetMetadata ctx.ihash file
  inMeter ctx a (setLevels ctx (ctx.bodyDict (asc "watcher"))) dbmeta

/-- `DELETE /$TENANT/watcher/$METERID` -/
def cmdTenantDeleteWatcher (ctx : MetaCtx) (a : MeterPath) (file : MetaFile) : Except Halt Var := do
  let dbmeta ← dbGetMetadata ctx.ihash file
  inMeter ctx a (fun meter => watcherLevels.foldlM (fun meter level => deleteKey ctx level meter) meter)
    dbmeta

inductive MetaCmd where
  | update
  | set_meta
  | set_meter (a : MeterPath)
  | delete_meter (a : MeterPath)
  | set_watcher (a : MeterPath)
  | delete_watcher (a : MeterPath)

def MetaCmd.run (ctx : MetaCtx) (file : MetaFile) : MetaCmd → Except Halt Var
  | .update => cmdTenantUpdate ctx file
  | .set_meta => cmdTenantSetMeta ctx file
  | .set_meter a => cmdTenantSetMeter ctx a file
  | .delete_meter a => cmdTenantDeleteMeter ctx a file
  | .set_watcher a => cmdTenantSetWatcher ctx a file
  | .delete_watcher a => cmdTenantDeleteWatcher ctx a file

/-- A request on the metadata of a tenant, with the text of its body. -/
structure MetaRequest where
  cmd : MetaCmd
  userlevel : AuthLevel
  body : Option CString
  stackKey : AesKey
  stackId : UrlText

/-- `req_context_parse_body`, whose result nobody looks at: the body is what was parsed. -/
def parseBody (ihash : BitVec 32) (body : Option CString) : Except Fault Var :=
  match body with
  | none => .ok (varAlloc .null)
  | some buf =>
    match varParseJson ihash (varAlloc .null) buf with
    | .returned _ v _ _ => .ok v
    | _ => .error .outOfBounds

/-- The metadata after a request. A command that stops, or ends the process, stores nothing. -/
def MetaRequest.apply (ihash : BitVec 32) (r : MetaRequest) (file : MetaFile) : MetaFile :=
  match parseBody ihash r.body with
  | .error _ => file
  | .ok bodyjson =>
    match r.cmd.run ⟨ihash, r.userlevel, bodyjson, r.stackKey, r.stackId⟩ file with
    | .error _ => file
    | .ok dbmeta => dbSetMetadata file dbmeta

end Opticon
