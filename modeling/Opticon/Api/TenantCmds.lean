import Opticon.Api.Metadata

/-! The commands on a tenant to their end (`cmd_tenant.c`): what is stored, and what is answered.
A tenant that is asked about is there; about another one the answer is that it is not found. -/

namespace Opticon

structure Answer where
  status : Nat
  response : Var

/-- What a command leaves behind, with its answer unless the process has ended. -/
structure Ending (σ : Type) where
  stored : σ
  answer : Except Fault Answer

def errConflict : Reply := ⟨409, some "Request conflicts with existing resources"⟩

/-- `err_generic` and its siblings: the text goes into the response. -/
def errGeneric (ihash : BitVec 32) (env : Var) (r : Reply) : Answer :=
  match r.error with
  | none => ⟨r.status, env⟩
  | some text => ⟨r.status, varSetForkey ihash env (asc "error") (.str (asc text))⟩

/-- A dict in the response is written to. -/
def inResponse (ihash : BitVec 32) (key : List UInt8) (f : Var → Except Fault Var) (env : Var) :
    Except Fault Var :=
  match varGetDictForkey ihash env key with
  | (_, none) => .error .nullPointer
  | (env, some (place, child)) => do
    let child ← f child
    return env.put place child

/-- `var_copy` from what may be a null pointer. -/
def copyFrom (ihash : BitVec 32) (orig : Option Var) (self : Var) : Except Fault Var :=
  match orig with
  | none => .error .nullPointer
  | some orig => .ok (varCopy ihash self orig)

/-- The key in the body, or else the one that `aeskey_create` makes. -/
def createKey (ctx : MetaCtx) (randomKey : AesKey) (vopts : Option Var) : Except Fault AesKey :=
  match vopts.bind fun v => varChild ctx.ihash v (asc "key") with
  | none => .ok randomKey
  | some vkey =>
    match varGetStr vkey with
    | none => .error .nullPointer
    | some b64 => .ok (aeskeyFromBase64 b64 ctx.stackKey)

/-- The metadata of a new tenant, as it is shown in the response too. -/
def createMeta (ihash : BitVec 32) (key : AesKey) (sname : List UInt8) (outmeta : Var) : Var :=
  let outmeta := varSetForkey ihash outmeta (asc "key") (.str (aeskeyToBase64 key))
  varSetForkey ihash outmeta (asc "name") (.str sname)

/-- `POST /$TENANT`, where there may be a tenant with this id. -/
def cmdTenantCreate (ctx : MetaCtx) (randomKey : AesKey) (tenant : Option MetaFile) :
    Ending (Option MetaFile) :=
  let env := varAlloc .null
  if (varChild ctx.ihash ctx.bodyjson (asc "tenant")).isNone then
    ⟨tenant, .ok (errGeneric ctx.ihash env errBadRequest)⟩
  else
    let vopts := ctx.bodyDict (asc "tenant")
    match createKey ctx randomKey vopts with
    | .error f => ⟨tenant, .error f⟩
    | .ok key =>
      let sname := (vopts.bind fun v => varGetStrForkey ctx.ihash v (asc "name")).getD []
      if sname = [] then ⟨tenant, .ok (errGeneric ctx.ihash env errBadRequest)⟩
      else
        match inResponse ctx.ihash (asc "tenant") (fun v => .ok (createMeta ctx.ihash key sname v)) env with
        | .error f => ⟨tenant, .error f⟩
        | .ok env =>
          if tenant.isSome then ⟨tenant, .ok (errGeneric ctx.ihash env errConflict)⟩
          else
            let outmeta := (varGetDict ctx.ihash env (asc "tenant")).2
            ⟨some (outmeta.bind fun v => dbSetMetadata none v), .ok ⟨200, env⟩⟩

/-- The definition of a meter in the metadata: a loose dictionary if the metadata has no
dictionary for the meters, and a null pointer if something else has the place. -/
def meterIn (ctx : MetaCtx) (meterid : UrlText) (dbmeta : Var) : Option Var :=
  match (varGetDict ctx.ihash dbmeta (asc "meter")).2 with
  | none => some (.dict (FString.strncpy meterid) (hashToken ctx.ihash meterid) [])
  | some meters => (varGetDict ctx.ihash meters meterid).2

/-- The definition of a meter as `setMeterFields` leaves it. -/
def definedMeter (ctx : MetaCtx) (a : MeterPath) (file : MetaFile) : Option Var :=
  match dbGetMetadata ctx.ihash file with
  | .error _ => none
  | .ok dbmeta =>
    match setMeterFields ctx (ctx.bodyDict (asc "meter")) (meterIn ctx (ctx.meterid a) dbmeta) with
    | .error _ => none
    | .ok meter => meter

/-- The response of `PUT /$TENANT` shows what was set. -/
def updateResponse (ctx : MetaCtx) (env : Var) : Except Fault Var :=
  let vopts := ctx.bodyDict (asc "tenant")
  let strkey : Option (List UInt8) := match sentKey ctx vopts with
    | .ok strkey => strkey
    | .error _ => none
  let sname := vopts.bind fun v => varGetStrForkey ctx.ihash v (asc "name")
  let iquota := (vopts.map fun v => varGetIntForkey ctx.ihash v (asc "quota")).getD 0
  let set (v : Var) (key : String) (val : Option VarValue) : Var :=
    match val with
    | some val => varSetForkey ctx.ihash v (asc key) val
    | none => v
  inResponse ctx.ihash (asc "tenant") (fun outmeta =>
    let outmeta := set outmeta "key" (strkey.map .str)
    let outmeta := set outmeta "name" (sname.map .str)
    .ok (set outmeta "quota" (if iquota ≠ 0 then some (.int iquota) else none))) env

/-- The response of a command that has stored the metadata. -/
def MetaCmd.response (ctx : MetaCtx) (file : MetaFile) (dbmeta env : Var) : MetaCmd → Except Fault Var
  | .update => updateResponse ctx env
  | .set_meta => inResponse ctx.ihash (asc "metadata") (copyFrom ctx.ihash (some dbmeta)) env
  | .set_meter a => inResponse ctx.ihash (asc "meter")
      (inResponse ctx.ihash (ctx.meterid a) (copyFrom ctx.ihash (definedMeter ctx a file))) env
  | .delete_meter a => inResponse ctx.ihash (asc "meter")
      (fun v => .ok (varSetForkey ctx.ihash v (asc "deleted") (.str (ctx.meterid a)))) env
  | .set_watcher _ => inResponse ctx.ihash (asc "watcher")
      (copyFrom ctx.ihash (ctx.bodyDict (asc "watcher"))) env
  | .delete_watcher a => inResponse ctx.ihash (asc "watcher")
      (fun v => .ok (varSetForkey ctx.ihash v (asc "deleted") (.str (ctx.meterid a)))) env

/-- The part of the URL that names a meter, for the commands that take one. -/
def MetaCmd.meterPath : MetaCmd → Option MeterPath
  | .update | .set_meta => none
  | .set_meter a | .delete_meter a | .set_watcher a | .delete_watcher a => some a

/-- The response so far, when the metadata is opened: a meter id that does not fit has left an
error in it. -/
def MetaCmd.env (ihash : BitVec 32) (cmd : MetaCmd) : Var :=
  if ∃ a ∈ cmd.meterPath, setMeterid a = none then
    (errGeneric ihash (varAlloc .null) errBadRequest).response
  else varAlloc .null

/-- A command on the metadata of a tenant. -/
def MetaCmd.ending (ctx : MetaCtx) (file : MetaFile) (cmd : MetaCmd) : Ending MetaFile :=
  match cmd.run ctx file with
  | .error (.fault f) => ⟨file, .error f⟩
  | .error (.reply r) => ⟨file, .ok (errGeneric ctx.ihash (cmd.env ctx.ihash) r)⟩
  | .ok dbmeta =>
    ⟨dbSetMetadata file dbmeta, (cmd.response ctx file dbmeta (cmd.env ctx.ihash)).map (Answer.mk 200)⟩

end Opticon
