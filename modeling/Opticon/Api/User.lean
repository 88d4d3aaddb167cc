import Opticon.Api.Dispatch
import Opticon.Var.Dump

/-! The commands that write the user database (`cmd_user.c`), and a request as a whole. -/

namespace Opticon

/-- The configuration, the hash of the passwords with the salt that was drawn, and whether
the new database can be written. -/
structure UserEnv where
  ihash : BitVec 32
  internal : Bool
  pwcrypt : List UInt8 → List UInt8
  writable : Bool

def errExternalAuth : Reply := ⟨400, some "External authentication configured"⟩
def errAdminRequired : Reply := ⟨403, some "Admin required"⟩

abbrev UserDb := Option (List UInt8)

/-- `DELETE /user/$username` -/
def cmdUserDelete (E : UserEnv) (ctx : ReqContext) (arg : List UrlText) (userdb : UserDb) :
    Except Fault (Reply × UserDb) :=
  if ¬ E.internal then .ok (errExternalAuth, userdb)
  else if ctx.userlevel ≠ .admin then .ok (errAdminRequired, userdb)
  else match arg with
  | [] => .ok (errServerError, userdb)
  | user :: _ => do
    match ← varLoadJson E.ihash userdb with
    | none => .ok (errServerError, userdb)
    | some pwdb =>
      if ¬ E.writable then .ok (errServerError, userdb)
      else .ok (⟨200, none⟩, some (varDump (varDeleteKey E.ihash pwdb user)).2)

/-- The record of a user, which is made for a user that is not there. -/
def userRecord (E : UserEnv) (pwdb : Var) (user : UrlText) :
    Except Fault (Var × Option Nat × Var) :=
  let found := varFindKey E.ihash pwdb user
  match found.2 with
  | some (i, outpw) => .ok (found.1, some i, outpw)
  | none =>
    match varGetDictForkey E.ihash found.1 user with
    | (pwdb, some (place, outpw)) => .ok (pwdb, place, outpw)
    | (_, none) => .error .nullPointer

def setUserFields (E : UserEnv) (outpw : Var) (tenantid : Uuid) (level plainpw : Option (List UInt8)) :
    Var :=
  let outpw := if uuidvalid tenantid then
    varSetForkey E.ihash outpw (asc "tenant") (.str (uuid2str tenantid)) else outpw
  let outpw := match plainpw with
    | some pw => varSetForkey E.ihash outpw (asc "passwd") (.str (E.pwcrypt pw))
    | none => outpw
  match level with
  | some level => varSetForkey E.ihash outpw (asc "level") (.str level)
  | none => outpw

/-- `POST` and `PUT /user/$username` -/
def cmdUserSet (E : UserEnv) (ctx : ReqContext) (arg : List UrlText) (userdb : UserDb) :
    Except Fault (Reply × UserDb) :=
  if ¬ E.internal then .ok (errExternalAuth, userdb)
  else match arg with
  | [] => .ok (errServerError, userdb)
  | user :: _ =>
    let tenantid := mkuuid ((varGetStrForkey E.ihash ctx.bodyjson (asc "tenant")).getD [])
    let level := varGetStrForkey E.ihash ctx.bodyjson (asc "level")
    let plainpw := varGetStrForkey E.ihash ctx.bodyjson (asc "password")
    if ctx.method = .put ∧ (¬ uuidvalid tenantid ∨ plainpw = none) then
      .ok (⟨400, some "Missing required field"⟩, userdb)
    else if ctx.userlevel ≠ .admin then .ok (errAdminRequired, userdb)
    else do
      match ← varLoadJson E.ihash userdb with
      | none => .ok (⟨500, some "Could not load user.db"⟩, userdb)
      | some pwdb =>
        if (varChild E.ihash pwdb user).isNone ∧ ctx.method = .post then
          .ok (⟨404, some "User not found"⟩, userdb)
        else
          let (pwdb, place, outpw) ← userRecord E pwdb user
          let pwdb := pwdb.put place (setUserFields E outpw tenantid level plainpw)
          if ¬ E.writable then .ok (errServerError, userdb)
          else .ok (⟨200, none⟩, some (varDump pwdb).2)

/-- What a request leaves in the user database: no other command touches it. -/
def answerToConnection (T : Tokens) (E : UserEnv) (url : UrlText) (ctx : ReqContext)
    (userdb : UserDb) : Except Fault UserDb :=
  match reqMatchlistDispatch T url setupMatches ctx with
  | .runs _ .user_set arg ctx => Prod.snd <$> cmdUserSet E ctx arg userdb
  | .runs _ .user_delete arg ctx => Prod.snd <$> cmdUserDelete E ctx arg userdb
  | _ => .ok userdb

end Opticon
