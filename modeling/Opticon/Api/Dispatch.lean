import Opticon.Api.Match
import Opticon.Var.Access

/-! The routing table of the API and its filters (`main.c`, `req_context.c`). -/

namespace Opticon

inductive ReqMethod where
  | get | post | put | delete | options | other
  deriving DecidableEq

def REQ_UPDATE : List ReqMethod := [.post, .put]
def REQ_ANY : List ReqMethod := [.get, .post, .put, .delete, .options, .other]

inductive AuthLevel where
  | guest | user | prov | admin
  deriving DecidableEq

/-- The parts of a request context that are read before a command answers. -/
structure ReqContext where
  method : ReqMethod
  remote : List UInt8
  bodyjson : Var
  opticon_token : Uuid
  external_token : Option (List UInt8)
  userlevel : AuthLevel
  auth_tenants : List Uuid
  tenantid : Uuid
  hostid : Uuid

/-- An answer that ends a request. -/
structure Reply where
  status : Nat
  error : Option String
  deriving DecidableEq

def errServerError : Reply := ⟨500, some "Internal Server Error"⟩
def errUnauthorized : Reply := ⟨403, some "Unauthorized access"⟩
def errNotAllowed : Reply := ⟨401, some "Permission denied"⟩
def errNotFound : Reply := ⟨404, some "Resource not found"⟩
def errBadRequest : Reply := ⟨400, some "Bad request"⟩

/-- What the program knows about tokens: its sessions, the administrator's token and the
address it is good for, the token cache, and the service that is asked about other tokens. -/
structure Tokens where
  authsessionFind : Uuid → Option (AuthLevel × Uuid)
  admintoken : Uuid
  adminhost : List UInt8
  tokencacheLookup : List UInt8 → Option (AuthLevel × List Uuid)
  handleExternalToken : ReqContext → Option (AuthLevel × List Uuid)

/-- Each filter gives an answer, or lets a request pass on. -/
inductive Filter where
  | addCors | checkValiduser | checkAdmin | checkTenant | checkHost
  deriving DecidableEq

def fltAddCors (ctx : ReqContext) : Except Reply ReqContext :=
  if ctx.method = .options then .error ⟨200, none⟩ else .ok ctx

def fltCheckValiduser (T : Tokens) (ctx : ReqContext) : Except Reply ReqContext :=
  if uuidvalid ctx.opticon_token then
    match T.authsessionFind ctx.opticon_token with
    | some (userlevel, tenant) => .ok { ctx with userlevel, auth_tenants := [tenant] }
    | none =>
      if T.adminhost ≠ ctx.remote then .ok { ctx with userlevel := .guest }
      else if ctx.opticon_token = T.admintoken then .ok { ctx with userlevel := .admin }
      else .ok { ctx with userlevel := .guest }
  else
    match ctx.external_token with
    | none => .error errUnauthorized
    | some token =>
      match T.tokencacheLookup token with
      | some (userlevel, auth_tenants) =>
        if userlevel = .guest then .error errUnauthorized
        else .ok { ctx with userlevel, auth_tenants }
      | none =>
        match T.handleExternalToken ctx with
        | none => .error errUnauthorized
        | some (userlevel, auth_tenants) => .ok { ctx with userlevel, auth_tenants }

def fltCheckAdmin (ctx : ReqContext) : Except Reply ReqContext :=
  if ctx.userlevel ≠ .admin then .error errNotAllowed else .ok ctx

/-- Administrators and the provisioning may see every tenant, others their own ones. -/
def ReqContext.mayAccess (ctx : ReqContext) (tenantid : Uuid) : Prop :=
  ctx.userlevel = .admin ∨ ctx.userlevel = .prov ∨ tenantid ∈ ctx.auth_tenants

instance (ctx : ReqContext) (tenantid : Uuid) : Decidable (ctx.mayAccess tenantid) :=
  inferInstanceAs (Decidable (_ ∨ _ ∨ _))

def fltCheckTenant (ctx : ReqContext) (arg : List UrlText) : Except Reply ReqContext :=
  match arg with
  | [] => .error errServerError
  | tenant :: _ =>
    let ctx := { ctx with tenantid := mkuuid tenant }
    if ¬ uuidvalid ctx.tenantid then .error errServerError
    else if ctx.mayAccess ctx.tenantid then .ok ctx
    else .error errNotAllowed

def fltCheckHost (ctx : ReqContext) (arg : List UrlText) : Except Reply ReqContext :=
  match arg with
  | _ :: host :: _ =>
    let ctx := { ctx with hostid := mkuuid host }
    if uuidvalid ctx.hostid then .ok ctx else .error errServerError
  | _ => .error errServerError

def Filter.run (T : Tokens) (ctx : ReqContext) (arg : List UrlText) :
    Filter → Except Reply ReqContext
  | .addCors => fltAddCors ctx
  | .checkValiduser => fltCheckValiduser T ctx
  | .checkAdmin => fltCheckAdmin ctx
  | .checkTenant => fltCheckTenant ctx arg
  | .checkHost => fltCheckHost ctx arg

/-- The functions that always answer. -/
inductive Cmd where
  | dancing_bears | login | list_tenants | token | list_sessions | user_set | user_delete
  | host_any_overview | host_any_get | host_any_get_tenant
  | tenant_get | tenant_create | tenant_update | tenant_delete | tenant_get_summary
  | tenant_get_quota | tenant_get_meta | tenant_set_meta | tenant_list_meters
  | tenant_set_meter | tenant_delete_meter | tenant_list_watchers | tenant_set_watcher
  | tenant_delete_watcher | tenant_list_hosts
  | host_overview | host_get | host_remove | host_get_log | host_get_external
  | host_list_watchers | host_set_watcher | host_delete_watcher | host_get_range
  | host_list_graphs | host_get_graph | host_get_time
  | err_not_found | err_method_not_allowed
  deriving DecidableEq

inductive PathFunc where
  | flt (f : Filter)
  | cmd (c : Cmd)
  deriving DecidableEq

structure ReqMatch where
  matchstr : UrlText
  method_mask : List ReqMethod
  func : PathFunc
  deriving DecidableEq

/-- A line of the table. -/
def path (s : String) (mmask : List ReqMethod) (f : PathFunc) : ReqMatch := ⟨asc s, mmask, f⟩

/-- The table up to the filter that checks the tenant. -/
def setupMatchesHead : List ReqMatch := [
  path "/obligatory-dancing-bears" [.get] (.cmd .dancing_bears),
  path "*" REQ_ANY (.flt .addCors),
  path "/login" [.post] (.cmd .login),
  path "*" REQ_ANY (.flt .checkValiduser),
  path "/" [.get] (.cmd .list_tenants),
  path "/" REQ_ANY (.cmd .err_method_not_allowed),
  path "/token" [.get] (.cmd .token),
  path "/session" [.get] (.flt .checkAdmin),
  path "/session" [.get] (.cmd .list_sessions),
  path "/user/%s" REQ_UPDATE (.cmd .user_set),
  path "/user/%s" [.delete] (.cmd .user_delete),
  path "/any*" REQ_ANY (.flt .checkAdmin),
  path "/any/host/overview" [.get] (.cmd .host_any_overview),
  path "/any/host/%U" [.get] (.cmd .host_any_get),
  path "/any/host/%U/tenant" [.get] (.cmd .host_any_get_tenant)]

def setupMatchesTenant : ReqMatch := path "/%U*" REQ_ANY (.flt .checkTenant)

/-- What follows the filter that checks the tenant. -/
def setupMatchesTail : List ReqMatch := [
  path "/%U" [.get] (.cmd .tenant_get),
  path "/%U" [.post] (.cmd .tenant_create),
  path "/%U" [.put] (.cmd .tenant_update),
  path "/%U" [.delete] (.flt .checkAdmin),
  path "/%U" [.delete] (.cmd .tenant_delete),
  path "/%U/summary" [.get] (.cmd .tenant_get_summary),
  path "/%U/quota" [.get] (.cmd .tenant_get_quota),
  path "/%U/meta" [.get] (.cmd .tenant_get_meta),
  path "/%U/meta" REQ_UPDATE (.cmd .tenant_set_meta),
  path "/%U/meta" REQ_ANY (.cmd .err_method_not_allowed),
  path "/%U/meter" [.get] (.cmd .tenant_list_meters),
  path "/%U/meter/%S" REQ_UPDATE (.cmd .tenant_set_meter),
  path "/%U/meter/%S/%S" REQ_UPDATE (.cmd .tenant_set_meter),
  path "/%U/meter/%S" [.delete] (.cmd .tenant_delete_meter),
  path "/%U/meter/%S/%S" [.delete] (.cmd .tenant_delete_meter),
  path "/%U/watcher" [.get] (.cmd .tenant_list_watchers),
  path "/%U/watcher/%S" REQ_UPDATE (.cmd .tenant_set_watcher),
  path "/%U/watcher/%S/%S" REQ_UPDATE (.cmd .tenant_set_watcher),
  path "/%U/watcher/%S" [.delete] (.cmd .tenant_delete_watcher),
  path "/%U/watcher/%S/%S" [.delete] (.cmd .tenant_delete_watcher),
  path "/%U/host" [.get] (.cmd .tenant_list_hosts),
  path "/%U/host" REQ_ANY (.cmd .err_method_not_allowed),
  path "/%U/host/overview" [.get] (.cmd .host_overview),
  path "/%U/host/%U*" REQ_ANY (.flt .checkHost),
  path "/%U/host/%U" [.get] (.cmd .host_get),
  path "/%U/host/%U" [.delete] (.cmd .host_remove),
  path "/%U/host/%U" REQ_ANY (.cmd .err_method_not_allowed),
  path "/%U/host/%U/log" [.get] (.cmd .host_get_log),
  path "/%U/host/%U/externaldata" [.get] (.cmd .host_get_external),
  path "/%U/host/%U/watcher" [.get] (.cmd .host_list_watchers),
  path "/%U/host/%U/watcher" REQ_ANY (.cmd .err_method_not_allowed),
  path "/%U/host/%U/watcher/%S" REQ_UPDATE (.cmd .host_set_watcher),
  path "/%U/host/%U/watcher/%S/%S" REQ_UPDATE (.cmd .host_set_watcher),
  path "/%U/host/%U/watcher/%S" [.delete] (.cmd .host_delete_watcher),
  path "/%U/host/%U/watcher/%S/%S" [.delete] (.cmd .host_delete_watcher),
  path "/%U/host/%U/range/%T/%T" [.get] (.cmd .host_get_range),
  path "/%U/host/%U/graph" [.get] (.cmd .host_list_graphs),
  path "/%U/host/%U/graph/%S/%S/%i/%i" [.get] (.cmd .host_get_graph),
  path "/%U/host/%U/time/%T" [.get] (.cmd .host_get_time),
  path "*" [.get] (.cmd .err_not_found),
  path "*" REQ_ANY (.cmd .err_method_not_allowed)]

def setupMatches : List ReqMatch :=
  setupMatchesHead ++ setupMatchesTenant :: setupMatchesTail

/-- How the walk along a table ends: a filter answered, a command runs with its arguments
in the context that the filters left, or nothing was found. -/
inductive Dispatched where
  | refused (reply : Reply)
  | runs (m : ReqMatch) (c : Cmd) (arg : List UrlText) (ctx : ReqContext)
  | noMatches (ctx : ReqContext)

def reqMatchlistDispatch (T : Tokens) (url : UrlText) : List ReqMatch → ReqContext → Dispatched
  | [], ctx => .noMatches ctx
  | crsr :: rest, ctx =>
    if ctx.method ∈ crsr.method_mask then
      match reqMatchCheck crsr.matchstr url with
      | none => reqMatchlistDispatch T url rest ctx
      | some arg =>
        match crsr.func with
        | .cmd c => .runs crsr c arg ctx
        | .flt f =>
          match f.run T ctx arg with
          | .error reply => .refused reply
          | .ok ctx => reqMatchlistDispatch T url rest ctx
    else reqMatchlistDispatch T url rest ctx

end Opticon
