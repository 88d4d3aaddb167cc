import Opticon.Collector.Watch
import Opticon.Lib.UpdateFirst
import Opticon.Var.Access

/-! What the collector takes from the metadata of tenants and hosts (`main.c`). -/

namespace Opticon

section Watchers

/-- The types of watchers, and of summaries but for what may follow `frac`. -/
def watcherMtype (type : List UInt8) : Option MeterId :=
  if type.take 3 = asc "int" then some MTYPE_INT
  else if type = asc "frac" then some MTYPE_FRAC
  else if type.take 3 = asc "str" then some MTYPE_STR
  else none

/-- The meterwatch that a level of a definition adds to a watchlist. A comparison that the type
does not have adds none. -/
def makeWatcher (ihash : BitVec 32) (id mtp : MeterId) (v : Var) (vweight : ℚ)
    (tr : Watchtrigger) : Except Fault (List Meterwatch) :=
  let weight := varGetDoubleForkey ihash v (asc "weight")
  let ival := varGetIntForkey ihash v (asc "val")
  let dval := varGetDoubleForkey ihash v (asc "val")
  let sval := varGetStrForkey ihash v (asc "val")
  let weight := (if weight < 1 / 100 then 1 else weight) * vweight
  match varGetStrForkey ihash v (asc "cmp") with
  | none => .error .nullPointer
  | some cmp =>
    if cmp = asc "count" then .ok [⟨tr, id, .count ival, weight⟩]
    else if mtp = MTYPE_INT then
      if cmp = asc "lt" then .ok [⟨tr, id, .uintLt ival, weight⟩]
      else if cmp = asc "gt" then .ok [⟨tr, id, .uintGt ival, weight⟩]
      else .ok []
    else if mtp = MTYPE_FRAC then
      if cmp = asc "lt" then .ok [⟨tr, id, .fracLt dval, weight⟩]
      else if cmp = asc "gt" then .ok [⟨tr, id, .fracGt dval, weight⟩]
      else .ok []
    else if mtp = MTYPE_STR ∧ cmp = asc "eq" then
      match sval with
      | none => .error .nullPointer
      | some sval => .ok [⟨tr, id, .strMatch (FString.strncpy sval), weight⟩]
    else .ok []

/-- A level that has members makes a watcher. -/
def levelWatcher (ihash : BitVec 32) (id mtp : MeterId) (v : Option Var) (vweight : ℚ)
    (tr : Watchtrigger) : Except Fault (List Meterwatch) :=
  match v with
  | none => .error .nullPointer
  | some v => if v.children = [] then .ok [] else makeWatcher ihash id mtp v vweight tr

/-- The type of a meter in the definitions of the configuration, where one that is not there is
added. -/
def fallbackType (ihash : BitVec 32) (watchdef : Option Var) (id : FString) :
    Option Var × Option (List UInt8) :=
  match watchdef with
  | none => (none, none)
  | some v =>
    let r := varGetDict ihash v id.str
    (some r.1, r.2.bind fun v => varGetStrForkey ihash v (asc "type"))

/-- The watchers of a meter, by its type and its levels. -/
def populateLevels (ihash : BitVec 32) (name : FString) (type : Option (List UInt8))
    (v_warn v_alert v_crit : Option Var) : Except Fault (List Meterwatch) :=
  if v_warn.isSome ∨ v_alert.isSome ∨ v_crit.isSome then
    match type.bind watcherMtype with
    | none => .ok []
    | some tp => do
      let id := makeid name.str tp
      let warn ← levelWatcher ihash id tp v_warn 5 .warn
      let alert ← levelWatcher ihash id tp v_alert 8 .alert
      let crit ← levelWatcher ihash id tp v_crit 12 .crit
      return warn ++ alert ++ crit
  else .ok []

/-- The watchers of one definition. -/
def populateMeter (ihash : BitVec 32) (watchdef : Option Var) (mdef : Var) :
    Except Fault (List Meterwatch × Option Var) := do
  let (mdef, v_warn) := varGetDict ihash mdef (asc "warning")
  let (mdef, v_alert) := varGetDict ihash mdef (asc "alert")
  let (mdef, v_crit) := varGetDict ihash mdef (asc "critical")
  let (watchdef, type) := match varGetStrForkey ihash mdef (asc "type") with
    | some type => (watchdef, some type)
    | none => fallbackType ihash watchdef mdef.id
  let ws ← populateLevels ihash mdef.id type v_warn v_alert v_crit
  return (ws, watchdef)

/-- Populate a watchlist out of meter definitions. -/
def watchlistPopulate (ihash : BitVec 32) :
    List Var → Option Var → Except Fault (List Meterwatch × Option Var)
  | [], watchdef => .ok ([], watchdef)
  | mdef :: rest, watchdef => do
    let (ws, watchdef) ← populateMeter ihash watchdef mdef
    let (ws', watchdef) ← watchlistPopulate ihash rest watchdef
    return (ws ++ ws', watchdef)

end Watchers

section Summary

inductive Summarytype where
  | avg | total
  | count (matchstr : FString)
  deriving DecidableEq

structure Summarydata where
  name : FString
  meter : MeterId
  type : Summarytype
  deriving DecidableEq

def summaryMtype (s_type : List UInt8) : Option MeterId :=
  if s_type.take 3 = asc "int" then some MTYPE_INT
  else if s_type.take 4 = asc "frac" then some MTYPE_FRAC
  else if s_type.take 3 = asc "str" then some MTYPE_STR
  else none

/-- The first summary that lacks something ends the loop. -/
def summaryinfoLoop (ihash : BitVec 32) : List Var → List Summarydata
  | [] => []
  | crsr :: rest =>
    match varGetStrForkey ihash crsr (asc "meter"),
      (varGetStrForkey ihash crsr (asc "type")).bind summaryMtype,
      varGetStrForkey ihash crsr (asc "func") with
    | some s_meterid, some mtype, some s_func =>
      let mid := makeid s_meterid mtype
      if s_func = asc "avg" then ⟨crsr.id, mid, .avg⟩ :: summaryinfoLoop ihash rest
      else if s_func = asc "total" then ⟨crsr.id, mid, .total⟩ :: summaryinfoLoop ihash rest
      else if s_func = asc "count" then
        match varGetStrForkey ihash crsr (asc "match") with
        | none => []
        | some s_match =>
          ⟨crsr.id, mid &&& MMASK_NAME ||| MTYPE_STR, .count (FString.strncpy s_match)⟩ ::
            summaryinfoLoop ihash rest
      else summaryinfoLoop ihash rest
    | _, _, _ => []

def summaryinfoPopulate (ihash : BitVec 32) (v_summary : Option Var) :
    Except Fault (List Summarydata) :=
  match v_summary with
  | none => .error .nullPointer
  | some v => .ok (summaryinfoLoop ihash v.children)

/-- The summaries of the configuration that the tenant does not have, or has empty. -/
def mergeSummaryLoop (ihash : BitVec 32) : List Var → Var → Except Fault Var
  | [], v_summary => .ok v_summary
  | crsr :: rest, v_summary =>
    match varGetDictForkey ihash v_summary crsr.id.str with
    | (_, none) => .error .nullPointer
    | (v_summary, some (place, summc)) =>
      mergeSummaryLoop ihash rest
        (if summc.children = [] then v_summary.put place (varCopy ihash summc crsr) else v_summary)

def mergeSummary (ihash : BitVec 32) (conf : Var) (v_summary : Option Var) : Except Fault Var :=
  match v_summary with
  | none => .error .nullPointer
  | some v =>
    if v.children = [] then .ok (varCopy ihash v conf) else mergeSummaryLoop ihash conf.children v

end Summary

/-- What the collector has from its configuration: the definitions of meters, and the dictionary
of summaries. -/
structure AppConf where
  ihash : BitVec 32
  watchdef : Option Var
  summary : Var
  summary_dict : summary.isNode true = true
  summary_nodup : (summary.children.map Var.id).Nodup

/-- The watchlist of a tenant is left alone if there are no definitions. -/
def readWatchers (app : AppConf) (v_meters : Option Var) : Except Fault (Option (List Meterwatch)) :=
  match v_meters with
  | none => .ok none
  | some v => do
    let r ← watchlistPopulate app.ihash v.children app.watchdef
    return some r.1

/-- What `resolve_tenantkey` takes from the metadata of a tenant, but for the key: the watchers and
the summaries. -/
def readTenantMetadata (app : AppConf) (dbmeta : Var) :
    Except Fault (Option (List Meterwatch) × List Summarydata) := do
  let (dbmeta, v_meters) := varGetDict app.ihash dbmeta (asc "meter")
  let ws ← readWatchers app v_meters
  let (_, v_summary) := varGetDict app.ihash dbmeta (asc "summary")
  let v ← mergeSummary app.ihash app.summary v_summary
  return (ws, ← summaryinfoPopulate app.ihash (some v))

section Host

/-- The member of the union in an adjustment that was written last. -/
inductive Adjustvalue where
  | unset
  | u64 (u64 : BitVec 64)
  | frac (frac : ℚ)
  | str (str : FString)
  deriving DecidableEq

inductive Adjustkind where
  | none | frac | uint | str
  deriving DecidableEq

/-- An adjustment as it lies in memory. -/
structure Hostadjust where
  id : MeterId
  type : Adjustkind
  adjust : Watchtrigger → Adjustdata Adjustvalue

structure Graphtarget where
  id : MeterId
  graph_id : Option (List UInt8)
  datum_id : Option (List UInt8)
  title : Option (List UInt8)
  unit : Option (List UInt8)
  color : Option (List UInt8)
  max : ℚ

/-- What of a host its metadata sets. -/
structure HostSettings where
  adjust : List Hostadjust
  graphlist : List Graphtarget

def Hostadjust.is (id : MeterId) (a : Hostadjust) : Bool := a.id &&& MMASK_NAME == id &&& MMASK_NAME

def Hostadjust.fresh (id : MeterId) : Hostadjust :=
  ⟨id &&& MMASK_NAME, .none, fun _ => ⟨.unset, 0⟩⟩

/-- Look up or create an adjustment by its meterid. -/
def adjustlistGet (self : List Hostadjust) (id : MeterId) : Hostadjust × List Hostadjust :=
  match self.find? (Hostadjust.is id) with
  | some a => (a, self)
  | none => (.fresh id, self ++ [.fresh id])

def adjustKind (stype : List UInt8) : Adjustkind :=
  if stype.take 3 = asc "int" then .uint
  else if stype = asc "frac" then .frac
  else if stype.take 3 = asc "str" then .str
  else .none

/-- What one level of the metadata puts in the place of an adjustment. -/
def handleLevel (ihash : BitVec 32) (atype : Adjustkind) (v_level : Var)
    (adj : Adjustdata Adjustvalue) : Except Fault (Adjustdata Adjustvalue) :=
  let v_weight := varGetDoubleForkey ihash v_level (asc "weight")
  let v_weight := if v_weight < 1 / 2000 then 1 else v_weight
  match atype with
  | .none => .ok { adj with weight := 0 }
  | .uint => .ok ⟨.u64 (varGetIntForkey ihash v_level (asc "val")), v_weight⟩
  | .frac => .ok ⟨.frac (varGetDoubleForkey ihash v_level (asc "val")), v_weight⟩
  | .str =>
    match varGetStrForkey ihash v_level (asc "val") with
    | none => .error .nullPointer
    | some str => .ok ⟨.str (FString.strncpy str), v_weight⟩

/-- A level that is no dictionary is left out. -/
def handleTrigger (ihash : BitVec 32) (v_adjust : Var) (atype : Adjustkind) (level : List UInt8)
    (adj : Adjustdata Adjustvalue) : Except Fault (Adjustdata Adjustvalue) :=
  match varChild ihash v_adjust level with
  | none => .ok adj
  | some v_level => if v_level.isNode true then handleLevel ihash atype v_level adj else .ok adj

def handleAdjust (ihash : BitVec 32) (v_adjust : Var) (stype : List UInt8)
    (self : List Hostadjust) : Except Fault (List Hostadjust) := do
  let atype := adjustKind stype
  let mid_adjust := makeid v_adjust.id.str 0
  let (adj, self) := adjustlistGet self mid_adjust
  let warn ← handleTrigger ihash v_adjust atype (asc "warning") (adj.adjust .warn)
  let alert ← handleTrigger ihash v_adjust atype (asc "alert") (adj.adjust .alert)
  let crit ← handleTrigger ihash v_adjust atype (asc "critical") (adj.adjust .crit)
  let adjust : Watchtrigger → Adjustdata Adjustvalue
    | .none => adj.adjust .none
    | .warn => warn
    | .alert => alert
    | .crit => crit
  return updateFirst (Hostadjust.is mid_adjust) (fun _ => ⟨adj.id, atype, adjust⟩) self

/-- The first meter without a type ends the loop. -/
def handleMeters (ihash : BitVec 32) : List Var → List Hostadjust → Except Fault (List Hostadjust)
  | [], self => .ok self
  | v_adjust :: rest, self =>
    match varGetStrForkey ihash v_adjust (asc "type") with
    | none => .ok self
    | some stype => do handleMeters ihash rest (← handleAdjust ihash v_adjust stype self)

def graphTarget (ihash : BitVec 32) (crsr : Var) : Graphtarget where
  id := makeid crsr.id.str MTYPE_INT
  graph_id := varGetStrForkey ihash crsr (asc "graph")
  datum_id := varGetStrForkey ihash crsr (asc "datum")
  title := varGetStrForkey ihash crsr (asc "title")
  unit := varGetStrForkey ihash crsr (asc "unit")
  color := varGetStrForkey ihash crsr (asc "color")
  max := varGetDoubleForkey ihash crsr (asc "max")

/-- Goes over fresh host metadata to pick up the adjustments and the graphs. -/
def handleHostMetadata (ihash : BitVec 32) (H : HostSettings) (dbmeta : Var) :
    Except Fault HostSettings :=
  let (dbmeta, v_meter) := varGetDict ihash dbmeta (asc "meter")
  match v_meter with
  | none => .error .nullPointer
  | some v_meter => do
    let adjust ← handleMeters ihash v_meter.children H.adjust
    match (varGetDict ihash dbmeta (asc "graph")).2 with
    | none => .error .nullPointer
    | some v_graph =>
      if v_graph.children = [] then return { H with adjust := adjust }
      else return ⟨adjust, v_graph.children.map (graphTarget ihash)⟩

end Host

end Opticon
