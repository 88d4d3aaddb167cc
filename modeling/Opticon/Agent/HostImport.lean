import Opticon.Meter.Host
import Opticon.Var.Access

/-! What the agent makes of the results of its probes (`host_import.c`). -/

namespace Opticon

/-- The type of meter a scalar is stored in. -/
def Var.metertype : Var → Option MeterId
  | .leaf _ _ (.int _) => some MTYPE_INT
  | .leaf _ _ (.double _) => some MTYPE_FRAC
  | .leaf _ _ (.str _) => some MTYPE_STR
  | _ => none

/-- `meter_set_str` with what a getter of strings answers: one that is not there is copied from all
the same. -/
def meterSetText (now : Nat) (m : Meter) (pos : Nat) (val : Option (List UInt8)) : Except Fault Meter :=
  match val with
  | some val => meterSetStr now m pos val
  | none =>
    if SZ_EMPTY_VAL ≤ m.count then .ok m
    else if m.type = MTYPE_STR ∧ pos < elemCount m.count then .error .nullPointer
    else .ok m

/-- One value of a meter of this type, as a var gives it. -/
def meterSetVar (type : MeterId) (now : Nat) (m : Meter) (pos : Nat) (v : Var) : Except Fault Meter :=
  if type = MTYPE_INT then meterSetUint now m pos (varGetInt v)
  else if type = MTYPE_FRAC then meterSetFrac now m pos (.fin (varGetDouble v))
  else meterSetText now m pos (varGetStr v)

/-- One value of a meter, as a member of a dictionary gives it: a string that is not there is empty. -/
def meterSetMember (ihash : BitVec 32) (key : List UInt8) (type : MeterId) (now : Nat) (m : Meter)
    (pos : Nat) (v : Var) : Except Fault Meter :=
  if type = MTYPE_INT then meterSetUint now m pos (varGetIntForkey ihash v key)
  else if type = MTYPE_STR then meterSetStr now m pos ((varGetStrForkey ihash v key).getD [])
  else meterSetFrac now m pos (.fin (varGetDoubleForkey ihash v key))

/-- The values from position `pos` on. -/
def setValues (set : Meter → Nat → Var → Except Fault Meter) : List Var → Nat → Meter → Except Fault Meter
  | [], _, m => .ok m
  | v :: vs, pos, m => do setValues set vs (pos + 1) (← set m pos v)

/-- A meter is looked up, given its count and filled. -/
def hostSetMeter (h : Host) (mid : MeterId) (count : Nat) (vs : List Var)
    (set : Nat → Meter → Nat → Var → Except Fault Meter) : Except Fault Host :=
  let (h, i) := hostGetMeter h mid
  h.updateMeter i fun m => do setValues (set h.lastmodified) vs 0 (← meterSetcount h.lastmodified m count)

def SZ_MAX_ARRAY : Nat := 0x1d

/-- `label` with what is in front of it in the dictionary of arrays. -/
def joined (pfx label : List UInt8) : List UInt8 := pfx ++ 47 :: label

/-- Changes an array of dictionaries into a meter-style 'dictionary of arrays': `vs` is the array, the
list that is gone through has the members of its first dictionary. -/
def dictarrayToHost (ihash : BitVec 32) (pfx : List UInt8) (vs : List Var) :
    List Var → Host → Except Fault (Bool × Host)
  | [], h => .ok (true, h)
  | vv :: rest, h =>
    if 10 < pfx.length + vv.id.str.length then .ok (false, h)
    else match vv.metertype with
      | none => .ok (false, h)
      | some type => do
        let count := min vs.length SZ_MAX_ARRAY
        let h ← hostSetMeter h (makeid (joined pfx vv.id.str) type) count (vs.take count)
          (meterSetMember ihash vv.id.str type)
        dictarrayToHost ihash pfx vs rest h

/-- The members of a dictionary. One that is a dictionary again is passed over. -/
def dictToHost (firstlevel : List UInt8) : List Var → Host → Except Fault (Bool × Host)
  | [], h => .ok (true, h)
  | vv :: rest, h =>
    if 10 < vv.id.str.length + firstlevel.length then .ok (false, h)
    else if vv.isNode false then .ok (false, h)
    else match vv.metertype with
      | none => dictToHost firstlevel rest h
      | some type => do
        let h ← hostSetMeter h (makeid (joined firstlevel vv.id.str) type) 0 [vv] (meterSetVar type)
        dictToHost firstlevel rest h

/-- An array that is not empty goes by its first element. -/
def arrayToHost (ihash : BitVec 32) (label : List UInt8) (vv : Var) (vs : List Var) (h : Host) :
    Except Fault (Bool × Host) :=
  match vv with
  | .array _ _ _ => .ok (false, h)
  | .dict _ _ cs => do
    let (_, h) ← dictarrayToHost ihash label (vv :: vs) cs h
    return (true, h)
  | .leaf _ _ _ =>
    match vv.metertype with
    | none => .ok (true, h)
    | some type => do
      let count := min (vs.length + 1) SZ_MAX_ARRAY
      let h ← hostSetMeter h (makeid label type) count ((vv :: vs).take count) (meterSetVar type)
      return (true, h)

/-- One key of the document. -/
def importKey (ihash : BitVec 32) (v : Var) (h : Host) : Except Fault (Bool × Host) :=
  if 11 < v.id.str.length then .ok (false, h)
  else match v with
    | .leaf id _ _ =>
      match v.metertype with
      | none => .ok (true, h)
      | some type => do
        let h ← hostSetMeter h (makeid id.str type) 0 [v] (meterSetVar type)
        return (true, h)
    | .array id _ [] => do
      let (h, i) := hostGetMeter h (makeid id.str MTYPE_INT)
      return (true, ← h.updateMeter i (meterSetEmptyArray h.lastmodified))
    | .array id _ (vv :: vs) => arrayToHost ihash id.str vv vs h
    | .dict id _ cs => dictToHost id.str cs h

def importKeys (ihash : BitVec 32) : List Var → Host → Except Fault (Bool × Host)
  | [], h => .ok (true, h)
  | v :: vs, h => do
    let (ok, h) ← importKey ihash v h
    if ok then importKeys ihash vs h else return (false, h)

/-- Convert JSON-structured data into meters. -/
def hostImport (ihash : BitVec 32) (h : Host) (val : Var) : Except Fault (Bool × Host) :=
  match val with
  | .dict _ _ cs => importKeys ihash cs h
  | _ => .ok (false, h)

end Opticon
