import Opticon.Var.RoundTrip

/-! Reading values out of a dictionary, removing a key, and copying one tree into another
(`var.c`). -/

namespace Opticon

/-- The number at the start of a string: white space, a sign, digits. -/
def strtoullOf (str : List UInt8) : BitVec 64 :=
  match str.dropWhile isspace with
  | 45 :: cs => -strtoull cs
  | 43 :: cs => strtoull cs
  | cs => strtoull cs

/-- A child of a dictionary, as the getters see it. -/
def varChild (ihash : BitVec 32) (self : Var) (key : List UInt8) : Option Var :=
  (varFindKey ihash self key).2.map Prod.snd

def varGetStr : Var → Option (List UInt8)
  | .leaf _ _ (.str sval) => some sval
  | _ => none

def varGetStrForkey (ihash : BitVec 32) (self : Var) (key : List UInt8) : Option (List UInt8) :=
  (varChild ihash self key).bind varGetStr

def varGetInt : Var → BitVec 64
  | .leaf _ _ (.str sval) => strtoullOf sval
  | .leaf _ _ (.int ival) => ival
  | .leaf _ _ (.double dval) => BitVec.ofInt 64 ⌊dval⌋
  | _ => 0

def varGetIntForkey (ihash : BitVec 32) (self : Var) (key : List UInt8) : BitVec 64 :=
  ((varChild ihash self key).map varGetInt).getD 0

/-- `atof` on a text in decimal notation. -/
def atofOf (str : List UInt8) : ℚ :=
  let exponent (cs : List UInt8) : ℤ := match cs with
    | 45 :: cs => -Decimal.read (cs.takeWhile isdigit)
    | 43 :: cs => Decimal.read (cs.takeWhile isdigit)
    | cs => Decimal.read (cs.takeWhile isdigit)
  let unsigned (cs : List UInt8) : ℚ :=
    let whole := cs.takeWhile isdigit
    let (decimals, rest) := match cs.dropWhile isdigit with
      | 46 :: cs => (cs.takeWhile isdigit, cs.dropWhile isdigit)
      | cs => ([], cs)
    let mantissa : ℚ := Decimal.read (whole ++ decimals) / 10 ^ decimals.length
    match rest with
    | c :: cs => if c = 69 ∨ c = 101 then mantissa * 10 ^ exponent cs else mantissa
    | [] => mantissa
  match str.dropWhile isspace with
  | 45 :: cs => -unsigned cs
  | 43 :: cs => unsigned cs
  | cs => unsigned cs

def varGetDouble : Var → ℚ
  | .leaf _ _ (.str sval) => atofOf sval
  | .leaf _ _ (.double dval) => dval
  | .leaf _ _ (.int ival) => ival.toNat
  | _ => 0

def varGetDoubleForkey (ihash : BitVec 32) (self : Var) (key : List UInt8) : ℚ :=
  ((varChild ihash self key).map varGetDouble).getD 0

/-- A dictionary inside another var, and that var afterwards. -/
def varGetDict (ihash : BitVec 32) (self : Var) (key : List UInt8) : Var × Option Var :=
  let r := varGetDictForkey ihash self key
  (r.1, r.2.map Prod.snd)

/-- `var_load_json`, into an unset var: nothing if there is no file or the parse fails. -/
def varLoadJson (ihash : BitVec 32) (file : Option (List UInt8)) : Except Fault (Option Var) :=
  match file with
  | none => .ok none
  | some txt =>
    match varParseJson ihash (varAlloc .null) (.ofBytes txt) with
    | .returned res v _ _ => .ok (if res then some v else none)
    | _ => .error .outOfBounds

theorem varLoadJson_fault {ihash : BitVec 32} {file : Option (List UInt8)} {e : Fault}
    (h : varLoadJson ihash file = .error e) : e = .outOfBounds := by
  unfold varLoadJson at h
  split at h
  · cases h
  · split at h
    · cases h
    · exact (Except.error.inj h).symm

/-- The place of the child that `var_find_key` finds is taken out. -/
def varDeleteKey (ihash : BitVec 32) (self : Var) (key : List UInt8) : Var :=
  match self with
  | .dict _ _ _ =>
    match varFindKey ihash self key with
    | (.dict id h cs, some (i, _)) => .dict id h (cs.eraseIdx i)
    | (self, _) => self
  | self => self

def Var.setId : Var → FString → Var
  | .leaf _ h val, id => .leaf id h val
  | .dict _ h cs, id => .dict id h cs
  | .array _ h cs, id => .array id h cs

/-- `var_link_as`: the var takes the key before it is linked, but keeps a hash it has. -/
def varLinkAs (ihash : BitVec 32) (self parent : Var) (key : FString) : Var :=
  (varLink ihash (self.setId key) parent).2.1

mutual

/-- `var_clone`: a fresh var with the contents of another one. -/
def varClone (ihash : BitVec 32) : Var → Var
  | .leaf _ _ val => varAlloc val
  | .dict _ _ cs => varCloneInto ihash true (.dict FString.empty 0 []) cs
  | .array _ _ cs => varCloneInto ihash false (.array FString.empty 0 []) cs

/-- The loop that links clones of the children of a var below another one. -/
def varCloneInto (ihash : BitVec 32) (dict : Bool) (self : Var) : List Var → Var
  | [] => self
  | crsr :: rest =>
    let nvar := varClone ihash crsr
    let self := if dict then varLinkAs ihash nvar self crsr.id else (varLink ihash nvar self).2.1
    varCloneInto ihash dict self rest

end

/-- `var_copy`: a var keeps its key only. -/
def varCopy (ihash : BitVec 32) (self orig : Var) : Var :=
  match orig with
  | .leaf _ _ val => .leaf self.id self.hashcode val
  | .dict _ _ cs => varCloneInto ihash true (.dict self.id self.hashcode []) cs
  | .array _ _ cs => varCloneInto ihash false (.array self.id self.hashcode []) cs

mutual

/-- `var_merge`, which is called for dictionaries: it does nothing to another var (but frees a
string). An array takes the place of a dictionary, a value does not. -/
def varMerge (ihash : BitVec 32) (self : Var) : Var → Var
  | .leaf _ _ _ => self
  | .array _ _ cs =>
    match self with
    | .dict id h _ => varCloneInto ihash false (.array id h []) cs
    | self => self
  | .dict _ _ cs =>
    match self with
    | .dict id h ds => varMergeInto ihash (.dict id h ds) cs
    | self => self

/-- The loop over the children of the dictionary that is merged in: those whose key is there
already are left out, unless the var there is a dictionary. -/
def varMergeInto (ihash : BitVec 32) (self : Var) : List Var → Var
  | [] => self
  | crsr :: rest =>
    let found := varFindKey ihash self crsr.id.str
    match found.2 with
    | some (i, existing) =>
      let merged := if existing.isNode true then varMerge ihash existing crsr else existing
      varMergeInto ihash (found.1.put (some i) merged) rest
    | none => varMergeInto ihash (varLinkAs ihash (varClone ihash crsr) found.1 crsr.id) rest

end

end Opticon
