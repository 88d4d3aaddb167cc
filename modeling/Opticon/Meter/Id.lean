import Mathlib.Data.List.Basic

/-! Meter ids (`meter.h`, `util.c`): a type in the two top bits, eleven characters of five
bits each below it, and an element count in the five low bits. -/

namespace Opticon

abbrev MeterId := BitVec 64

def MTYPE_INT : MeterId := 0x0000000000000000
def MTYPE_FRAC : MeterId := 0x4000000000000000
def MTYPE_STR : MeterId := 0x8000000000000000

def MMASK_TYPE : MeterId := 0xc000000000000000
def MMASK_COUNT : MeterId := 0x000000000000001f
def MMASK_NAME : MeterId := 0x3fffffffffffffe0

def SZ_EMPTY_VAL : Nat := 0x1e
def SZ_EMPTY_ARRAY : Nat := 0x1f

/-- The 5 bit character mapping for ids, `" abcdefghijklmnopqrstuvwxyz.-_/@"`. -/
def IDTABLE : List UInt8 :=
  [32, 97, 98, 99, 100, 101, 102, 103, 104, 105, 106, 107, 108, 109, 110, 111, 112, 113, 114,
    115, 116, 117, 118, 119, 120, 121, 122, 46, 45, 95, 47, 64]

def ASCIITABLE : List (BitVec 64) :=
  [0, 0, 0, 0, 0, 0, 0, 0, 0, 0, 0, 0, 0, 0, 0, 0,
    0, 0, 0, 0, 0, 0, 0, 0, 0, 0, 0, 0, 0, 0, 0, 0,
    0, 0, 0, 0, 0, 0, 0, 0, 0, 0, 0, 0, 0, 28, 27, 30,
    0, 0, 0, 0, 0, 0, 0, 0, 0, 0, 0, 0, 0, 0, 0, 0,
    31, 1, 2, 3, 4, 5, 6, 7, 8, 9, 10, 11, 12, 13, 14, 15,
    16, 17, 18, 19, 20, 21, 22, 23, 24, 25, 26, 0, 0, 0, 0, 29,
    0, 1, 2, 3, 4, 5, 6, 7, 8, 9, 10, 11, 12, 13, 14, 15,
    16, 17, 18, 19, 20, 21, 22, 23, 24, 25, 26, 0, 0, 0, 0, 0]

def asciiCode (c : UInt8) : BitVec 64 := ASCIITABLE.getD c.toNat 0

def idChar (tmp : BitVec 64) : UInt8 := IDTABLE.getD tmp.toNat 32

/-- The values `bshift` takes in the loops over the characters of an id: from 57 down in
steps of 5 `while (bshift > 2)`. -/
def charShifts : List Nat := [57, 52, 47, 42, 37, 32, 27, 22, 17, 12, 7]

/-- A `char` is signed in the source: bytes from 128 on fail the test `c > 0` and take no
position in the id. -/
def makeidLoop : List Nat → MeterId → List UInt8 → MeterId
  | _, res, [] => res
  | [], res, _ => res
  | b :: bs, res, c :: crsr =>
    if c < 128 then makeidLoop bs (res ||| asciiCode c <<< b) crsr
    else makeidLoop (b :: bs) res crsr

def makeid (label : List UInt8) (type : MeterId) : MeterId :=
  makeidLoop charShifts type label

def id2maskLoop (id : MeterId) : List Nat → MeterId → MeterId
  | [], res => res
  | b :: bs, res =>
    let msk := 31#64 <<< b
    if id &&& msk = 0 then res else id2maskLoop id bs (res ||| msk)

def id2mask (id : MeterId) : MeterId := id2maskLoop id charShifts 0

def idisprefixLoop (prefixfor mask : MeterId) : List Nat → Bool
  | [] => false
  | b :: bs =>
    let msk := 31#64 <<< b
    if mask &&& msk = 0 then (prefixfor &&& msk) >>> b == asciiCode 47
    else idisprefixLoop prefixfor mask bs

def idisprefix (potential prefixfor mask : MeterId) : Bool :=
  if prefixfor &&& mask ≠ potential &&& mask then false
  else idisprefixLoop prefixfor mask charShifts

def idgetprefixLoop (id : MeterId) : List Nat → MeterId → MeterId
  | [], _ => 0
  | b :: bs, res =>
    let msk := 31#64 <<< b
    let ch := (id &&& msk) >>> b
    if idChar ch = 47 then res else idgetprefixLoop id bs (res ||| (id &&& msk))

def idgetprefix (id : MeterId) : MeterId :=
  if id &&& MMASK_NAME = 0 then 0 else idgetprefixLoop id charShifts 0

/-- The eleven characters `id2str` writes before it puts the terminator. -/
def idChars (id : MeterId) : List UInt8 :=
  charShifts.map fun b => idChar (((id &&& MMASK_NAME) >>> b) &&& 0x1f)

/-- The offset of the last character that is not a blank, 0 if there is none. -/
def idEnd (cs : List UInt8) : Nat :=
  cs.length - 1 - (cs.reverse.takeWhile (· == 32)).length

/-- The name of an id as `id2str` leaves it in its buffer. -/
def id2str (id : MeterId) : List UInt8 := (idChars id).take (idEnd (idChars id) + 1)

/-- The characters behind the first slash, without any further slashes. -/
def nodeid2str (id : MeterId) : List UInt8 :=
  let cs := ((idChars id).dropWhile (· != 47)).filter (· != 47)
  cs.take (idEnd cs + 1)

/-- The mask of the first `sz` characters of an id. -/
def idmask (sz : Nat) : MeterId :=
  (charShifts.take sz).foldl (fun mask b => mask ||| 0x1f#64 <<< b) 0

def idhaspath (id : MeterId) : MeterId :=
  match (idChars id).findIdx? (· == 47) with
  | some res => idmask res
  | none => 0

example : id2str (makeid [116, 111, 112, 47, 112, 99, 112, 117] MTYPE_FRAC) =
    [116, 111, 112, 47, 112, 99, 112, 117] := by decide

end Opticon
