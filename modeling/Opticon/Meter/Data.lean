import Mathlib.Data.List.TakeWhile
import Mathlib.Data.Rat.Floor
import Opticon.Meter.Id

/-! The meter structure and its setters (`meter.c`). -/

namespace Opticon

/-- What ends a run outside of the language's rules: a failed `assert`, a null pointer
followed, an access outside of the block it is made through or to a block that was freed, a
constant table indexed outside of its entries, a variable read before it is set, a division
by zero, or a loop that goes on for ever. -/
inductive Fault where
  | assertion | nullPointer | outOfBounds | useAfterFree | tableIndex | uninitialised
  | divisionByZero | endlessLoop
  deriving DecidableEq, Repr

/-- The doubles of meters are nonnegative: exact, or the infinity of an overflow. -/
inductive Double where
  | fin (q : ℚ)
  | inf
  deriving DecidableEq

/-- The contents of a `char[128]` up to its terminator. -/
@[ext] structure FString where
  str : List UInt8
  length_le : str.length ≤ 127
  nonul : 0 ∉ str
  deriving DecidableEq

/-- `strncpy (str, val, 127)` followed by a terminator in the last byte. -/
def FString.strncpy (val : List UInt8) : FString where
  str := (val.take 127).takeWhile (· != 0)
  length_le := le_trans (List.takeWhile_sublist _).length_le (by simp)
  nonul h := by simpa using List.mem_takeWhile_imp h

def FString.empty : FString := ⟨[], by simp, by simp⟩

@[simp] theorem FString.strncpy_str (s : FString) : FString.strncpy s.str = s := by
  apply FString.ext
  have hl : s.str.take 127 = s.str := List.take_of_length_le s.length_le
  simp only [FString.strncpy, hl]
  apply List.takeWhile_eq_self_iff.mpr
  intro c hc
  have h0 : c ≠ 0 := fun h0 => s.nonul (h0 ▸ hc)
  simpa using h0

/-- One element of a value array: as `calloc` leaves it, or as written last. -/
inductive Slot where
  | zero
  | int (v : BitVec 64)
  | frac (d : Double)
  | str (s : FString)
  deriving DecidableEq

/-- The block a meter's value pointer refers to: the bytes that were allocated and the
elements the meter's count speaks of. -/
structure ValueArray where
  size : Nat
  slots : List Slot
  deriving DecidableEq

structure Meter where
  id : MeterId
  lastmodified : Nat
  count : Nat
  d : Option ValueArray
  badness : ℚ
  deriving DecidableEq

namespace Meter

def type (m : Meter) : MeterId := m.id &&& MMASK_TYPE
def name (m : Meter) : MeterId := m.id &&& MMASK_NAME

end Meter

/-- `sizeof` of an element of the array a meter of this type has. -/
def sizeofType (type : MeterId) : Option Nat :=
  if type = MTYPE_INT then some 8
  else if type = MTYPE_FRAC then some 8
  else if type = MTYPE_STR then some 128
  else none

/-- The number of elements behind a count: a count of 0 is a single direct value. -/
def elemCount (count : Nat) : Nat := if count = 0 then 1 else count

/-- A fresh meter with the given id, as `host_get_meter` links it. -/
def meterAlloc (id : MeterId) : Meter where
  id := id
  lastmodified := 0
  count := SZ_EMPTY_VAL
  d := none
  badness := 0

/-- `now` is the `lastmodified` of the meter's host. -/
def meterSetcount (now : Nat) (m : Meter) (count : Nat) : Except Fault Meter :=
  let cnt := elemCount count
  if SZ_EMPTY_ARRAY < cnt then .error .assertion
  else if SZ_EMPTY_VAL ≤ cnt then .ok { m with count := count, lastmodified := now, d := none }
  else match sizeofType m.type with
    | some sz => .ok { m with
        count := count
        lastmodified := now
        d := some ⟨cnt * sz, List.replicate cnt .zero⟩ }
    | none => .ok { m with count := SZ_EMPTY_VAL, lastmodified := now, d := none }

def meterSetEmpty (now : Nat) (m : Meter) : Except Fault Meter :=
  meterSetcount now m SZ_EMPTY_VAL

def meterSetEmptyArray (now : Nat) (m : Meter) : Except Fault Meter :=
  meterSetcount now m SZ_EMPTY_ARRAY

/-- The common shape of the three setters: they write one element of `sz` bytes, if the
meter is of the setter's type and the position is below its count. -/
def meterSet (type : MeterId) (sz : Nat) (now : Nat) (m : Meter) (pos : Nat) (val : Slot) :
    Except Fault Meter :=
  if SZ_EMPTY_VAL ≤ m.count then .ok m
  else if m.type = type ∧ pos < elemCount m.count then
    match m.d with
    | none => .error .nullPointer
    | some a =>
      if (pos + 1) * sz ≤ a.size then
        .ok { m with lastmodified := now, d := some { a with slots := a.slots.set pos val } }
      else .error .outOfBounds
  else .ok m

def meterSetUint (now : Nat) (m : Meter) (pos : Nat) (val : BitVec 64) : Except Fault Meter :=
  meterSet MTYPE_INT 8 now m pos (.int val)

def meterSetFrac (now : Nat) (m : Meter) (pos : Nat) (val : Double) : Except Fault Meter :=
  meterSet MTYPE_FRAC 8 now m pos (.frac val)

def meterSetStr (now : Nat) (m : Meter) (pos : Nat) (val : List UInt8) : Except Fault Meter :=
  meterSet MTYPE_STR 128 now m pos (.str (FString.strncpy val))

def Meter.uint (m : Meter) (pos : Nat) : BitVec 64 :=
  match m.d.bind (·.slots[pos]?) with
  | some (.int v) => v
  | _ => 0

def Meter.frac (m : Meter) (pos : Nat) : Double :=
  match m.d.bind (·.slots[pos]?) with
  | some (.frac d) => d
  | _ => .fin 0

def Meter.str (m : Meter) (pos : Nat) : FString :=
  match m.d.bind (·.slots[pos]?) with
  | some (.str s) => s
  | _ => FString.empty

/-- The access to element `pos` of the value array, seen as an array of elements of `sz` bytes. -/
def Meter.inBounds (m : Meter) (sz pos : Nat) : Except Fault Unit :=
  match m.d with
  | none => .error .nullPointer
  | some a => if (pos + 1) * sz ≤ a.size then .ok () else .error .outOfBounds

/-- The common shape of the three getters; they answer `empty` for a meter without values or
of another type. -/
def meterGet {α : Type} (type : MeterId) (sz : Nat) (empty : α) (value : Meter → Nat → α)
    (m : Meter) (pos : Nat) : Except Fault α :=
  if SZ_EMPTY_VAL ≤ m.count then .ok empty
  else if pos < elemCount m.count ∧ m.type = type then do
    m.inBounds sz pos
    return value m pos
  else .ok empty

def meterGetUint (m : Meter) (pos : Nat) : Except Fault (BitVec 64) :=
  meterGet MTYPE_INT 8 0 Meter.uint m pos

def meterGetFrac (m : Meter) (pos : Nat) : Except Fault Double :=
  meterGet MTYPE_FRAC 8 (.fin 0) Meter.frac m pos

/-- Only this one looks at the value pointer first. -/
def meterGetStr (m : Meter) (pos : Nat) : Except Fault FString :=
  if m.d = none then .ok FString.empty
  else meterGet MTYPE_STR 128 FString.empty Meter.str m pos

end Opticon
