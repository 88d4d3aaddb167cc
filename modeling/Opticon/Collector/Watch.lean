import Opticon.Meter.Host

/-! Watchers, and the badness they make of a meter (`watchlist.c`, `adjust.c`). -/

namespace Opticon

/-- Trigger level for a watch or adjustment. -/
inductive Watchtrigger where
  | none | warn | alert | crit
  deriving DecidableEq

def Watchtrigger.level : Watchtrigger → Nat
  | .none => 0
  | .warn => 1
  | .alert => 2
  | .crit => 3

/-- The evaluation function of a watcher, with what it compares to. -/
inductive Watchtype where
  | fracLt (frac : ℚ)
  | fracGt (frac : ℚ)
  | uintLt (u64 : BitVec 64)
  | uintGt (u64 : BitVec 64)
  | strMatch (str : FString)
  | count (u64 : BitVec 64)
  deriving DecidableEq

structure Meterwatch where
  trigger : Watchtrigger
  id : MeterId
  tp : Watchtype
  badness : ℚ
  deriving DecidableEq

/-- What a host puts in the place of a watcher's value, if its weight is not 0. -/
structure Adjustdata (α : Type) where
  data : α
  weight : ℚ

inductive Watchadjusttype where
  | none
  | frac (adjust : Watchtrigger → Adjustdata ℚ)
  | uint (adjust : Watchtrigger → Adjustdata (BitVec 64))
  | str (adjust : Watchtrigger → Adjustdata FString)

structure Watchadjust where
  id : MeterId
  type : Watchadjusttype

def Adjustdata.apply {α : Type} (adj : Adjustdata α) (dat : α) : α :=
  if 1 / 10000 < adj.weight then adj.data else dat

def fracadj (adj : Option Watchadjust) (trigger : Watchtrigger) (dat : ℚ) : ℚ :=
  match adj with
  | some ⟨_, .frac adjust⟩ => (adjust trigger).apply dat
  | _ => dat

def intadj (adj : Option Watchadjust) (trigger : Watchtrigger) (dat : BitVec 64) : BitVec 64 :=
  match adj with
  | some ⟨_, .uint adjust⟩ => (adjust trigger).apply dat
  | _ => dat

def stradj (adj : Option Watchadjust) (trigger : Watchtrigger) (dat : FString) : FString :=
  match adj with
  | some ⟨_, .str adjust⟩ => (adjust trigger).apply dat
  | _ => dat

/-- Look up a watchadjust by its meterid. -/
def adjustlistFind (self : List Watchadjust) (id : MeterId) : Option Watchadjust :=
  self.find? fun w => w.id &&& MMASK_NAME == id &&& MMASK_NAME

def Double.lt : Double → ℚ → Bool
  | .fin d, q => d < q
  | .inf, _ => false

def Double.gt : Double → ℚ → Bool
  | .fin d, q => q < d
  | .inf, _ => true

/-- The number of elements `WATCH_COUNT` goes by. -/
def watchCount (m : Meter) : Nat :=
  if SZ_EMPTY_ARRAY ≤ m.count then 0 else elemCount m.count

def watchFires (m : Meter) (w : Meterwatch) (adj : Option Watchadjust) (i : Nat) :
    Except Fault Bool :=
  match w.tp with
  | .fracGt frac => do return (← meterGetFrac m i).gt (fracadj adj w.trigger frac)
  | .fracLt frac => do return (← meterGetFrac m i).lt (fracadj adj w.trigger frac)
  | .uintGt u64 => do return intadj adj w.trigger u64 < (← meterGetUint m i)
  | .uintLt u64 => do return (← meterGetUint m i) < intadj adj w.trigger u64
  | .count u64 => .ok ((intadj adj w.trigger u64).toNat ≤ watchCount m)
  | .strMatch str => do return (← meterGetStr m i).str == (stradj adj w.trigger str).str

def Watchtrigger.max (t t' : Watchtrigger) : Watchtrigger := if t.level < t'.level then t' else t

/-- The elements from `i` on; there are `n` of them. -/
def badnessLoop (m : Meter) (w : Meterwatch) (adj : Option Watchadjust) :
    Nat → Nat → ℚ → Watchtrigger → Except Fault (ℚ × Watchtrigger)
  | 0, _, res, maxtrig => .ok (res, maxtrig)
  | n + 1, i, res, maxtrig => do
    if ← watchFires m w adj i then
      badnessLoop m w adj n (i + 1) (res + w.badness) (maxtrig.max w.trigger)
    else badnessLoop m w adj n (i + 1) res maxtrig

/-- Turn a meter value into a badness number, accumulated for all array nodes. -/
def calculateBadness (m : Meter) (w : Meterwatch) (adj : Option Watchadjust)
    (maxtrig : Watchtrigger) : Except Fault (ℚ × Watchtrigger) :=
  badnessLoop m w adj (elemCount m.count) 0 0 maxtrig

def Meterwatch.watches (w : Meterwatch) (id : MeterId) : Bool :=
  w.id &&& MMASK_NAME == id &&& MMASK_NAME

/-- Go over a list of watchers for a meter. The last component tells whether there was one for
it. -/
def watchLoop (m : Meter) (adj : Option Watchadjust) :
    List Meterwatch → ℚ → Watchtrigger → Bool → Except Fault (ℚ × Watchtrigger × Bool)
  | [], badness, maxtrigger, handled => .ok (badness, maxtrigger, handled)
  | w :: ws, badness, maxtrigger, handled =>
    if w.watches m.id then do
      let (b, maxtrigger) ← calculateBadness m w adj maxtrigger
      watchLoop m adj ws (badness + b) maxtrigger true
    else watchLoop m adj ws badness maxtrigger handled

/-- First go over the tenant-defined watchers; if the tenant didn't have anything suitable, go
over the global ones. -/
def watchMeter (watch global : List Meterwatch) (m : Meter) (adj : Option Watchadjust)
    (maxtrigger : Watchtrigger) : Except Fault (ℚ × Watchtrigger) := do
  let (badness, maxtrigger, handled) ← watchLoop m adj watch 0 maxtrigger false
  if handled then return (badness, maxtrigger)
  else
    let (badness, maxtrigger, _) ← watchLoop m adj global badness maxtrigger false
    return (badness, maxtrigger)

end Opticon
