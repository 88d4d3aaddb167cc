import Opticon.Collector.Metadata

/-! Summaries over the meters of a tenant's hosts (`summary.c`). -/

namespace Opticon

/-- What the arithmetic of doubles is taken from the processor for: the `uint64_t` it makes of a double
that is out of its range. `infinity` is how a tree, whose doubles are exact, holds the infinity. -/
structure Doubles where
  wild : Double → BitVec 64
  infinity : ℚ

def plainDoubles : Doubles := ⟨fun _ => 0, 0⟩

def Double.add : Double → Double → Double
  | .fin d, .fin d' => .fin (d + d')
  | _, _ => .inf

def Double.div : Double → ℤ → Double
  | .fin d, n => .fin (d / n)
  | .inf, _ => .inf

/-- The cast to a `uint64_t`. -/
def Doubles.toUint (o : Doubles) : Double → BitVec 64
  | .fin d => if -1 < d ∧ d < 2 ^ 64 then BitVec.ofNat 64 ⌊d⌋.toNat else o.wild (.fin d)
  | .inf => o.wild .inf

def Doubles.dval (o : Doubles) : Double → ℚ
  | .fin d => d
  | .inf => o.infinity

/-- A summary while samples are taken. What `d` points to is one integer, one double or one string, or
nothing. -/
structure Summary extends Summarydata where
  d : Option Slot
  samplecount : BitVec 32

def Slot.u64 : Slot → BitVec 64
  | .int v => v
  | _ => 0

def Slot.double : Slot → Double
  | .frac d => d
  | _ => .fin 0

def Slot.text : Slot → FString
  | .str s => s
  | _ => FString.empty

def summarydataClear (self : Summary) : Summary := { self with samplecount := 0, d := none }

/-- Reset all sample data back to zero. -/
def summarydataClearSample (self : Summary) : Summary :=
  if self.meter &&& MMASK_TYPE = MTYPE_STR then { self with samplecount := 0 }
  else summarydataClear self

/-- The samples counted, as a `uint64_t`. -/
def Summary.count (self : Summary) : BitVec 64 := self.samplecount.signExtend 64

/-- The result without samples. -/
def Summary.zero (self : Summary) : VarValue :=
  if self.meter &&& MMASK_TYPE = MTYPE_FRAC then .double 0 else .int 0

def summarydataCalcAvg (o : Doubles) (self : Summary) : VarValue :=
  match self.d with
  | none => self.zero
  | some x =>
    if self.samplecount = 0 then self.zero
    else if self.meter &&& MMASK_TYPE = MTYPE_INT then .int (x.u64 / self.count)
    else if self.meter &&& MMASK_TYPE = MTYPE_FRAC then
      .double (o.dval (x.double.div self.samplecount.toInt))
    else .int 0

def summarydataCalcTotal (o : Doubles) (self : Summary) : VarValue :=
  match self.d with
  | none => self.zero
  | some x =>
    if self.meter &&& MMASK_TYPE = MTYPE_INT then .int x.u64
    else if self.meter &&& MMASK_TYPE = MTYPE_FRAC then .double (o.dval x.double)
    else .int 0

/-- What a meter adds to a number: its value, converted from the type the meter has. -/
def summarySample {α : Type} (m : Meter) (zero : α) (int : BitVec 64 → α) (frac : Double → α)
    (str : FString → α) : Except Fault α :=
  if m.type = MTYPE_INT then do
    m.inBounds 8 0
    return int (m.uint 0)
  else if m.type = MTYPE_FRAC then do
    m.inBounds 8 0
    return frac (m.frac 0)
  else if m.type = MTYPE_STR then do
    m.inBounds 128 0
    return str (m.str 0)
  else .ok zero

/-- Add a sample to a summarydata structure. `m` stands for the id and the value pointer of a meter,
which the callers pass. -/
def summarydataAdd (o : Doubles) (self : Summary) (m : Meter) : Except Fault Summary :=
  if self.meter &&& MMASK_TYPE = MTYPE_INT then do
    let x ← summarySample m 0 id o.toUint fun s => strtoullOf s.str
    return { self with
      d := some (.int ((self.d.map Slot.u64).getD 0 + x))
      samplecount := self.samplecount + 1 }
  else if self.meter &&& MMASK_TYPE = MTYPE_FRAC then do
    let x ← summarySample m (.fin 0) (fun v => .fin v.toNat) id fun s => .fin (atofOf s.str)
    return { self with
      d := some (.frac (((self.d.map Slot.double).getD (.fin 0)).add x))
      samplecount := self.samplecount + 1 }
  else if self.meter &&& MMASK_TYPE = MTYPE_STR then
    let text := (self.d.map Slot.text).getD FString.empty
    let self := { self with d := some (.str text) }
    if m.type ≠ MTYPE_STR then .ok self
    else do
      m.inBounds 128 0
      if m.str 0 = text then return { self with samplecount := self.samplecount + 1 }
      return self
  else .ok self

def summaryinfoAddSummaryAny (self : List Summary) (name : List UInt8) (mid : MeterId)
    (mytype : Summarytype) : List Summary :=
  self ++ [⟨⟨FString.strncpy name, mid, mytype⟩, none, 0⟩]

def summaryinfoAddSummaryAvg (self : List Summary) (name : List UInt8) (mid : MeterId) : List Summary :=
  summaryinfoAddSummaryAny self name mid .avg

def summaryinfoAddSummaryTotal (self : List Summary) (name : List UInt8) (mid : MeterId) : List Summary :=
  summaryinfoAddSummaryAny self name mid .total

/-- The match meter is going to be a string no matter what. -/
def summaryinfoAddSummaryCount (self : List Summary) (name : List UInt8) (mid : MeterId)
    (text : List UInt8) : List Summary :=
  self ++ [⟨⟨FString.strncpy name, mid &&& MMASK_NAME ||| MTYPE_STR, .count (FString.strncpy text)⟩,
    some (.str (FString.strncpy text)), 0⟩]

/-- Indicate a beginning of a summary round. -/
def summaryinfoStartRound (self : List Summary) : List Summary :=
  self.map summarydataClearSample

/-- What becomes of one summary when a meter is fed. -/
def Summary.feed (o : Doubles) (self : Summary) (m : Meter) : Except Fault Summary :=
  if self.meter &&& MMASK_NAME = m.id &&& MMASK_NAME then summarydataAdd o self m else .ok self

/-- Feed the summarizer metering data. -/
def summaryinfoAddMeterdata (o : Doubles) (self : List Summary) (m : Meter) :
    Except Fault (List Summary) :=
  self.mapM fun crsr => crsr.feed o m

/-- What is tallied up for one summary. -/
def Summary.tally (o : Doubles) (self : Summary) : VarValue :=
  match self.type with
  | .avg => summarydataCalcAvg o self
  | .total => summarydataCalcTotal o self
  | .count _ => .int self.count

/-- Tally up all summary data and dump it into a var, with values indexed by summary name. -/
def summaryinfoTallyRound (ihash : BitVec 32) (o : Doubles) (self : List Summary) : Var :=
  self.foldl (fun res crsr => varSetForkey ihash res crsr.name.str (crsr.tally o)) (varAlloc .null)

/-- The part of `watchthread_run` that is about the summaries of a tenant: `ms` are the meters of its
hosts, as they come by. -/
def summaryRound (o : Doubles) (self : List Summary) (ms : List Meter) :
    Except Fault (List Summary) :=
  ms.foldlM (summaryinfoAddMeterdata o) (summaryinfoStartRound self)

end Opticon
