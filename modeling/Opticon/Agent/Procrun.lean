import Mathlib.Data.Rat.Defs
import Opticon.Lib.Outcome
import Opticon.Lib.SlotTable
import Opticon.Meter.Data

/-! Accounting of the running processes (`tproc.c`). Memory that was allocated and not written
is `none`. -/

namespace Opticon

open Outcome

def CLK_TCK : ℤ := 100

/-- The `double` fields hold whole numbers (`pcpu`) or are only stored (`pmem`). A slot with the
pid 0 is free. -/
structure Tproc where
  pid : ℕ
  utimeStart : UInt64
  stimeStart : UInt64
  utimeRun : UInt64
  stimeRun : UInt64
  pmem : ℚ
  uid : ℕ
  gid : ℕ
  beat : ℤ
  pcpu : ℕ
  ptitle : List UInt8

structure Procrun where
  arraysz : ℕ
  count : ℕ
  array : List (Option Tproc)
  tiStart : ℤ
  tiNow : ℤ
  totalTicks : UInt64
  pcpu : ℕ
  ncpu : ℕ

/-- What a slot holds after `bzero`. -/
def emptyTproc : Tproc := ⟨0, 0, 0, 0, 0, 0, 0, 0, 0, 0, []⟩

def procrunInit (now : ℤ) : Procrun where
  arraysz := 16
  count := 0
  array := List.replicate 16 (some emptyTproc)
  tiStart := now
  tiNow := now
  totalTicks := 0
  pcpu := 0
  ncpu := 1

/-! ## The array -/

def readSlot (p : Procrun) (crsr : ℕ) : Except Fault Tproc :=
  match p.array[crsr]? with
  | some (some t) => .ok t
  | some none => .error .uninitialised
  | none => .error .outOfBounds

def writeSlot (p : Procrun) (crsr : ℕ) (t : Tproc) : Except Fault Procrun :=
  if crsr < p.array.length then .ok { p with array := p.array.set crsr (some t) }
  else .error .outOfBounds

/-- `while (crsr < p->count)` up to the slot with a pid, for `fuel` slots from `crsr` on. -/
def scanSlots (p : Procrun) (pid : ℕ) : (fuel crsr : ℕ) → Except Fault (Option ℕ)
  | 0, _ => .ok none
  | fuel + 1, crsr => do
    let t ← readSlot p crsr
    if t.pid = pid then .ok (some crsr) else scanSlots p pid fuel (crsr + 1)

def procrunFindproc (p : Procrun) (pid : ℕ) : Except Fault (Option ℕ) :=
  scanSlots p pid p.count 0

/-- `p->array[crsr].beat = p->ti_now`, in a slot that may not have been written before. -/
def writeBeat (p : Procrun) (crsr : ℕ) : Except Fault Procrun :=
  if crsr < p.array.length then
    .ok { p with array := p.array.modify crsr (Option.map ({ · with beat := p.tiNow })) }
  else .error .outOfBounds

/-- `realloc`, which leaves what it adds unwritten. -/
def growArray (p : Procrun) (size : ℕ) : List (Option Tproc) :=
  p.array.take size ++ List.replicate (size - p.array.length) none

def procrunAlloc (p : Procrun) : Except Fault (ℕ × Procrun) := do
  match ← scanSlots p 0 p.count 0 with
  | some crsr =>
    let p ← writeBeat p crsr
    .ok (crsr, p)
  | none =>
    if p.count < p.arraysz then
      let crsr := p.count
      let p ← writeBeat p crsr
      .ok (crsr, { p with count := p.count + 1 })
    else
      let arraysz := p.arraysz * 2
      let p := { p with arraysz := arraysz, array := growArray p arraysz }
      let crsr := p.count
      let p ← writeBeat p crsr
      .ok (crsr, { p with count := p.count + 1 })

/-- The arguments of a call of `procrun_setproc`. -/
structure ProcReport where
  pid : ℕ
  utime : UInt64
  stime : UInt64
  uid : ℕ
  gid : ℕ
  ptitle : List UInt8
  pmem : ℚ

def newTproc (now : ℤ) (r : ProcReport) : Tproc where
  pid := r.pid
  utimeStart := r.utime
  stimeStart := r.stime
  utimeRun := 0
  stimeRun := 0
  pmem := r.pmem
  uid := r.uid
  gid := r.gid
  beat := now
  pcpu := 0
  ptitle := r.ptitle.take 47

/-- The total time spent during the sample period. -/
def runTproc (now : ℤ) (r : ProcReport) (t : Tproc) : Tproc :=
  { t with
    utimeRun := r.utime - t.utimeStart
    stimeRun := r.stime - t.stimeStart
    pmem := r.pmem
    beat := now }

def procrunSetproc (p : Procrun) (r : ProcReport) : Except Fault Procrun := do
  match ← procrunFindproc p r.pid with
  | none =>
    let (ipos, p) ← procrunAlloc p
    writeSlot p ipos (newTproc p.tiNow r)
  | some ipos =>
    let t ← readSlot p ipos
    writeSlot p ipos (runTproc p.tiNow r t)

/-! ## A round -/

/-- `for (crsr = 0; crsr < p->count; ++crsr)`, for `fuel` slots from `crsr` on. -/
def eachSlot (body : Procrun → Tproc → Procrun × Tproc) :
    (fuel crsr : ℕ) → Procrun → Except Fault Procrun
  | 0, _, p => .ok p
  | fuel + 1, crsr, p => do
    let t ← readSlot p crsr
    let p ← writeSlot (body p t).1 crsr (body p t).2
    eachSlot body fuel (crsr + 1) p

/-- The elapsed ticks in an `unsigned short`. -/
def tickDelta (p : Procrun) : ℕ :=
  let tdelta := ((p.tiNow - p.tiStart) * CLK_TCK % 2 ^ 16).toNat
  if tdelta = 0 then 1 else tdelta

def ustime (tdelta : ℕ) (t : Tproc) : ℕ := min (t.stimeRun + t.utimeRun).toNat tdelta

def calcSlot (tdelta : ℕ) (p : Procrun) (t : Tproc) : Procrun × Tproc :=
  if t.pid ≠ 0 then
    ({ p with totalTicks := p.totalTicks + UInt64.ofNat (ustime tdelta t) },
      { t with pcpu := 10000 * ustime tdelta t / tdelta })
  else (p, t)

/-- Run through a procrun to calculate CPU percentages for a round. -/
def procrunCalc (p : Procrun) : Except Fault Procrun := do
  let tdelta := tickDelta p
  let p ← eachSlot (calcSlot tdelta) p.count 0 { p with totalTicks := 0 }
  let totalTicks :=
    if tdelta * p.ncpu < p.totalTicks.toNat then UInt64.ofNat (tdelta * p.ncpu)
    else p.totalTicks
  .ok { p with totalTicks, pcpu := 100 * totalTicks.toNat / tdelta / p.ncpu }

def procrunInitsample (p : Procrun) (now : ℤ) : Procrun := { p with tiNow := now }

def newroundSlot (p : Procrun) (t : Tproc) : Procrun × Tproc :=
  if t.pid ≠ 0 then
    if 10 < p.tiNow - t.beat then (p, { t with pid := 0 })
    else
      (p, { t with
        utimeStart := t.utimeStart + t.utimeRun
        stimeStart := t.stimeStart + t.stimeRun
        utimeRun := 0
        stimeRun := 0
        pcpu := 0
        beat := p.tiNow })
  else (p, t)

/-- Reset timers and counters for all processes to prep for a new round. -/
def procrunNewround (p : Procrun) : Except Fault Procrun := do
  let p ← eachSlot newroundSlot p.count 0 p
  .ok { p with tiStart := p.tiNow }

/-- The processes that are found at a time. -/
structure ProcRound where
  time : ℤ
  reports : List ProcReport

/-- The sample and the percentages of a round. -/
def sampleRound (p : Procrun) (r : ProcRound) : Except Fault Procrun := do
  let p ← r.reports.foldlM procrunSetproc (procrunInitsample p r.time)
  procrunCalc p

def runRounds (p : Procrun) (rs : List ProcRound) : Except Fault Procrun :=
  rs.foldlM (fun p r => sampleRound p r >>= procrunNewround) p

end Opticon
