import Mathlib.Data.Rat.Floor
import Opticon.Lib.Outcome
import Opticon.Meter.Data

/-! The graph files of a host (`db_local.c`). Doubles are exact. -/

namespace Opticon

def GRAPHDATASZ : Nat := 12 * 24 * 30

/-- What a graph file holds. -/
structure Graphdata where
  writepos : Nat
  count : Nat
  accumulator : ℚ
  data : List ℚ
  length_data : data.length = GRAPHDATASZ

/-- Converts a timestamp to an offset in a graph file. A graph file is always 30 days worth of 5 minute
samples. -/
def localdbGraphOffset (ti : ℤ) : Nat :=
  let clipped := (BitVec.ofInt 32 (ti.tmod (30 * 86400))).toNat
  clipped / 300

/-- Calculate next offset in graph data. -/
def localdbOffsetNext (i : Nat) : Nat := (i + 1) % GRAPHDATASZ

/-- A file that is not there is made. -/
def localdbOpenGraph (now : Nat) (file : Option Graphdata) : Graphdata :=
  file.getD
    { writepos := localdbGraphOffset now
      count := 0
      accumulator := 0
      data := List.replicate GRAPHDATASZ 0
      length_data := List.length_replicate }

/-- A graph that gets its first value in another slot than the last one. -/
def Graphdata.moveTo (graph : Graphdata) (offnow : Nat) : Graphdata :=
  if offnow ≠ graph.writepos then { graph with writepos := offnow, accumulator := 0, count := 0 } else graph

/-- A value that is added to those in the slot. -/
def Graphdata.add (graph : Graphdata) (val : ℚ) : Except Fault Graphdata :=
  let count := (graph.count + 1) % 2 ^ 32
  let accumulator := graph.accumulator + val
  if count = 0 then .error .divisionByZero
  else if graph.writepos < GRAPHDATASZ then .ok
    { writepos := graph.writepos
      count := count
      accumulator := accumulator
      data := graph.data.set graph.writepos (accumulator / count)
      length_data := (List.length_set ..).trans graph.length_data }
  else .error .outOfBounds

def localdbSetGraph (now : Nat) (file : Option Graphdata) (val : ℚ) : Except Fault Graphdata :=
  let graph := localdbOpenGraph now file
  let offnow := localdbGraphOffset now
  (graph.moveTo offnow).add val

def graphSlot (data : List ℚ) (crsr : Nat) : Except Fault ℚ :=
  match data[crsr]? with
  | none => .error .outOfBounds
  | some val => .ok val

/-- The slots from `crsr` up to the one in front of that which is followed by `target`, their sum and
their number. -/
def sumSlots (data : List ℚ) (target : Nat) : Nat → Nat → ℚ → ℚ → Except Fault (Nat × ℚ × ℚ)
  | 0, _, _, _ => .error .endlessLoop
  | n + 1, crsr, ra, rc =>
    if localdbOffsetNext crsr ≠ target then do
      sumSlots data target n (localdbOffsetNext crsr) (ra + (← graphSlot data crsr)) (rc + 1)
    else .ok (crsr, ra, rc)

/-- The samples from `crsr` on, `n` of them. What is kept of the last slot of a sample is lost when the
next one begins. -/
def graphSamples (data : List ℚ) (samplesize : ℚ) : Nat → Nat → ℚ → Except Fault (List ℚ)
  | 0, _, _ => .ok []
  | n + 1, crsr, offsNext => do
    let (crsr, ra, rc) ← sumSlots data (⌊offsNext⌋.toNat % GRAPHDATASZ) GRAPHDATASZ crsr 0 0
    let crsr := localdbOffsetNext crsr
    let diff := offsNext - ⌊offsNext⌋
    let val ← graphSlot data crsr
    let (ra, rc) := if 1 / 100 < diff then (ra + val * diff, rc + diff) else (ra + val, rc + 1)
    if rc = 0 then .error .divisionByZero
    else return ra / rc :: (← graphSamples data samplesize n crsr (offsNext + samplesize))

/-- The samples of the time before now; the graph is returned because it may be new. -/
def localdbGetGraph (now : Nat) (file : Option Graphdata) (interval numsamples : Nat) :
    Except Fault (Option (List ℚ) × Option Graphdata) :=
  if numsamples = 0 then .ok (none, file)
  else
    let t_end : ℤ := now
    let t_start := t_end - interval
    let offs_start := localdbGraphOffset t_start
    let samplesize : ℚ := interval / (numsamples * 300)
    if samplesize < 1 then .ok (none, file)
    else do
      let graph := localdbOpenGraph now file
      let res ← graphSamples graph.data samplesize numsamples offs_start (offs_start + samplesize)
      return (some res, some graph)

end Opticon
