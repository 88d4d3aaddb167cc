import Opticon.Collector.Packets
import Opticon.Collector.Watch

/-! The rounds of the watcher (`watcher.c`). -/

namespace Opticon

/-- What a round goes by for a host: the time, the watchers of its tenant and the global ones,
its own adjustments, what was measured for the address in a text, and whether the database
can be opened and knows the host. -/
structure Round where
  tnow : Nat
  watch : List Meterwatch
  global : List Meterwatch
  adjust : List Watchadjust
  ping : List UInt8 → Double × Double
  dbOpen : Bool
  hostExists : Bool

/-- A change of status that is written to the log and handed to `tenant_set_notification`. -/
structure Report where
  isproblem : Bool
  status : List UInt8
  deriving DecidableEq

/-- The host after a round, if it was not removed, and what was reported. -/
structure Watched where
  host : Option Host
  report : Option Report

def midStatus : MeterId := makeid (asc "status") MTYPE_STR

/-- Put a fraction into the meter of this id. -/
def setFracMeter (h : Host) (i : Nat) (val : Double) : Except Fault Host := do
  let h ← h.updateMeter i fun m => meterSetcount h.lastmodified m 0
  h.updateMeter i fun m => meterSetFrac h.lastmodified m 0 val

/-- Put the round trip time and the loss for a host's address into its meters. -/
def pingMeters (r : Round) (h : Host) : Except Fault Host :=
  match h.meters.find? fun m => m.id == makeid (asc "link/ip") MTYPE_STR with
  | none => .ok h
  | some m_ip => do
    let ipstr ← meterGetStr m_ip 0
    if ipstr.str = [] then return h
    else
      let (h, m_rtt) := hostGetMeter h (makeid (asc "link/rtt") MTYPE_FRAC)
      let (h, m_loss) := hostGetMeter h (makeid (asc "link/loss") MTYPE_FRAC)
      let h ← setFracMeter h m_rtt (r.ping ipstr.str).1
      setFracMeter h m_loss (r.ping ipstr.str).2

/-- Figure out badness for each meter: the meters, the number of problems, the sum and the
highest trigger. -/
def badnessRound (r : Round) : List Meter → Nat → ℚ → Watchtrigger →
    Except Fault (List Meter × Nat × ℚ × Watchtrigger)
  | [], problemcount, totalbadness, maxtrigger => .ok ([], problemcount, totalbadness, maxtrigger)
  | m :: ms, problemcount, totalbadness, maxtrigger => do
    let m := { m with badness := 0 }
    let (badness, maxtrigger) ←
      watchMeter r.watch r.global m (adjustlistFind r.adjust m.id) maxtrigger
    let problemcount := if badness ≠ 0 then problemcount + 1 else problemcount
    let (ms, rest) ← badnessRound r ms problemcount (totalbadness + badness) maxtrigger
    return ({ m with badness := badness } :: ms, rest)

/-- Don't raise a CRIT alert on a WARN condition. -/
def cappedBadness (maxtrigger : Watchtrigger) (badness totalbadness : ℚ) : ℚ :=
  match maxtrigger with
  | .none => 0
  | .warn => if 50 < badness then 0 else totalbadness
  | .alert => if 90 < badness then 0 else totalbadness
  | .crit => if 150 < badness then 0 else totalbadness

/-- If there are no problems, badness should be going down. -/
def decayed (badness : ℚ) : ℚ :=
  if 100 < badness then badness / 2
  else if 50 < badness then badness * (3 / 4)
  else if 25 < badness then badness - 25 / 2
  else 0

/-- Fill in the problem array, from the position `i` on. -/
def fillProblems (m_problems : Nat) : List Meter → Nat → Host → Except Fault Host
  | [], _, h => .ok h
  | m :: ms, i, h =>
    if 16 ≤ i then .ok h
    else if 0 < m.badness then do
      let h ← h.updateMeter m_problems fun p => meterSetStr h.lastmodified p i (id2str m.id)
      fillProblems m_problems ms (i + 1) h
    else fillProblems m_problems ms i h

/-- Convert badness to a status text. -/
def statusText (badness : ℚ) : List UInt8 :=
  if badness < 30 then asc "OK"
  else if badness < 80 then asc "WARN"
  else if badness < 120 then asc "ALERT"
  else asc "CRIT"

/-- Put up the problems as a meter. -/
def problemMeter (problemcount : Nat) (totalbadness : ℚ) (h : Host) : Except Fault Host := do
  let (h, m_problems) := hostGetMeter h (makeid (asc "problems") MTYPE_STR)
  if problemcount = 0 then
    let h : Host := { h with badness := decayed h.badness }
    h.updateMeter m_problems fun m => meterSetEmptyArray h.lastmodified m
  else
    -- at the top, the current level decays slowly
    let h := if totalbadness = 0 then { h with badness := h.badness * (9 / 10) } else h
    let h ← h.updateMeter m_problems fun m => meterSetcount h.lastmodified m problemcount
    fillProblems m_problems h.meters 0 h

/-- The loop over the meters goes by the first one as it was when the round began, and does
nothing if there was none. -/
def badnessPass (r : Round) (empty : Bool) (ms : List Meter) :
    Except Fault (List Meter × Nat × ℚ × Watchtrigger) :=
  if empty then .ok (ms, 0, 0, .none) else badnessRound r ms 0 0 .none

/-- The badness of a host that is not stale, and its meters for problems and badness. -/
def handleBadness (r : Round) (empty : Bool) (h : Host) : Except Fault Host := do
  let (meters, problemcount, totalbadness, maxtrigger) ← badnessPass r empty h.meters
  let totalbadness := cappedBadness maxtrigger h.badness totalbadness
  let h ← problemMeter problemcount totalbadness
    { h with meters := meters, badness := h.badness + totalbadness }
  let (h, m_badness) := hostGetMeter h (makeid (asc "badness") MTYPE_FRAC)
  setFracMeter h m_badness (.fin h.badness)

/-- The status that is stored at a host's meter for it. -/
def readStatus (h : Host) (m_status : Nat) : Except Fault FString :=
  match h.meters[m_status]? with
  | none => .error .nullPointer
  | some m => meterGetStr m 0

/-- Inspects a host's metering data to determine its current status and problems. -/
def watchthreadHandleHost (r : Round) (host : Host) : Except Fault Watched := do
  let h ← pingMeters r host
  let (h, m_status) := hostGetMeter h midStatus
  let ostatus ← readStatus h m_status
  let h ← h.updateMeter m_status fun m => meterSetcount h.lastmodified m 0
  let ostatus := if ostatus.str = [] then asc "UNSET" else ostatus.str
  if 80 < r.tnow - h.lastmodified then
    let report := if ostatus ≠ asc "STALE" then some ⟨true, asc "STALE"⟩ else none
    let h ← h.updateMeter m_status fun m => meterSetStr h.lastmodified m 0 (asc "STALE")
    if r.dbOpen ∧ ¬ r.hostExists then return ⟨none, report⟩
    else return ⟨some h, report⟩
  else
    let h ← handleBadness r (host.meters = []) h
    let nstatus := statusText h.badness
    let report := if nstatus ≠ ostatus then some ⟨80 ≤ h.badness, nstatus⟩ else none
    let h ← h.updateMeter m_status fun m => meterSetStr h.lastmodified m 0 nstatus
    return ⟨some h, report⟩

/-- A round comes to the host at an address. -/
def watchHost (r : Round) (addr : Nat) (c : Collector) : Except Fault (Collector × Option Report) := do
  let h ← c.deref addr
  let w ← watchthreadHandleHost r h
  match w.host with
  | none => return (hostDelete c addr, w.report)
  | some h => return (c.setHost addr h, w.report)

end Opticon
