import Mathlib.Data.Int.Order.Basic
import Opticon.Lib.Transition
import Opticon.Wire.Pktwrap

/-! The main loop of the agent (`daemon_main`). Times are whole seconds; `V` are the trees that
the probes return. -/

universe u

namespace Opticon

inductive Probetype where
  | none
  | builtin
  | exec
  | nagios
  deriving DecidableEq

/-- A probe, as far as only the main loop writes it. -/
structure Probe where
  type : Probetype
  id : List UInt8
  interval : ℤ
  lastpulse : ℤ
  lastdispatch : ℤ

/-- A collector the agent talks to, with the packet that its resender thread keeps. -/
structure AgentCollector where
  auth : Authinfo
  lastkeyrotate : ℤ
  resend : Option Authinfo

/-- A packet before it is encrypted: an authentication packet with its serial, or the encoded
host under the id and the key of a session. -/
inductive AgentPacket where
  | auth (auth : Authinfo)
  | meter (sessid serial : BitVec 32) (key : AesKey) (data : List UInt8)

/-- What the thread of a probe has left at this moment: the time of the reply, its tree, and
the number under `status` in the tree. -/
structure ProbeReply (V : Type u) where
  lastreply : ℤ
  value : V
  status : BitVec 64

/-- The values of one round: the imported trees, and what the nagios probes add. -/
structure Collection (V : Type u) where
  imported : List V
  chkwarn : List (List UInt8)
  chkalert : List (List UInt8)
  collected : ℕ
  ncollected : ℕ

/-- What a round finds outside of the main loop: the clock at its start, when a first serial is
made and at its end, the random ids and keys for each collector, and the replies. -/
structure Moment (V : Type u) where
  tnow : ℤ
  tserial : ℤ
  tdone : ℤ
  gen_sessionid : ℕ → BitVec 32
  aeskey_create : ℕ → AesKey
  vcurrent : ℕ → Option (ProbeReply V)

structure Agent where
  nextslow : ℤ
  nextsend : ℤ
  probes : List Probe
  collectors : List AgentCollector
  SERIAL : BitVec 32

/-- What a round did: its lanes, the probes that were kicked, the keys that were made, the
packets with the collectors they were sent to, and the time it slept until. -/
structure AgentRound where
  tnow : ℤ
  slowround : Bool
  fast : Bool
  pulses : List ℕ
  rotations : List ℕ
  sent : List (ℕ × AgentPacket)
  sleep : Option ℤ

def agentStart (start : ℤ) (probes : List Probe) (collectors : List AgentCollector) : Agent where
  nextslow := start + 5
  nextsend := start + 10
  probes := probes
  collectors := collectors
  SERIAL := 0

def genSerial (time : ℤ) (SERIAL : BitVec 32) : BitVec 32 :=
  if SERIAL = 0 then BitVec.ofInt 32 time else SERIAL + 1

variable {V : Type u}

/-- The session of a collector at the start of a slow round. The key is changed every half
hour. -/
def authenticate (m : Moment V) (i : ℕ) (c : AgentCollector) : AgentCollector × Bool :=
  let sid := if c.auth.sessionid = 0 then m.gen_sessionid i else c.auth.sessionid
  let auth := { c.auth with sessionid := sid, serial := 0 }
  if 1800 < m.tnow - c.lastkeyrotate then
    ({ c with auth := { auth with sessionkey := m.aeskey_create i }, lastkeyrotate := m.tnow }, true)
  else ({ c with auth := auth }, false)

/-- The packet goes out, and to the resender. -/
def schedule (c : AgentCollector) (serial : BitVec 32) : AgentCollector × AgentPacket :=
  let auth := { c.auth with serial := serial }
  ({ c with resend := some auth }, .auth auth)

/-- The slow round's loop over the collectors, from number `i` on. -/
def authenticateAll (m : Moment V) (i : ℕ) (SERIAL : BitVec 32) :
    List AgentCollector → List AgentCollector × List ℕ × List (ℕ × AgentPacket) × BitVec 32
  | [] => ([], [], [], SERIAL)
  | c :: cs =>
    let serial := genSerial m.tserial SERIAL
    let (c, rotated) := authenticate m i c
    let (c, pkt) := schedule c serial
    let (cs, rotations, sent, SERIAL) := authenticateAll m (i + 1) serial cs
    (c :: cs, if rotated then i :: rotations else rotations, (i, pkt) :: sent, SERIAL)

def Probe.due (p : Probe) (tnow : ℤ) : Bool := p.lastpulse + p.interval ≤ tnow

/-- Kick the probe if it is due. -/
def Probe.poke (p : Probe) (tnow : ℤ) : Probe :=
  if p.due tnow then { p with lastpulse := tnow } else p

/-- Whether the tree of a probe is picked up in this lane. -/
def Probe.collects (p : Probe) (slowround : Bool) (r : ProbeReply V) : Bool :=
  p.lastdispatch ≤ r.lastreply &&
    ((slowround && 60 < p.interval) || (!slowround && p.interval < 61))

/-- Nagios probes are only counted, and named when their status is not zero. -/
def Collection.add (col : Collection V) (p : Probe) (r : ProbeReply V) : Collection V :=
  if p.type = .nagios then
    let pstatus : BitVec 32 := r.status.setWidth 32
    let col := { col with ncollected := col.ncollected + 1 }
    if pstatus = 0 then col
    else if pstatus = 1 then
      { col with chkwarn := col.chkwarn ++ [p.id], collected := col.collected + 1 }
    else { col with chkalert := col.chkalert ++ [p.id], collected := col.collected + 1 }
  else { col with imported := col.imported ++ [r.value], collected := col.collected + 1 }

/-- The second loop over the probes, from number `i` on. -/
def collectAll (m : Moment V) (slowround : Bool) (i : ℕ) (col : Collection V) :
    List Probe → List Probe × Collection V
  | [] => ([], col)
  | p :: ps =>
    match m.vcurrent i with
    | some r =>
      if p.collects slowround r then
        let (ps, col) := collectAll m slowround (i + 1) (col.add p r) ps
        ({ p with lastdispatch := m.tnow } :: ps, col)
      else
        let (ps, col) := collectAll m slowround (i + 1) col ps
        (p :: ps, col)
    | none =>
      let (ps, col) := collectAll m slowround (i + 1) col ps
      (p :: ps, col)

/-- The trees of the lane that is due, if one is. -/
def collectLane (m : Moment V) (slowround fast : Bool) (probes : List Probe) :
    List Probe × Collection V :=
  if slowround || fast then collectAll m slowround 0 ⟨[], [], [], 0, 0⟩ probes
  else (probes, ⟨[], [], [], 0, 0⟩)

/-- `while (nextsend <= tnow) nextsend += 60` -/
def advance (nextsend tnow : ℤ) : ℤ :=
  if nextsend ≤ tnow then advance (nextsend + 60) tnow else nextsend
termination_by (tnow + 1 - nextsend).toNat
decreasing_by omega

/-- The last loop over the collectors, from number `i` on. A packet that cannot be wrapped up
uses its serial up. -/
def sendAll (deflate : List UInt8 → List UInt8) (data : List UInt8) (time : ℤ) (i : ℕ)
    (SERIAL : BitVec 32) : List AgentCollector → List (ℕ × AgentPacket) × BitVec 32
  | [] => ([], SERIAL)
  | c :: cs =>
    let serial := genSerial time SERIAL
    let (sent, SERIAL) := sendAll deflate data time (i + 1) serial cs
    if (compressData deflate data).isSome then
      ((i, .meter c.auth.sessionid serial c.auth.sessionkey data) :: sent, SERIAL)
    else (sent, SERIAL)

/-- The time of the next event. -/
def wakenext (tnow nextslow nextsend : ℤ) (probes : List Probe) : ℤ :=
  min (min (probes.foldl (fun w p => min w (p.lastpulse + p.interval)) (tnow + 300)) nextsend)
    nextslow

/-- One pass of the main loop. `encode` is what the host makes of the values it imports and the
codec of the host; the pass ends early when that fails. -/
def daemonRound (encode : Collection V → Option (List UInt8)) (deflate : List UInt8 → List UInt8)
    (m : Moment V) (s : Agent) : Agent × AgentRound :=
  let slowround : Bool := s.nextslow ≤ m.tnow
  let auth :=
    if slowround then authenticateAll m 0 s.SERIAL s.collectors
    else (s.collectors, [], [], s.SERIAL)
  let nextslow := if slowround then s.nextslow + 300 else s.nextslow
  let pulses := (s.probes.zipIdx.filter fun p => p.1.due m.tnow).map Prod.snd
  let poked := s.probes.map (·.poke m.tnow)
  let fast : Bool := !slowround && s.nextsend ≤ m.tnow
  let nextsend := if fast then advance s.nextsend m.tnow else s.nextsend
  let lane := collectLane m slowround fast poked
  let wake := wakenext m.tnow nextslow nextsend lane.1
  let sleep := if m.tdone < wake then some wake else none
  let done (send : List (ℕ × AgentPacket) × BitVec 32) (sleep : Option ℤ) : Agent × AgentRound :=
    (⟨nextslow, nextsend, lane.1, auth.1, send.2⟩,
      ⟨m.tnow, slowround, fast, pulses, auth.2.1, auth.2.2.1 ++ send.1, sleep⟩)
  if lane.2.collected = 0 then done ([], auth.2.2.2) sleep
  else match encode lane.2 with
    | none => done ([], auth.2.2.2) none
    | some data => done (sendAll deflate data m.tserial 0 auth.2.2.2 auth.1) sleep

end Opticon
