import Opticon.Lib.FairRun
import Opticon.Thread.Conditional
import Opticon.Wire.Packetqueue

/-! The queue of received packets with the conditional that wakes its consumer
(`packetqueue.c`). -/

universe u

namespace Opticon

/-- The queue with its conditional. The producer may have published a packet without having
signalled it, the consumer may have seen no data without waiting yet. -/
structure Waking (α : Type u) where
  base : Queueing α
  cond : Conditional
  signalling : Bool
  deciding : Bool

inductive WakeStep (α : Type u) where
  | receive (pkt : α) (sz : Nat)
  | publish
  | signal
  | check
  | wait
  | spurious
  | leave
  | take

variable {α : Type u}

/-- The step of `packetqueue_run` or `packetqueue_waitpkt` that is taken. -/
def WakeStep.apply (s : Waking α) : WakeStep α → Option (Waking α)
  | .receive pkt sz =>
    if s.signalling then none
    else ((QueueStep.receive pkt sz).apply s.base).map fun base => { s with base := base }
  | .publish =>
    if s.signalling then none
    else (QueueStep.publish.apply s.base).map fun base =>
      { s with base := base, signalling := true }
  | .signal =>
    if s.signalling then some { s with cond := conditionalSignal s.cond, signalling := false }
    else none
  | .check =>
    if s.cond.waiter = .away ∧ !s.deciding then
      (QueueStep.check.apply s.base).map fun base =>
        { s with base := base, deciding := !base.havedata }
    else none
  | .wait =>
    if s.deciding then some { s with cond := conditionalWait s.cond, deciding := false } else none
  | .spurious =>
    if s.cond.waiter = .blocked then some { s with cond := s.cond.spurious } else none
  | .leave => if s.cond.waiter = .woken then some { s with cond := s.cond.leave } else none
  | .take =>
    if s.cond.waiter = .away ∧ !s.deciding then
      (QueueStep.take.apply s.base).map fun base => { s with base := base }
    else none

/-- What the step is to the queue alone. -/
def WakeStep.base : WakeStep α → Option (QueueStep α)
  | .receive pkt sz => some (.receive pkt sz)
  | .publish => some .publish
  | .check => some .check
  | .take => some .take
  | _ => none

def waking (zero : α) (sz : Nat) : Transition (Waking α) (WakeStep α) :=
  .ofFun (fun s => s = ⟨⟨packetqueueCreate zero sz, none, false, none, [], 0, []⟩,
      conditionalInit, false, false⟩)
    fun s e => e.apply s

/-- The threads, without the arrival of packets. -/
inductive Party where
  | producer
  | consumer

def Party.steps : Party → WakeStep α → Prop
  | .producer, .publish | .producer, .signal => True
  | .consumer, .check | .consumer, .wait | .consumer, .leave | .consumer, .take => True
  | _, _ => False

/-- There is room for each packet, and the consumer is only woken by a signal. -/
def Prompted (s : Waking α) (e : WakeStep α) : Prop :=
  (∀ e', e.base = some e' → Roomy s.base e') ∧ e ≠ .spurious

variable {zero : α} {sz : Nat} {s s' : Waking α} {e : WakeStep α}

theorem WakeStep.base_step (h : e.apply s = some s') :
    (e.base = none ∧ s'.base = s.base) ∨ ∃ e', e.base = some e' ∧ e'.apply s.base = some s'.base := by
  cases e <;> simp only [apply, Option.ite_none_right_eq_some, Option.ite_none_left_eq_some] at h
  case receive | publish | check | take =>
    obtain ⟨-, h⟩ := h
    obtain ⟨base, hbase, rfl⟩ := Option.map_eq_some_iff.mp h
    exact .inr ⟨_, rfl, hbase⟩
  case signal | wait | spurious | leave =>
    obtain ⟨-, h⟩ := h
    cases h
    exact .inl ⟨rfl, rfl⟩

/-- The conditional adds nothing to what the queue does. -/
theorem Waking.base_reachable (h : ((waking zero sz).guard Prompted).Reachable s) :
    ((queueing zero sz).guard Roomy).Reachable s.base := by
  apply h.simulate (f := Waking.base)
  · rintro s rfl
    rfl
  · rintro s e s' ⟨hguard, hs⟩
    obtain ⟨-, heq⟩ | ⟨e', he, hs'⟩ := WakeStep.base_step hs
    · exact .inl heq
    · exact .inr ⟨e', hguard.1 e' he, hs'⟩

/-- A signal is kept for the consumer unless it takes it. -/
structure Awake (s : Waking α) : Prop where
  nonneg : 0 ≤ s.cond.queue
  blocked : s.cond.waiter = .blocked → s.cond.queue = 0
  woken : s.cond.waiter = .woken → 0 < s.cond.queue
  away : s.deciding = true → s.cond.waiter = .away ∧ s.base.havedata = false
  waiting : s.cond.waiter ≠ .away → s.base.havedata = false
  kept : s.deciding = true ∨ s.cond.waiter = .blocked → s.base.queue.havedata = true →
    s.signalling = true ∨ 0 < s.cond.queue

theorem Awake.init : Awake ⟨⟨packetqueueCreate zero sz, none, false, none, [], 0, []⟩,
    conditionalInit, false, false⟩ where
  nonneg := le_rfl
  blocked h := by cases h
  woken h := by cases h
  away h := by cases h
  waiting h := absurd rfl h
  kept h := by simp [conditionalInit] at h

section

variable {q q' : Queueing α}

theorem QueueStep.receive_seen {pkt : α} {n : Nat}
    (h : (QueueStep.receive pkt n).apply q = some q') :
    q'.havedata = q.havedata ∧ q'.queue.havedata = q.queue.havedata := by
  simp only [apply, Option.ite_none_right_eq_some, Packetqueue.recv] at h
  obtain ⟨-, h⟩ := h
  obtain ⟨queue, hqueue, rfl⟩ := Option.map_eq_some_iff.mp h
  obtain ⟨-, hqueue⟩ := Option.ite_none_right_eq_some.mp hqueue
  cases hqueue
  exact ⟨rfl, rfl⟩

theorem QueueStep.publish_seen (h : QueueStep.publish.apply q = some q') :
    q'.havedata = q.havedata := by
  obtain ⟨n, -, rfl⟩ := Option.map_eq_some_iff.mp h
  rfl

theorem QueueStep.check_seen (h : QueueStep.check.apply q = some q') :
    q.havedata = false ∧ q' = { q with havedata := q.queue.havedata } := by
  obtain ⟨hseen, h⟩ := Option.ite_none_left_eq_some.mp h
  cases h
  exact ⟨by simpa using hseen, rfl⟩

theorem QueueStep.take_seen (h : QueueStep.take.apply q = some q') :
    q.havedata = true ∧ q'.havedata = false ∧ q'.handed.length = q.handed.length + 1 ∧
      q'.published = q.published := by
  obtain ⟨hseen, h⟩ := Option.ite_none_right_eq_some.mp h
  obtain ⟨b, -, rfl⟩ := Option.map_eq_some_iff.mp h
  exact ⟨hseen, rfl, by simp, rfl⟩

end

theorem Awake.step (h : Awake s) (hs : e.apply s = some s') (hne : e ≠ .spurious) : Awake s' := by
  cases e <;> simp only [WakeStep.apply, Option.ite_none_right_eq_some,
    Option.ite_none_left_eq_some] at hs
  case receive pkt n =>
    obtain ⟨-, hs⟩ := hs
    obtain ⟨base, hbase, rfl⟩ := Option.map_eq_some_iff.mp hs
    obtain ⟨hseen, hdata⟩ := QueueStep.receive_seen hbase
    refine ⟨h.nonneg, h.blocked, h.woken, fun hd => ?_, fun hw => ?_, fun hd hq => ?_⟩
    · exact ⟨(h.away hd).1, hseen.trans (h.away hd).2⟩
    · exact hseen.trans (h.waiting hw)
    · exact h.kept hd (hdata.symm.trans hq)
  case publish =>
    obtain ⟨-, hs⟩ := hs
    obtain ⟨base, hbase, rfl⟩ := Option.map_eq_some_iff.mp hs
    have hseen := QueueStep.publish_seen hbase
    refine ⟨h.nonneg, h.blocked, h.woken, fun hd => ?_, fun hw => ?_, fun _ _ => .inl rfl⟩
    · exact ⟨(h.away hd).1, hseen.trans (h.away hd).2⟩
    · exact hseen.trans (h.waiting hw)
  case signal =>
    obtain ⟨-, hs⟩ := hs
    cases hs
    have hpos : 0 < s.cond.queue + 1 := Int.lt_add_one_of_le h.nonneg
    refine ⟨hpos.le, fun hb => ?_, fun _ => hpos, fun hd => ?_, fun hw => ?_, fun _ _ => .inr hpos⟩
    · simp only [conditionalSignal] at hb
      split at hb
      · cases hb
      · contradiction
    · obtain ⟨haway, hseen⟩ := h.away hd
      exact ⟨by simp [conditionalSignal, haway], hseen⟩
    · apply h.waiting
      intro haway
      exact hw (by simp [conditionalSignal, haway])
  case check =>
    obtain ⟨⟨haway, hdec⟩, hs⟩ := hs
    obtain ⟨base, hbase, rfl⟩ := Option.map_eq_some_iff.mp hs
    obtain ⟨-, rfl⟩ := QueueStep.check_seen hbase
    refine ⟨h.nonneg, h.blocked, h.woken, fun hd => ⟨haway, by simpa using hd⟩,
      fun hw => absurd haway hw, fun hd hq => ?_⟩
    -- what it sees at this moment is what it decides on
    obtain hd | hb := hd
    · simp [hq] at hd
    · rw [haway] at hb
      cases hb
  case wait =>
    obtain ⟨hdec, hs⟩ := hs
    cases hs
    obtain ⟨haway, hseen⟩ := h.away hdec
    have hnonneg := h.nonneg
    by_cases hq : s.cond.queue = 0
    · have hcond : conditionalWait s.cond = ⟨0, .blocked⟩ := by simp [conditionalWait, hq]
      rw [hcond]
      refine ⟨le_rfl, fun _ => rfl, nofun, nofun, fun _ => hseen, fun _ hdata => .inl ?_⟩
      obtain hsig | hlt := h.kept (.inl hdec) hdata
      · exact hsig
      · exact absurd hq hlt.ne'
    · have hcond : conditionalWait s.cond = ⟨s.cond.queue - 1, .away⟩ := by
        simp [conditionalWait, hq, haway]
      rw [hcond]
      refine ⟨?_, nofun, nofun, nofun, fun hw => absurd rfl hw, nofun⟩
      dsimp only
      omega
  case spurious => exact absurd rfl hne
  case leave =>
    obtain ⟨hwoken, hs⟩ := hs
    cases hs
    have hpos := h.woken hwoken
    have hdec : s.deciding = false := by
      by_contra hd
      rw [Bool.not_eq_false] at hd
      have haway := (h.away hd).1
      rw [hwoken] at haway
      cases haway
    refine ⟨Int.le_sub_one_of_lt hpos, nofun, nofun, fun hd => ?_, fun hw => absurd rfl hw,
      fun hd => ?_⟩
    · simp [hdec] at hd
    · simp [hdec, Conditional.leave] at hd
  case take =>
    obtain ⟨⟨haway, hdec⟩, hs⟩ := hs
    obtain ⟨base, hbase, rfl⟩ := Option.map_eq_some_iff.mp hs
    obtain ⟨-, hseen, -⟩ := QueueStep.take_seen hbase
    refine ⟨h.nonneg, h.blocked, h.woken, fun hd => ⟨haway, hseen⟩, fun _ => hseen, fun hd => ?_⟩
    simp only [Bool.not_eq_true'] at hdec
    simp [haway, hdec] at hd

/-- What of the guard matters to the steps of the threads that are not `publish`. -/
theorem Prompted.of_ne (hpub : e ≠ .publish) (hspur : e ≠ .spurious) : Prompted s e := by
  refine ⟨fun e' he => ?_, hspur⟩
  cases e <;> cases he
  case publish => exact absurd rfl hpub
  all_goals trivial

theorem Room.of_reachable {q : Queueing α} (h : ((queueing zero sz).guard Roomy).Reachable q) :
    Room q := by
  apply h.induction
  · rintro s rfl
    exact Room.init
  · rintro s e s' hroom ⟨hroomy, hs⟩
    exact hroom.step hroomy hs

/-- `n` packets are handed over, and number `i`, which is not one of them, is published. -/
structure Unhanded (n i : ℕ) (s : Waking α) : Prop where
  awake : Awake s
  room : Room s.base
  handed : s.base.handed.length = n
  le : n ≤ i
  published : i < s.base.published

/-- The steps that are ahead until the next packet is handed over. -/
def Waking.rank (s : Waking α) : ℕ :=
  if s.base.havedata then 1
  else match s.cond.waiter with
    | .woken => 4
    | .blocked => 5
    | .away => if s.deciding then if s.cond.queue = 0 then 6 else 3 else 2

/-- The thread whose step comes first. -/
def Waking.helpful (s : Waking α) : Party :=
  if s.cond.waiter = .blocked then .producer else .consumer

variable {n i : ℕ}

theorem Unhanded.data (h : Unhanded n i s) : s.base.queue.havedata = true := by
  by_contra hno
  rw [Bool.not_eq_true] at hno
  have heq := h.room.delivers.waiting.mp hno
  rw [h.handed] at heq
  exact (h.le.trans_lt h.published).ne heq

theorem Unhanded.take (h : Unhanded n i s) (hseen : s.base.havedata = true) :
    ∃ q, QueueStep.take.apply s.base = some q := by
  have hlt := h.room.ring.slot_lt (by
    have hsz := h.room.size (Nat.zero_lt_of_lt h.published)
    omega) s.base.handed.length
  rw [← h.room.ring.rpos] at hlt
  exact ⟨_, by simp [QueueStep.apply, hseen, List.getElem?_eq_getElem hlt]; rfl⟩

theorem Unhanded.enabled (h : Unhanded n i s) :
    ∃ e s', s.helpful.steps e ∧ ((waking zero sz).guard Prompted).step s e s' := by
  have hstep {e : WakeStep α} {s' : Waking α} (hparty : s.helpful.steps e) (hpub : e ≠ .publish)
      (hspur : e ≠ .spurious) (hs : e.apply s = some s') :
      ∃ e s', s.helpful.steps e ∧ ((waking zero sz).guard Prompted).step s e s' :=
    ⟨e, s', hparty, .of_ne hpub hspur, hs⟩
  cases hw : s.cond.waiter with
  | blocked =>
    obtain hsig | hpos := h.awake.kept (.inr hw) h.data
    · exact hstep (e := .signal) (by simp [Waking.helpful, hw, Party.steps]) nofun nofun
        (if_pos hsig)
    · exact absurd (h.awake.blocked hw) hpos.ne'
  | woken =>
    exact hstep (e := .leave) (by simp [Waking.helpful, hw, Party.steps]) nofun nofun (if_pos hw)
  | away =>
    cases hdec : s.deciding with
    | true =>
      exact hstep (e := .wait) (by simp [Waking.helpful, hw, Party.steps]) nofun nofun
        (if_pos hdec)
    | false =>
      cases hseen : s.base.havedata with
      | true =>
        obtain ⟨q, hq⟩ := h.take hseen
        exact hstep (e := .take) (by simp [Waking.helpful, hw, Party.steps]) nofun nofun
          (by simp [WakeStep.apply, hw, hdec, hq]; rfl)
      | false =>
        exact hstep (e := .check) (by simp [Waking.helpful, hw, Party.steps]) nofun nofun
          (by simp [WakeStep.apply, hw, hdec, QueueStep.apply, hseen]; rfl)

theorem Prompted.room (h : Room s.base) (hguard : Prompted s e) (hs : e.apply s = some s') :
    Room s'.base := by
  obtain ⟨-, heq⟩ | ⟨e', he, hs'⟩ := WakeStep.base_step hs
  · rwa [heq]
  · exact h.step (hguard.1 e' he) hs'

theorem Unhanded.step (h : Unhanded n i s) (hguard : Prompted s e) (hs : e.apply s = some s') :
    (n < s'.base.handed.length ∧ i < s'.base.published) ∨ Unhanded n i s' ∧
      (s'.rank < s.rank ∨ s'.rank = s.rank ∧ s'.helpful = s.helpful ∧ ¬ s.helpful.steps e) := by
  have hawake := h.awake.step hs hguard.2
  have hroom := hguard.room h.room hs
  cases e <;> simp only [WakeStep.apply, Option.ite_none_right_eq_some,
    Option.ite_none_left_eq_some] at hs
  case receive pkt m =>
    obtain ⟨-, hs⟩ := hs
    obtain ⟨base, hbase, rfl⟩ := Option.map_eq_some_iff.mp hs
    obtain ⟨-, heq, -⟩ := h.room.ring.receive hbase
    refine .inr ⟨⟨hawake, hroom, ?_, h.le, ?_⟩, .inr ⟨?_, rfl, ?_⟩⟩
    · rw [heq]
      exact h.handed
    · rw [heq]
      exact h.published
    · rw [heq]
      rfl
    · cases s.helpful <;> exact id
  case publish =>
    obtain ⟨hsig, hs⟩ := hs
    obtain ⟨base, hbase, rfl⟩ := Option.map_eq_some_iff.mp hs
    obtain ⟨-, heq, -⟩ := h.room.ring.publish hbase
    refine .inr ⟨⟨hawake, hroom, ?_, h.le, ?_⟩, .inr ⟨?_, rfl, ?_⟩⟩
    · rw [heq]
      exact h.handed
    · rw [heq]
      exact h.published.trans (Nat.lt_succ_self _)
    · rw [heq]
      rfl
    · -- nothing is published while the consumer is asleep on a packet
      have hblocked : s.cond.waiter ≠ .blocked := by
        intro hb
        obtain hsig' | hpos := h.awake.kept (.inr hb) h.data
        · exact hsig hsig'
        · exact hpos.ne' (h.awake.blocked hb)
      simp [Waking.helpful, hblocked, Party.steps]
  case signal =>
    obtain ⟨hsig, hs⟩ := hs
    cases hs
    refine .inr ⟨⟨hawake, hroom, h.handed, h.le, h.published⟩, ?_⟩
    cases hw : s.cond.waiter with
    | blocked =>
      have hseen := h.awake.waiting (by simp [hw])
      exact .inl (by simp [Waking.rank, conditionalSignal, hw, hseen])
    | woken => exact .inr (by simp [Waking.rank, Waking.helpful, conditionalSignal, hw, Party.steps])
    | away =>
      have hnonneg := h.awake.nonneg
      by_cases hq : s.deciding = true ∧ s.cond.queue = 0
      · have hseen := (h.awake.away hq.1).2
        exact .inl (by simp [Waking.rank, conditionalSignal, hw, hseen, hq])
      · refine .inr ⟨?_, by simp [Waking.helpful, conditionalSignal, hw],
          by simp [Waking.helpful, hw, Party.steps]⟩
        have hpos : s.cond.queue + 1 ≠ 0 := by omega
        simp only [Waking.rank, conditionalSignal, hw, hpos]
        grind
  case check =>
    obtain ⟨⟨haway, hdec⟩, hs⟩ := hs
    obtain ⟨base, hbase, rfl⟩ := Option.map_eq_some_iff.mp hs
    obtain ⟨hseen, rfl⟩ := QueueStep.check_seen hbase
    refine .inr ⟨⟨hawake, hroom, h.handed, h.le, h.published⟩, .inl ?_⟩
    simp only [Bool.not_eq_true'] at hdec
    simp [Waking.rank, h.data, hseen, haway, hdec]
  case wait =>
    obtain ⟨hdec, hs⟩ := hs
    cases hs
    obtain ⟨haway, hseen⟩ := h.awake.away hdec
    refine .inr ⟨⟨hawake, hroom, h.handed, h.le, h.published⟩, .inl ?_⟩
    by_cases hq : s.cond.queue = 0
    · simp [Waking.rank, conditionalWait, hseen, haway, hdec, hq]
    · simp [Waking.rank, conditionalWait, hseen, haway, hdec, hq]
  case spurious => exact absurd rfl hguard.2
  case leave =>
    obtain ⟨hwoken, hs⟩ := hs
    cases hs
    have hseen := h.awake.waiting (by simp [hwoken])
    have hdec : s.deciding = false := by
      by_contra hd
      rw [Bool.not_eq_false] at hd
      rw [(h.awake.away hd).1] at hwoken
      cases hwoken
    refine .inr ⟨⟨hawake, hroom, h.handed, h.le, h.published⟩, .inl ?_⟩
    simp [Waking.rank, Conditional.leave, hwoken, hseen, hdec]
  case take =>
    obtain ⟨-, hs⟩ := hs
    obtain ⟨base, hbase, rfl⟩ := Option.map_eq_some_iff.mp hs
    obtain ⟨-, -, hlen, hpub⟩ := QueueStep.take_seen hbase
    refine .inl ⟨?_, ?_⟩
    · dsimp only
      rw [hlen, h.handed]
      exact Nat.lt_succ_self n
    · exact hpub ▸ h.published

theorem Awake.of_reachable (h : ((waking zero sz).guard Prompted).Reachable s) : Awake s := by
  apply h.induction
  · rintro s rfl
    exact Awake.init
  · rintro s e s' hawake ⟨hguard, hs⟩
    exact hawake.step hs hguard.2

/-- In a fair schedule, every packet that is published is handed over: the consumer never
sleeps for ever while there is one, in whatever order the threads take their steps. -/
theorem packets_handed_over_at_last (ρ : ((waking zero sz).guard Prompted).Endless)
    (hfair : ∀ p : Party, ρ.WeaklyFair p.steps) {k i : ℕ}
    (hi : i < (ρ.state k).base.published) :
    ∃ m ≥ k, ∃ b, (ρ.state m).base.handed[i]? = some b ∧
      (ρ.state m).base.received[i]? = some b := by
  have hroom (m : ℕ) : Room (ρ.state m).base :=
    .of_reachable (Waking.base_reachable (ρ.reachable m))
  have hdone {m : ℕ} (hlt : i < (ρ.state m).base.handed.length) :
      ∃ b, (ρ.state m).base.handed[i]? = some b ∧ (ρ.state m).base.received[i]? = some b := by
    refine ⟨_, List.getElem?_eq_getElem hlt, ?_⟩
    rw [← List.getElem?_take_of_lt hlt, ← (hroom m).handed, List.getElem?_eq_getElem hlt]
  suffices hall : ∀ j ≤ i + 1, ∃ m ≥ k, j ≤ (ρ.state m).base.handed.length ∧
      i < (ρ.state m).base.published by
    obtain ⟨m, hm, hlt, -⟩ := hall (i + 1) le_rfl
    exact ⟨m, hm, hdone hlt⟩
  intro j hj
  induction j with
  | zero => exact ⟨k, le_rfl, Nat.zero_le _, hi⟩
  | succ j ih =>
    obtain ⟨m, hm, hlen, hpub⟩ := ih (by omega)
    obtain hlt | heq := Nat.lt_or_eq_of_le hlen
    · exact ⟨m, hm, hlt, hpub⟩
    · have hahead : Unhanded j i (ρ.state m) :=
        ⟨.of_reachable (ρ.reachable m), hroom m, heq.symm, by omega, hpub⟩
      obtain ⟨m', hm', hlt, hpub'⟩ := Transition.Endless.leadsTo Waking.rank Waking.helpful hfair
        (fun _ h => Unhanded.enabled h) (fun _ _ _ h hs => h.step hs.1 hs.2) hahead
      exact ⟨m', hm.trans hm', hlt, hpub'⟩

/-- One packet was taken, and the consumer sleeps. -/
def asleep : Waking Nat := ⟨oneTaken, ⟨0, .blocked⟩, false, false⟩

theorem asleep_history : ((waking 0 3).guard Prompted).History
    [.receive 7 1, .publish, .signal, .check, .take, .check, .wait, .check, .wait] asleep := by
  have hstart := Transition.History.init (S := (waking 0 3).guard Prompted)
    (s := ⟨⟨packetqueueCreate 0 3, none, false, none, [], 0, []⟩, conditionalInit, false, false⟩) rfl
  have hreceived := hstart.step (l := .receive 7 1) ⟨.of_ne nofun nofun, rfl⟩
  have hpublished := hreceived.step (l := .publish)
    ⟨⟨fun _ he => by cases he; exact Nat.le_refl 3, nofun⟩, rfl⟩
  have hsignalled := hpublished.step (l := .signal) ⟨.of_ne nofun nofun, rfl⟩
  have htaken := (hsignalled.step (l := .check) ⟨.of_ne nofun nofun, rfl⟩).step (l := .take)
    ⟨.of_ne nofun nofun, rfl⟩
  have hwaited := (htaken.step (l := .check) ⟨.of_ne nofun nofun, rfl⟩).step (l := .wait)
    ⟨.of_ne nofun nofun, rfl⟩
  exact (hwaited.step (l := .check) ⟨.of_ne nofun nofun, rfl⟩).step (l := .wait)
    ⟨.of_ne nofun nofun, rfl⟩

theorem packets_handed_over_at_last_one :
    ∃ (ρ : ((waking 0 3).guard Prompted).Endless) (m : ℕ) (b : Pktbuf ℕ),
      (ρ.state m).base.handed[0]? = some b ∧ (ρ.state m).base.received[0]? = some b := by
  obtain ⟨ρ, hρ⟩ := asleep_history.endless
  have hfair (p : Party) : ρ.WeaklyFair p.steps := by
    apply Transition.Endless.WeaklyFair.of_rest hρ
    rintro l t hl ⟨-, hstep⟩
    cases p <;> cases l <;> first | exact hl | cases hstep
  have hpub : 0 < (ρ.state 9).base.published := by
    rw [hρ 9 le_rfl]
    exact Nat.one_pos
  obtain ⟨m, -, b, hb⟩ := packets_handed_over_at_last ρ hfair hpub
  exact ⟨ρ, m, b, hb⟩

/-- After a wakeup without a signal one signal too many is taken off the queue, and the
consumer can fall asleep on a packet. -/
theorem sleeps_on_packet : ∃ s : Waking Nat, (waking 0 3).Reachable s ∧
    s.cond.waiter = .blocked ∧ s.signalling = false ∧ s.base.queue.havedata = true := by
  have hrun : (waking 0 3).History
      [.check, .wait, .spurious, .leave, .check, .receive 7 1, .publish, .signal, .wait]
      ⟨⟨⟨[⟨7, 1⟩, ⟨0, 0⟩, ⟨0, 0⟩], 3, 0, 1⟩, none, false, none, [⟨7, 1⟩], 1, []⟩,
        ⟨0, .blocked⟩, false, false⟩ := .of_foldlM rfl rfl
  exact ⟨_, hrun.reachable, rfl, rfl, rfl⟩

end Opticon
