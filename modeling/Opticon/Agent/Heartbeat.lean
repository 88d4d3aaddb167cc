import Opticon.Agent.DaemonLaws

/-! When the agent sends and kicks its probes. -/

universe u

namespace Opticon

variable {V : Type u} {encode : Collection V → Option (List UInt8)}
  {deflate : List UInt8 → List UInt8} {start δ : ℤ} {probes : List Probe} {auths : List Authinfo}
  {s s' : Daemoning} {m : Moment V} {a : Agent} {r : AgentRound}

/-- The agent wakes up in time, and a round takes no longer than `δ` with the wait before it. -/
def Punctual (δ : ℤ) (s : Daemoning) : DaemonStep V → Prop
  | .round m => s.wake ≤ m.tnow ∧ m.tnow ≤ m.tdone ∧ m.tdone ≤ s.wake + δ
  | .resend _ => True

/-- The times when a probe was kicked. -/
def pulseTimes (i : ℕ) (rounds : List AgentRound) : List ℤ :=
  (rounds.filter fun r => i ∈ r.pulses).map AgentRound.tnow

def slowTimes (rounds : List AgentRound) : List ℤ :=
  (rounds.filter AgentRound.slowround).map AgentRound.tnow

def fastTimes (rounds : List AgentRound) : List ℤ :=
  (rounds.filter AgentRound.fast).map AgentRound.tnow

theorem foldl_min_le (ps : List Probe) (w : ℤ) :
    ps.foldl (fun w p => min w (p.lastpulse + p.interval)) w ≤ w ∧
      ∀ p ∈ ps, ps.foldl (fun w p => min w (p.lastpulse + p.interval)) w ≤
        p.lastpulse + p.interval := by
  induction ps generalizing w with
  | nil => exact ⟨le_rfl, nofun⟩
  | cons p ps ih =>
    obtain ⟨hw, hps⟩ := ih (min w (p.lastpulse + p.interval))
    refine ⟨hw.trans (min_le_left _ _), fun q hq => ?_⟩
    obtain rfl | hq := List.mem_cons.mp hq
    · exact hw.trans (min_le_right _ _)
    · exact hps q hq

/-- The agent never sleeps past an event. -/
theorem wakenext_le (tnow nextslow nextsend : ℤ) (ps : List Probe) :
    wakenext tnow nextslow nextsend ps ≤ nextslow ∧ wakenext tnow nextslow nextsend ps ≤ nextsend ∧
      ∀ p ∈ ps, wakenext tnow nextslow nextsend ps ≤ p.lastpulse + p.interval :=
  ⟨min_le_right _ _, (min_le_left _ _).trans (min_le_right _ _), fun p hp =>
    ((min_le_left _ _).trans (min_le_left _ _)).trans ((foldl_min_le ps _).2 p hp)⟩

/-- The next round starts right after this one, or no event is before it. -/
theorem Passes.wake (h : Passes m s.agent a r) (hdone : m.tdone ≤ s.wake + δ) :
    r.sleep.getD m.tdone ≤ s.wake + δ ∨ (r.sleep.getD m.tdone ≤ a.nextslow ∧
      r.sleep.getD m.tdone ≤ a.nextsend ∧
        ∀ p ∈ a.probes, r.sleep.getD m.tdone ≤ p.lastpulse + p.interval) := by
  cases hs : r.sleep with
  | none => exact .inl hdone
  | some w =>
    obtain ⟨-, rfl⟩ := h.sleep w hs
    exact .inr (wakenext_le _ _ _ _)

theorem advance_eq {nextsend tnow : ℤ} (h : nextsend ≤ tnow) (h' : tnow < nextsend + 60) :
    advance nextsend tnow = nextsend + 60 := by
  rw [advance, if_pos h, advance, if_neg (not_le.mpr h')]

/-- Events that are due every `period` seconds happen at most `lag` seconds late, none is left
out, and the next one is due at `next`. -/
structure Paced (first period lag : ℤ) (times : List ℤ) (next : ℤ) : Prop where
  next : next = first + period * times.length
  times : ∀ (n : ℕ) t, times[n]? = some t →
    first + period * n ≤ t ∧ t ≤ first + period * n + lag

theorem Paced.snoc {first period lag next t : ℤ} {times : List ℤ}
    (h : Paced first period lag times next) (hdue : next ≤ t) (hlag : t ≤ next + lag) :
    Paced first period lag (times ++ [t]) (next + period) := by
  refine ⟨?_, fun n x hx => ?_⟩
  · rw [h.next, List.length_append, List.length_singleton]
    push_cast
    ring
  · obtain hlt | rfl | hgt := Nat.lt_trichotomy n times.length
    · exact h.times n x (by rwa [List.getElem?_append_left hlt] at hx)
    · rw [List.getElem?_concat_length] at hx
      cases hx
      rw [← h.next]
      exact ⟨hdue, hlag⟩
    · rw [List.getElem?_eq_none (by simp; omega)] at hx
      cases hx

/-- The lanes keep to their times. After a slow round the fast lane may wait for one more. -/
structure Beats (start δ : ℤ) (s : Daemoning) : Prop where
  slow : Paced (start + 5) 300 (2 * δ) (slowTimes s.rounds) s.agent.nextslow
  fast : Paced (start + 10) 60 (3 * δ) (fastTimes s.rounds) s.agent.nextsend
  wakeslow : s.wake ≤ s.agent.nextslow + δ
  wakefast : s.wake ≤ s.agent.nextsend + δ ∨
    (s.wake ≤ s.agent.nextsend + 2 * δ ∧ s.wake + δ < s.agent.nextslow)

theorem Beats.init (h : 0 ≤ δ) :
    Beats start δ ⟨agentStart start probes (auths.map agentCollectorNew), [], [], start⟩ where
  slow := ⟨by simp [agentStart, slowTimes], nofun⟩
  fast := ⟨by simp [agentStart, fastTimes], nofun⟩
  wakeslow := by simp only [agentStart]; omega
  wakefast := .inl (by simp only [agentStart]; omega)

theorem times_snoc (f : AgentRound → Bool) (l : List AgentRound) (r : AgentRound) :
    ((l ++ [r]).filter f).map AgentRound.tnow =
      (l.filter f).map AgentRound.tnow ++ if f r then [r.tnow] else [] := by
  rw [List.filter_append, List.map_append, List.filter_singleton]
  cases f r <;> rfl

/-- What a punctual round does to the times of the lanes. -/
theorem Beats.lanes (h : Beats start δ s) (hδ : 3 * δ < 60) (hp : Passes m s.agent a r)
    (htnow : m.tnow ≤ s.wake + δ) :
    Paced (start + 5) 300 (2 * δ) (slowTimes (s.rounds ++ [r])) a.nextslow ∧
      Paced (start + 10) 60 (3 * δ) (fastTimes (s.rounds ++ [r])) a.nextsend ∧
        ((s.agent.nextslow ≤ m.tnow ∧ a.nextslow = s.agent.nextslow + 300 ∧
            a.nextsend = s.agent.nextsend) ∨
          (m.tnow < s.agent.nextslow ∧ a.nextslow = s.agent.nextslow ∧ m.tnow < a.nextsend)) := by
  have hwakeslow := h.wakeslow
  have hwakefast := h.wakefast
  rw [slowTimes, times_snoc, fastTimes, times_snoc, hp.nextslow, hp.nextsend, hp.tnow]
  have hs := hp.slow
  have hf := hp.fast
  by_cases hslow : s.agent.nextslow ≤ m.tnow
  · rw [decide_eq_true hslow] at hs
    rw [hs, Bool.not_true, Bool.false_and] at hf
    rw [hs, hf, if_pos rfl, if_pos rfl, if_neg nofun, if_neg nofun, List.append_nil]
    exact ⟨h.slow.snoc hslow (by omega), h.fast, .inl ⟨hslow, rfl, rfl⟩⟩
  · rw [decide_eq_false hslow] at hs
    rw [hs, Bool.not_false, Bool.true_and] at hf
    rw [hs, hf, if_neg nofun, if_neg nofun, List.append_nil]
    rw [not_le] at hslow
    by_cases hfast : s.agent.nextsend ≤ m.tnow
    · rw [decide_eq_true hfast, if_pos rfl, if_pos rfl, advance_eq hfast (by omega)]
      exact ⟨h.slow, h.fast.snoc hfast (by omega), .inr ⟨hslow, rfl, by omega⟩⟩
    · rw [decide_eq_false hfast, if_neg nofun, if_neg nofun, List.append_nil]
      exact ⟨h.slow, h.fast, .inr ⟨hslow, rfl, not_le.mp hfast⟩⟩

theorem Beats.round (h : Beats start δ s) (hδ : 3 * δ < 60) (hp : Passes m s.agent a r)
    (hm : s.wake ≤ m.tnow ∧ m.tnow ≤ m.tdone ∧ m.tdone ≤ s.wake + δ)
    {sent : List (ℕ × AgentPacket)} :
    Beats start δ ⟨a, sent, s.rounds ++ [r], r.sleep.getD m.tdone⟩ := by
  obtain ⟨hwake, htdone, hdone⟩ := hm
  have hnext := hp.wake hdone
  have hwakeslow := h.wakeslow
  have hwakefast := h.wakefast
  obtain ⟨hslow, hfast, hlanes⟩ := h.lanes hδ hp (htdone.trans hdone)
  exact ⟨hslow, hfast, by dsimp only; omega, by dsimp only; omega⟩

/-- Two kicks of a probe in a row are one interval apart, or a little more. -/
def Kick (interval δ t u : ℤ) : Prop := t + interval ≤ u ∧ u ≤ t + interval + 2 * δ

/-- What is known of a probe after its kicks. -/
structure Kicked (δ wake : ℤ) (times : List ℤ) (p : Probe) : Prop where
  chain : times.IsChain (Kick p.interval δ)
  last : ∀ t, times.getLast? = some t → p.lastpulse = t ∧ wake ≤ t + p.interval + δ

theorem Passes.probe (h : Passes m s.agent a r) {i : ℕ} {p : Probe}
    (hi : s.agent.probes[i]? = some p) :
    ∃ p', a.probes[i]? = some p' ∧ p'.interval = p.interval ∧
      p'.lastpulse = (p.poke m.tnow).lastpulse ∧ (i ∈ r.pulses ↔ p.due m.tnow = true) := by
  have hmap := congrArg (·[i]?) h.probes
  simp only [List.map_map, List.getElem?_map, hi, Option.map_some, Function.comp_apply] at hmap
  obtain ⟨p', hp', heq⟩ := Option.map_eq_some_iff.mp hmap
  refine ⟨p', hp', ?_, (Prod.mk.inj heq).1, ?_⟩
  · rw [(Prod.mk.inj heq).2, Probe.poke]
    split <;> rfl
  · rw [h.pulses]
    simp only [List.mem_map, List.mem_filter, Prod.exists, exists_eq_right,
      List.mem_zipIdx_iff_getElem?]
    constructor
    · rintro ⟨q, hq, hdue⟩
      cases hi.symm.trans hq
      exact hdue
    · exact fun hdue => ⟨p, hi, hdue⟩

theorem Kicked.round {times : List ℤ} {p p' : Probe} {wake : ℤ}
    (h : Kicked δ s.wake times p) (hinterval : p'.interval = p.interval) (hpos : 0 ≤ p.interval)
    (hpulse : p'.lastpulse = (p.poke m.tnow).lastpulse)
    (hm : s.wake ≤ m.tnow ∧ m.tnow ≤ m.tdone ∧ m.tdone ≤ s.wake + δ)
    (hwake : wake ≤ s.wake + δ ∨ wake ≤ p'.lastpulse + p'.interval) :
    Kicked δ wake (times ++ if p.due m.tnow then [m.tnow] else []) p' := by
  obtain ⟨hle, htdone, hdone⟩ := hm
  rw [Probe.poke] at hpulse
  by_cases hdue : p.due m.tnow = true
  · rw [if_pos hdue] at hpulse ⊢
    rw [Probe.due, decide_eq_true_iff] at hdue
    have hpulse : p'.lastpulse = m.tnow := hpulse
    rw [hpulse, hinterval] at hwake
    refine ⟨?_, fun t ht => ?_⟩
    · rw [List.isChain_append, hinterval]
      refine ⟨h.chain, .singleton _, fun t ht u hu => ?_⟩
      obtain ⟨hlast, hwait⟩ := h.last t ht
      cases hu
      exact ⟨by omega, by omega⟩
    · rw [List.getLast?_concat] at ht
      cases ht
      exact ⟨hpulse, by omega⟩
  · rw [if_neg hdue] at hpulse ⊢
    rw [Probe.due, decide_eq_true_iff] at hdue
    rw [List.append_nil]
    rw [hpulse, hinterval] at hwake
    refine ⟨hinterval ▸ h.chain, fun t ht => ?_⟩
    obtain ⟨hlast, hwait⟩ := h.last t ht
    exact ⟨hpulse.trans hlast, by omega⟩

/-- The lanes and the probes of an agent that is in time. -/
structure InTime (start δ : ℤ) (probes : List Probe) (s : Daemoning) : Prop where
  beats : Beats start δ s
  kicked : ∀ (i : ℕ) (p₀ : Probe), probes[i]? = some p₀ → 0 ≤ p₀.interval →
    ∃ p, s.agent.probes[i]? = some p ∧ p.interval = p₀.interval ∧
      Kicked δ s.wake (pulseTimes i s.rounds) p

theorem InTime.step {e : DaemonStep V} (h : InTime start δ probes s) (hδ : 3 * δ < 60)
    (hpunctual : Punctual δ s e) (hs : e.apply encode deflate s = some s') :
    InTime start δ probes s' := by
  cases e with
  | round m =>
    cases hs
    have hp := daemonRound_passes encode deflate m s.agent
    refine ⟨h.beats.round hδ hp hpunctual, fun i p₀ hi hpos => ?_⟩
    obtain ⟨p, hp₀, hinterval, hkicked⟩ := h.kicked i p₀ hi hpos
    obtain ⟨p', hp', hinterval', hpulse, hmem⟩ := hp.probe hp₀
    refine ⟨p', hp', hinterval'.trans hinterval, ?_⟩
    simp only [Daemoning.after]
    rw [pulseTimes, times_snoc, hp.tnow]
    simp only [hmem, Bool.decide_eq_true]
    apply hkicked.round hinterval' (hinterval ▸ hpos) hpulse hpunctual
    exact (hp.wake hpunctual.2.2).imp_right fun hle => hle.2.2 p' (List.mem_of_getElem? hp')
  | resend i =>
    obtain ⟨b, -, rfl⟩ := Option.map_eq_some_iff.mp hs
    exact ⟨⟨h.beats.slow, h.beats.fast, h.beats.wakeslow, h.beats.wakefast⟩, h.kicked⟩

/-- An agent that is up in time, with rounds of `δ` seconds at most, sends in the slow lane every
five minutes and in the fast lane every minute, without leaving one out or falling behind, and
kicks each probe once in its interval. -/
theorem lanes_in_time (hδ : 0 ≤ δ) (hδ' : 3 * δ < 60)
    (h : ((daemoning encode deflate start probes auths).guard (Punctual δ)).Reachable s) :
    (∀ (n : ℕ) t, (slowTimes s.rounds)[n]? = some t →
        start + 5 + 300 * n ≤ t ∧ t ≤ start + 5 + 300 * n + 2 * δ) ∧
      (∀ (n : ℕ) t, (fastTimes s.rounds)[n]? = some t →
        start + 10 + 60 * n ≤ t ∧ t ≤ start + 10 + 60 * n + 3 * δ) ∧
      s.wake ≤ start + 5 + 300 * (slowTimes s.rounds).length + δ ∧
      s.wake ≤ start + 10 + 60 * (fastTimes s.rounds).length + 2 * δ ∧
      ∀ (i : ℕ) (p : Probe), probes[i]? = some p → 0 ≤ p.interval →
        (pulseTimes i s.rounds).IsChain (Kick p.interval δ) := by
  have hrun : InTime start δ probes s := by
    apply h.induction
    · rintro s rfl
      exact ⟨Beats.init hδ, fun i p hi _ => ⟨p, hi, rfl, .nil, nofun⟩⟩
    · rintro s e s' hs ⟨hpunctual, hstep⟩
      exact hs.step hδ' hpunctual hstep
  have hwakeslow := hrun.beats.wakeslow
  have hwakefast := hrun.beats.wakefast
  rw [hrun.beats.slow.next] at hwakeslow
  rw [hrun.beats.fast.next] at hwakefast
  refine ⟨hrun.beats.slow.times, hrun.beats.fast.times, hwakeslow, by omega, fun i p hi hpos => ?_⟩
  obtain ⟨p', -, hinterval, hkicked⟩ := hrun.kicked i p hi hpos
  exact hinterval ▸ hkicked.chain

/-- The agent's first round, right at the start, and the second, which is the first slow one. -/
def startMoment (tnow : ℤ) : Moment Unit :=
  ⟨tnow, tnow, tnow, fun _ => 7, fun _ => firstKey, fun _ => some ⟨tnow - 1, (), 0⟩⟩

def startState : Daemoning :=
  ⟨agentStart 2000 [⟨.builtin, [], 5, 0, 0⟩] ([firstConf].map agentCollectorNew), [], [], 2000⟩

def secondState : Daemoning :=
  (startState.after (fun _ => some [1]) id (startMoment 2000)).after (fun _ => some [1]) id
    (startMoment 2005)

theorem lanes_in_time_start :
    slowTimes secondState.rounds = [2005] ∧ pulseTimes 0 secondState.rounds = [2000, 2005] ∧
      secondState.wake ≤ 2000 + 5 + 300 * (slowTimes secondState.rounds).length + 0 ∧
      (pulseTimes 0 secondState.rounds).IsChain (Kick 5 0) := by
  have hstart : ((daemoning (V := Unit) (fun _ => some [1]) id 2000 [⟨.builtin, [], 5, 0, 0⟩]
    [firstConf]).guard (Punctual 0)).Reachable startState := .init rfl
  have hfirst := hstart.step (l := DaemonStep.round (startMoment 2000))
    ⟨⟨by decide, by decide, by decide⟩, rfl⟩
  have hsecond := hfirst.step (l := DaemonStep.round (startMoment 2005))
    ⟨⟨by decide, by decide, by decide⟩, rfl⟩
  obtain ⟨-, -, hwake, -, hkicks⟩ := lanes_in_time le_rfl (by decide) hsecond
  exact ⟨by decide, by decide, hwake, hkicks 0 _ rfl (by decide)⟩

end Opticon
