import Opticon.Agent.Daemon

/-! What the agent does from round to round. -/

universe u

namespace Opticon

variable {V : Type u} {encode : Collection V → Option (List UInt8)}
  {deflate : List UInt8 → List UInt8}

/-- A fresh collector: no session, no key, nothing to send again. -/
def agentCollectorNew (auth : Authinfo) : AgentCollector :=
  ⟨{ auth with sessionid := 0, serial := 0 }, 0, none⟩

/-- The agent with what it has sent, its rounds, and the time when the next one can start. -/
structure Daemoning where
  agent : Agent
  sent : List (ℕ × AgentPacket)
  rounds : List AgentRound
  wake : ℤ

inductive DaemonStep (V : Type u) where
  | round (m : Moment V)
  | resend (i : ℕ)

/-- A pass of the main loop. -/
def Daemoning.after (encode : Collection V → Option (List UInt8))
    (deflate : List UInt8 → List UInt8) (s : Daemoning) (m : Moment V) : Daemoning :=
  let r := daemonRound encode deflate m s.agent
  ⟨r.1, s.sent ++ r.2.sent, s.rounds ++ [r.2], r.2.sleep.getD m.tdone⟩

/-- A pass of the main loop, or the thread of a resender that sends its packet again. -/
def DaemonStep.apply (encode : Collection V → Option (List UInt8))
    (deflate : List UInt8 → List UInt8) (s : Daemoning) : DaemonStep V → Option Daemoning
  | .round m => some (s.after encode deflate m)
  | .resend i =>
    (s.agent.collectors[i]?.bind AgentCollector.resend).map fun a =>
      { s with sent := s.sent ++ [(i, .auth a)] }

def daemoning (encode : Collection V → Option (List UInt8)) (deflate : List UInt8 → List UInt8)
    (start : ℤ) (probes : List Probe) (auths : List Authinfo) :
    Transition Daemoning (DaemonStep V) :=
  .ofFun (fun s => s = ⟨agentStart start probes (auths.map agentCollectorNew), [], [], start⟩)
    fun s e => e.apply encode deflate s

/-- What a pass of the loop comes to. -/
structure Passes (m : Moment V) (s s' : Agent) (r : AgentRound) : Prop where
  tnow : r.tnow = m.tnow
  slow : r.slowround = decide (s.nextslow ≤ m.tnow)
  fast : r.fast = (!r.slowround && decide (s.nextsend ≤ m.tnow))
  nextslow : s'.nextslow = if r.slowround then s.nextslow + 300 else s.nextslow
  nextsend : s'.nextsend = if r.fast then advance s.nextsend m.tnow else s.nextsend
  pulses : r.pulses = (s.probes.zipIdx.filter fun p => p.1.due m.tnow).map Prod.snd
  probes : s'.probes.map (fun p => (p.lastpulse, p.interval)) =
    (s.probes.map (·.poke m.tnow)).map fun p => (p.lastpulse, p.interval)
  collectors : ∃ auths serial meters, (s'.collectors, r.rotations, auths, serial) =
      (if r.slowround then authenticateAll m 0 s.SERIAL s.collectors
        else (s.collectors, [], [], s.SERIAL)) ∧
    r.sent = auths ++ meters ∧ (meters ≠ [] → r.slowround = true ∨ r.fast = true) ∧
      ∀ x ∈ meters, ∃ c n data, s'.collectors[x.1]? = some c ∧
        x.2 = .meter c.auth.sessionid n c.auth.sessionkey data
  sleep : ∀ w, r.sleep = some w →
    m.tdone < w ∧ w = wakenext m.tnow s'.nextslow s'.nextsend s'.probes

theorem sendAll_mem {data : List UInt8} {time : ℤ} {cs : List AgentCollector} {i : ℕ}
    {SERIAL : BitVec 32} {x : ℕ × AgentPacket} (h : x ∈ (sendAll deflate data time i SERIAL cs).1) :
    ∃ k c n, x.1 = i + k ∧ cs[k]? = some c ∧
      x.2 = .meter c.auth.sessionid n c.auth.sessionkey data := by
  induction cs generalizing i SERIAL with
  | nil => cases h
  | cons c cs ih =>
    have hrest (hx : x ∈ (sendAll deflate data time (i + 1) (genSerial time SERIAL) cs).1) :
        ∃ k c' n, x.1 = i + k ∧ (c :: cs)[k]? = some c' ∧
          x.2 = .meter c'.auth.sessionid n c'.auth.sessionkey data := by
      obtain ⟨k, c', n, hk, hc, hx⟩ := ih hx
      exact ⟨k + 1, c', n, by omega, by simpa using hc, hx⟩
    simp only [sendAll] at h
    split at h
    · obtain rfl | hx := List.mem_cons.mp h
      · exact ⟨0, c, _, rfl, rfl, rfl⟩
      · exact hrest hx
    · exact hrest h

theorem collectAll_probes (m : Moment V) (slow : Bool) (ps : List Probe) (i : ℕ)
    (col : Collection V) :
    (collectAll m slow i col ps).1.map (fun p => (p.lastpulse, p.interval)) =
      ps.map fun p => (p.lastpulse, p.interval) := by
  induction ps generalizing i col with
  | nil => rfl
  | cons p ps ih =>
    rw [collectAll]
    split
    · split
      · simp [ih]
      · simp [ih]
    · simp [ih]

theorem collectLane_probes (m : Moment V) (slow fast : Bool) (ps : List Probe) :
    (collectLane m slow fast ps).1.map (fun p => (p.lastpulse, p.interval)) =
      ps.map fun p => (p.lastpulse, p.interval) := by
  rw [collectLane]
  split
  · exact collectAll_probes m slow ps 0 _
  · rfl

theorem lane_of_collected {m : Moment V} {slow fast : Bool} {ps : List Probe}
    (h : (collectLane m slow fast ps).2.collected ≠ 0) : slow = true ∨ fast = true := by
  rw [collectLane] at h
  split at h
  · rename_i hlane
    exact (Bool.or_eq_true _ _).mp hlane
  · exact absurd rfl h

theorem daemonRound_passes (encode : Collection V → Option (List UInt8))
    (deflate : List UInt8 → List UInt8) (m : Moment V) (s : Agent) :
    Passes m s (daemonRound encode deflate m s).1 (daemonRound encode deflate m s).2 := by
  have hsleep {tdone wake w : ℤ} (h : (if tdone < wake then some wake else none) = some w) :
      tdone < w ∧ w = wake := by
    obtain ⟨hlt, heq⟩ := Option.ite_none_right_eq_some.mp h
    cases heq
    exact ⟨hlt, rfl⟩
  rw [daemonRound]
  split
  · exact ⟨rfl, rfl, rfl, rfl, rfl, rfl, collectLane_probes m _ _ _,
      ⟨_, _, [], rfl, rfl, nofun, nofun⟩, fun w => hsleep⟩
  · rename_i hcollected
    split
    · exact ⟨rfl, rfl, rfl, rfl, rfl, rfl, collectLane_probes m _ _ _,
        ⟨_, _, [], rfl, rfl, nofun, nofun⟩, nofun⟩
    · rename_i data _
      refine ⟨rfl, rfl, rfl, rfl, rfl, rfl, collectLane_probes m _ _ _,
        ⟨_, _, _, rfl, rfl, fun _ => lane_of_collected hcollected, fun x hx => ?_⟩,
        fun w => hsleep⟩
      obtain ⟨k, c, n, hk, hc, hx⟩ := sendAll_mem hx
      rw [Nat.zero_add] at hk
      exact ⟨c, n, data, hk ▸ hc, hx⟩

/-- The authentication packet to a collector, if it is one. -/
def authTo (j : ℕ) (x : ℕ × AgentPacket) : Option Authinfo :=
  match x.2 with
  | .auth a => if x.1 = j then some a else none
  | .meter _ _ _ _ => none

/-- The last authentication packet that was sent to a collector. -/
def lastAuth (j : ℕ) (sent : List (ℕ × AgentPacket)) : Option Authinfo :=
  (sent.filterMap (authTo j)).getLast?

theorem lastAuth_append (j : ℕ) (l r : List (ℕ × AgentPacket)) :
    lastAuth j (l ++ r) = (lastAuth j r).or (lastAuth j l) := by
  rw [lastAuth, List.filterMap_append, List.getLast?_append]
  rfl

theorem lastAuth_meters {j : ℕ} {l : List (ℕ × AgentPacket)}
    (h : ∀ x ∈ l, authTo j x = none) : lastAuth j l = none := by
  rw [lastAuth, List.getLast?_eq_none_iff, List.filterMap_eq_nil_iff]
  exact h

/-- The packet a resender keeps has the session of its collector. -/
def AgentCollector.Current (c : AgentCollector) : Prop :=
  ∀ a, c.resend = some a → a.sessionid = c.auth.sessionid ∧ a.sessionkey = c.auth.sessionkey ∧
    a.tenantid = c.auth.tenantid ∧ a.hostid = c.auth.hostid

theorem authenticate_same (m : Moment V) (i : ℕ) (c : AgentCollector) :
    (authenticate m i c).1.auth.tenantid = c.auth.tenantid ∧
      (authenticate m i c).1.auth.hostid = c.auth.hostid := by
  rw [authenticate]
  split <;> exact ⟨rfl, rfl⟩

/-- A slow round sends each collector the packet that its resender gets. -/
theorem authenticateAll_spec (m : Moment V) (cs : List AgentCollector) (i : ℕ)
    (SERIAL : BitVec 32) {cs' : List AgentCollector} {rot : List ℕ} {serial : BitVec 32}
    {auths : List (ℕ × AgentPacket)} (h : authenticateAll m i SERIAL cs = (cs', rot, auths, serial)) :
    (∀ x ∈ auths, ∃ a, x.2 = .auth a) ∧ cs'.length = cs.length ∧
      (∀ k < i, lastAuth k auths = none) ∧
      ∀ k c', cs'[k]? = some c' → c'.resend.isSome = true ∧ c'.Current ∧
        lastAuth (i + k) auths = c'.resend ∧ ∃ c, cs[k]? = some c ∧
          c'.auth.tenantid = c.auth.tenantid ∧ c'.auth.hostid = c.auth.hostid := by
  induction cs generalizing i SERIAL cs' rot auths serial with
  | nil =>
    cases h
    exact ⟨nofun, rfl, fun _ _ => rfl, nofun⟩
  | cons c cs ih =>
    rw [authenticateAll] at h
    dsimp only at h
    cases hrest : authenticateAll m (i + 1) (genSerial m.tserial SERIAL) cs with
    | mk ds r =>
      obtain ⟨rot', auths', serial'⟩ := r
      obtain ⟨hall, hlen, hbefore, hspec⟩ := ih _ _ hrest
      rw [hrest] at h
      cases h
      refine ⟨?_, by simp [hlen], fun k hk => ?_, fun k c' hc' => ?_⟩
      · intro x hx
        obtain rfl | hx := List.mem_cons.mp hx
        · exact ⟨_, rfl⟩
        · exact hall x hx
      · rw [← List.singleton_append, lastAuth_append, hbefore k (by omega)]
        simp [lastAuth, authTo, schedule, hk.ne']
      · rw [← List.singleton_append, lastAuth_append]
        cases k with
        | zero =>
          cases hc'
          rw [Nat.add_zero, hbefore i (Nat.lt_succ_self i)]
          refine ⟨rfl, ?_, ?_, c, rfl, authenticate_same m i c⟩
          · rintro a ⟨⟩
            exact ⟨rfl, rfl, rfl, rfl⟩
          · simp [lastAuth, authTo, schedule]
        | succ k =>
          obtain ⟨hsome, hcur, hlast, hold⟩ := hspec k c' (by simpa using hc')
          rw [show i + (k + 1) = i + 1 + k by omega, hlast]
          exact ⟨hsome, hcur, Option.or_of_isSome hsome, by simpa using hold⟩

/-- Each element of the list is all right after those that are before it. -/
def InOrder {β : Type*} (ok : List β → β → Prop) (l : List β) : Prop :=
  ∀ l₁ x l₂, l = l₁ ++ x :: l₂ → ok l₁ x

theorem InOrder.append {β : Type*} {ok : List β → β → Prop} {l r : List β} (h : InOrder ok l)
    (hr : ∀ r₁ x r₂, r = r₁ ++ x :: r₂ → ok (l ++ r₁) x) : InOrder ok (l ++ r) := by
  intro l₁ x l₂ heq
  obtain ⟨a, rfl, ha⟩ | ⟨b, rfl, hb⟩ := List.append_eq_append_iff.mp heq
  · exact hr a x l₂ ha
  · cases b with
    | nil =>
      rw [List.append_nil] at hr
      simpa using hr [] x l₂ hb.symm
    | cons y b =>
      cases hb
      exact h l₁ x b rfl

/-- What a collector needs for a packet: for values, that the last authentication packet it was
sent has the session and the key they are sent with, and names the host. -/
def Announced (auths : List Authinfo) (sent : List (ℕ × AgentPacket)) (x : ℕ × AgentPacket) : Prop :=
  ∀ sid serial key data, x.2 = .meter sid serial key data →
    ∃ a conf, lastAuth x.1 sent = some a ∧ a.sessionid = sid ∧ a.sessionkey = key ∧
      auths[x.1]? = some conf ∧ a.tenantid = conf.tenantid ∧ a.hostid = conf.hostid

/-- Before the first slow round nothing is due in the fast lane. -/
structure Announces (auths : List Authinfo) (start : ℤ) (s : Daemoning) : Prop where
  resend : ∀ (i : ℕ) (c : AgentCollector), s.agent.collectors[i]? = some c →
    c.resend = lastAuth i s.sent ∧ c.Current ∧ ∃ conf, auths[i]? = some conf ∧
      c.auth.tenantid = conf.tenantid ∧ c.auth.hostid = conf.hostid
  first : s.agent.nextslow = start + 5 ∨
    ∀ (i : ℕ) (c : AgentCollector), s.agent.collectors[i]? = some c → c.resend.isSome = true
  nextslow : start + 5 ≤ s.agent.nextslow
  nextsend : start + 10 ≤ s.agent.nextsend
  sent : InOrder (Announced auths) s.sent

theorem le_advance (nextsend tnow : ℤ) : nextsend ≤ advance nextsend tnow := by
  fun_induction advance nextsend tnow with
  | case1 nextsend h ih => omega
  | case2 nextsend h => rfl

variable {auths : List Authinfo} {start : ℤ} {s s' : Daemoning}

theorem Announces.init {probes : List Probe} :
    Announces auths start ⟨agentStart start probes (auths.map agentCollectorNew), [], [], start⟩ where
  resend i c hc := by
    obtain ⟨conf, hconf, rfl⟩ := Option.map_eq_some_iff.mp (List.getElem?_map ▸ hc)
    exact ⟨rfl, nofun, conf, hconf, rfl, rfl⟩
  first := .inl rfl
  nextslow := le_rfl
  nextsend := le_rfl
  sent l₁ x l₂ h := by simp at h

/-- The session of every collector was announced before values are sent. -/
theorem Announces.round (h : Announces auths start s) {m : Moment V} {a : Agent} {r : AgentRound}
    (hp : Passes m s.agent a r) {rounds : List AgentRound} {wake : ℤ} :
    Announces auths start ⟨a, s.sent ++ r.sent, rounds, wake⟩ := by
  obtain ⟨news, serial, meters, hcs, hsent, hlane, hmeters⟩ := hp.collectors
  have hnoauth (j : ℕ) : ∀ x ∈ meters, authTo j x = none := by
    intro x hx
    obtain ⟨c, n, data, -, hx⟩ := hmeters x hx
    rw [authTo, hx]
  suffices hslow : (∀ x ∈ news, ∃ a, x.2 = .auth a) ∧
      (∀ (i : ℕ) (c : AgentCollector), a.collectors[i]? = some c →
        c.resend = lastAuth i (s.sent ++ news) ∧ c.Current ∧
        ∃ conf, auths[i]? = some conf ∧ c.auth.tenantid = conf.tenantid ∧
          c.auth.hostid = conf.hostid) ∧
      (a.nextslow = start + 5 ∨
        ∀ (i : ℕ) (c : AgentCollector), a.collectors[i]? = some c → c.resend.isSome = true) ∧
      (meters ≠ [] →
        ∀ (i : ℕ) (c : AgentCollector), a.collectors[i]? = some c → c.resend.isSome = true) ∧
      start + 5 ≤ a.nextslow ∧ start + 10 ≤ a.nextsend by
    obtain ⟨hnews, hresend, hfirst, hready, hnextslow, hnextsend⟩ := hslow
    refine ⟨fun i c hc => ?_, hfirst, hnextslow, hnextsend, ?_⟩
    · dsimp only
      rw [hsent, ← List.append_assoc, lastAuth_append, lastAuth_meters (hnoauth i), Option.none_or]
      exact hresend i c hc
    · dsimp only
      rw [hsent, ← List.append_assoc]
      refine (h.sent.append fun l₁ x l₂ heq => ?_).append fun l₁ x l₂ heq => ?_
      · intro sid serial key data hx
        obtain ⟨b, hb⟩ := hnews x (by simp [heq])
        rw [hb] at hx
        cases hx
      · intro sid serial key data hx
        obtain ⟨c, n, data', hc, hx'⟩ := hmeters x (by simp [heq])
        rw [hx'] at hx
        cases hx
        obtain ⟨hlast, hcur, conf, hconf, htenant, hhost⟩ := hresend x.1 c hc
        obtain ⟨b, hb⟩ := Option.isSome_iff_exists.mp (hready (by simp [heq]) x.1 c hc)
        obtain ⟨hsid, hkey, htenant', hhost'⟩ := hcur b hb
        refine ⟨b, conf, ?_, hsid, hkey, hconf, htenant'.trans htenant, hhost'.trans hhost⟩
        rw [lastAuth_append, lastAuth_meters fun y hy => hnoauth x.1 y (by simp [heq, hy]),
          Option.none_or, ← hlast, hb]
  cases hslow : r.slowround with
  | true =>
    rw [hslow, if_pos rfl] at hcs
    obtain ⟨hnews, -, -, hspec⟩ := authenticateAll_spec m _ 0 _ hcs.symm
    have hready : ∀ (i : ℕ) (c : AgentCollector), a.collectors[i]? = some c → c.resend.isSome = true :=
      fun i c hc => (hspec i c hc).1
    refine ⟨hnews, fun i c hc => ?_, .inr hready, fun _ => hready, ?_, ?_⟩
    · obtain ⟨hsome, hcur, hlast, c₀, hc₀, htenant, hhost⟩ := hspec i c hc
      obtain ⟨-, -, conf, hconf, htenant₀, hhost₀⟩ := h.resend i c₀ hc₀
      rw [Nat.zero_add] at hlast
      refine ⟨?_, hcur, conf, hconf, htenant.trans htenant₀, hhost.trans hhost₀⟩
      rw [lastAuth_append, hlast, Option.or_of_isSome hsome]
    · rw [hp.nextslow, hslow, if_pos rfl]
      have := h.nextslow
      omega
    · rw [hp.nextsend, hp.fast, hslow]
      exact h.nextsend
  | false =>
    rw [hslow, if_neg nofun] at hcs
    obtain ⟨hcoll, -, rfl, -⟩ : a.collectors = s.agent.collectors ∧ r.rotations = [] ∧ news = [] ∧
      serial = s.agent.SERIAL := by simpa using hcs
    have hnextslow : a.nextslow = s.agent.nextslow := by rw [hp.nextslow, hslow]; rfl
    have hdue := hp.slow
    rw [hslow, eq_comm, decide_eq_false_iff_not] at hdue
    refine ⟨nofun, ?_, ?_, fun hne => ?_, ?_, ?_⟩
    · rw [hcoll, List.append_nil]
      exact h.resend
    · rw [hcoll, hnextslow]
      exact h.first
    · rw [hcoll]
      have hfast := (hlane hne).resolve_left (by simp [hslow])
      rw [hp.fast, Bool.and_eq_true, decide_eq_true_iff] at hfast
      have hsend := h.nextsend
      exact h.first.resolve_left (by omega)
    · rw [hnextslow]
      exact h.nextslow
    · rw [hp.nextsend]
      split
      · exact h.nextsend.trans (le_advance _ _)
      · exact h.nextsend

theorem Announces.step {e : DaemonStep V} (h : Announces auths start s)
    (hs : e.apply encode deflate s = some s') : Announces auths start s' := by
  cases e with
  | round m =>
    cases hs
    exact h.round (daemonRound_passes encode deflate m s.agent)
  | resend i =>
    obtain ⟨b, hb, rfl⟩ := Option.map_eq_some_iff.mp hs
    obtain ⟨c, hc, hb⟩ := Option.bind_eq_some_iff.mp hb
    refine ⟨fun j d hd => ?_, h.first, h.nextslow, h.nextsend, h.sent.append fun l₁ x l₂ heq => ?_⟩
    · obtain ⟨hlast, hrest⟩ := h.resend j d hd
      refine ⟨?_, hrest⟩
      dsimp only
      rw [lastAuth_append]
      by_cases hj : i = j
      · subst hj
        cases hc.symm.trans hd
        simp [lastAuth, authTo, hb]
      · simpa [lastAuth, authTo, hj] using hlast
    · obtain ⟨rfl, hx⟩ : l₁ = [] ∧ (i, AgentPacket.auth b) = x := by
        cases l₁ with
        | nil => exact ⟨rfl, (List.cons.inj heq).1⟩
        | cons y l₁ => simp at heq
      subst hx
      intro sid serial key data hx
      cases hx

def firstKey : AesKey := ⟨List.replicate 32 1, List.length_replicate⟩

def firstConf : Authinfo := ⟨0, 0, ⟨0, 1⟩, ⟨0, 2⟩, firstKey⟩

end Opticon
