import Opticon.Collector.Rejection
import Opticon.Collector.WatcherLaws

/-! Whether the hosts of sessions are still there. -/

namespace Opticon

open Collector

/-- What happens to a collector. -/
inductive Event where
  | packet (p : Received)
  | register (tenantid hostid : Uuid) (addrpart sess_id : BitVec 32) (sess_key : AesKey)
      (ss : Sockaddr) (tnow : Nat)
  | expire (cutoff : Nat)
  | deleteTenant (tenantid : Uuid) (prevLock nextLock : Bool)
  | watch (r : Round) (addr : Nat)

def Event.apply (lib : Library) : Event → Collector → Except Fault Collector
  | .packet p, c => handlePacket lib p c
  | .register tenantid hostid addrpart sess_id sess_key ss tnow, c =>
    .ok (sessionRegister c tenantid hostid addrpart sess_id sess_key ss tnow).2
  | .expire cutoff, c => .ok { c with sessions := sessionExpire c.sessions cutoff }
  | .deleteTenant tenantid prevLock nextLock, c => .ok (tenantDelete c tenantid prevLock nextLock)
  | .watch r addr, c => do return (← watchHost r addr c).1

/-- Collectors that start without tenants. -/
def collecting (lib : Library) : Transition Collector Event where
  init c := c = .empty
  step c e c' := e.apply lib c = .ok c'

/-- The host of every session that is found is linked in the list of the session's tenant. -/
def SessionsAlive (c : Collector) : Prop :=
  ∀ addr sessid s, sessionFind c.sessions addr sessid = some s → c.Links s.host s.tenantid s.hostid

/-- A round does not reap a host that a session would still be found for. -/
def SparesSessions (c : Collector) : Event → Prop
  | .watch r addr => ∀ h, c.deref addr = .ok h → Reaped r h →
      ∀ a sessid s, sessionFind c.sessions a sessid = some s → s.host ≠ addr
  | _ => True

/-- The sessions are where they belong, and those that have not expired are of linked hosts. -/
structure Anchored (c : Collector) : Prop where
  arranged : c.Arranged
  formed : c.sessions.Formed
  linked : ∀ s, c.sessions.Live s → c.Links s.host s.tenantid s.hostid

variable {lib : Library} {c c' : Collector}

theorem Anchored.empty : Anchored .empty := by
  refine ⟨.empty, .empty, fun s hs => ?_⟩
  obtain ⟨i, hmem, -⟩ := hs
  exact absurd hmem List.not_mem_nil

theorem Anchored.alive (hc : Anchored c) : SessionsAlive c :=
  fun _ _ s hs => hc.linked s (Sessiondb.find_live hs)

/-- What is linked may grow while the sessions stay. -/
theorem Anchored.extend (hc : Anchored c) (hext : c.Extends c') (hsess : c'.sessions = c.sessions) :
    Anchored c' := by
  refine ⟨hext.arranged, by rw [hsess]; exact hc.formed, fun s hs => ?_⟩
  rw [hsess] at hs
  exact hext.links _ _ _ (hc.linked s hs)

/-- Expiry takes sessions away. -/
theorem Anchored.expire (hc : Anchored c) (cutoff : Nat) :
    Anchored { c with sessions := sessionExpire c.sessions cutoff } := by
  refine ⟨((Extends.refl hc.arranged).sessions _).arranged, hc.formed.expire cutoff, fun s hs => ?_⟩
  exact hc.linked s (Sessiondb.live_expire.mp hs).1

/-- A session that is written to stays with its host. -/
theorem Anchored.modify (hc : Anchored c) (addr sessid : BitVec 32) {f : Session → Session}
    (hf : Sessiondb.Keeps f)
    (hhost : ∀ s, (f s).host = s.host ∧ (f s).tenantid = s.tenantid ∧ (f s).hostid = s.hostid) :
    Anchored { c with sessions := c.sessions.modify addr sessid f } := by
  refine ⟨((Extends.refl hc.arranged).sessions _).arranged, hc.formed.modify addr sessid hf,
    fun s hs => ?_⟩
  obtain ⟨i, hmem, hexp⟩ := hs
  obtain hmem | ⟨s₀, hfind, rfl⟩ := Sessiondb.mem_modify hmem
  · exact hc.linked s ⟨i, hmem, hexp⟩
  · rw [(hhost s₀).1, (hhost s₀).2.1, (hhost s₀).2.2]
    exact hc.linked s₀ (Sessiondb.find_live hfind)

/-- A session of a linked host may be linked in. -/
theorem Anchored.link (hc : Anchored c) {s : Session}
    (hnew : sessionFind c.sessions s.addr s.sessid = none)
    (hs : c.Links s.host s.tenantid s.hostid) :
    Anchored { c with sessions := sessionLink c.sessions s } := by
  refine ⟨((Extends.refl hc.arranged).sessions _).arranged, hc.formed.link s hnew, fun s' hs' => ?_⟩
  obtain rfl | hlive := Sessiondb.live_link hs'
  · exact hs
  · exact hc.linked s' hlive

theorem Anchored.packet (hc : Anchored c) {p : Received} (h : handlePacket lib p c = .ok c') :
    Anchored c' := by
  obtain ⟨hext, auth, -, hcases⟩ := handlePacket_cases hc.arranged h
  have hc₁ : Anchored { c' with sessions := c.sessions } := hc.extend (hext.sessions _) rfl
  obtain ⟨tenants, next, sessions⟩ := c'
  obtain ⟨-, hsess⟩ | ⟨a, -, ⟨S, hfind, -, hsess⟩ | ⟨hfind, addr, hlinks, hsess⟩⟩ := hcases
  · exact hc.extend hext hsess
  · have hmod := hc₁.modify p.netid a.sessionid (renewed_keeps p a) (fun s => ⟨rfl, rfl, rfl⟩)
    subst hsess
    exact hmod.expire (p.tnow - 905)
  · have hlink := hc₁.link (s := registered p a addr) hfind hlinks
    subst hsess
    exact hlink.expire (p.tnow - 905)

theorem Anchored.register (hc : Anchored c) (tenantid hostid : Uuid) (addrpart sess_id : BitVec 32)
    (sess_key : AesKey) (ss : Sockaddr) (tnow : Nat) :
    Anchored (sessionRegister c tenantid hostid addrpart sess_id sess_key ss tnow).2 := by
  obtain ⟨hc₁, hsess, hlinks, hkeep⟩ := hostFind_spec hc.arranged tenantid hostid
  have hfound := hc.extend ⟨hc₁, hkeep⟩ hsess
  unfold sessionRegister
  generalize hostFind c tenantid hostid = r at hfound hlinks
  obtain ⟨addr, c₁⟩ := r
  simp only at hfound hlinks ⊢
  split
  · exact hfound.modify addrpart sess_id (fun s => ⟨rfl, rfl, rfl⟩) (fun s => ⟨rfl, rfl, rfl⟩)
  · rename_i hnone
    exact hfound.link hnone hlinks

theorem Anchored.deleteTenant (hc : Anchored c) (tenantid : Uuid) (prevLock nextLock : Bool) :
    Anchored (tenantDelete c tenantid prevLock nextLock) := by
  obtain heq | heq := tenantDelete_cases c tenantid prevLock nextLock
  · rw [heq]
    exact hc
  · rw [heq]
    refine ⟨hc.arranged.tenantDelete _, hc.formed.removeTenant tenantid, fun s hs => ?_⟩
    obtain ⟨hlive, hT⟩ := Sessiondb.live_removeTenant.mp hs
    exact (hc.linked s hlive).tenantDelete hT _

/-- What a round does: the host is deleted if it is to be reaped, or else written to. -/
theorem watchHost_cases {r : Round} {addr : Nat} (h : (Event.watch r addr).apply lib c = .ok c') :
    ∃ h, c.deref addr = .ok h ∧ ((Reaped r h ∧ c' = hostDelete c addr) ∨
      (¬ Reaped r h ∧ ∃ h', h'.uuid = h.uuid ∧ c' = c.setHost addr h')) := by
  obtain ⟨⟨c₁, report⟩, hwatch, hc'⟩ := Outcome.bind_ok_iff.mp h
  obtain ⟨host, hd, hwatch⟩ := Outcome.bind_ok_iff.mp hwatch
  obtain ⟨w, hw, hwatch⟩ := Outcome.bind_ok_iff.mp hwatch
  refine ⟨host, hd, ?_⟩
  obtain ⟨hreap, hnone⟩ | ⟨hreap, h', hsome, huuid⟩ := watchthreadHandleHost_host hw
  · rw [hnone] at hwatch
    cases hwatch
    cases hc'
    exact .inl ⟨hreap, rfl⟩
  · rw [hsome] at hwatch
    cases hwatch
    cases hc'
    exact .inr ⟨hreap, h', huuid, rfl⟩

/-- A step that reaps no host of a session that would be found. -/
theorem Anchored.step (hc : Anchored c) {e : Event} (h : e.apply lib c = .ok c')
    (he : SparesSessions c e) : Anchored c' := by
  cases e with
  | packet p => exact hc.packet h
  | register tenantid hostid addrpart sess_id sess_key ss tnow =>
    cases h
    exact hc.register tenantid hostid addrpart sess_id sess_key ss tnow
  | expire cutoff =>
    cases h
    exact hc.expire cutoff
  | deleteTenant tenantid prevLock nextLock =>
    cases h
    exact hc.deleteTenant tenantid prevLock nextLock
  | watch r addr =>
    obtain ⟨host, hd, ⟨hreap, rfl⟩ | ⟨-, host', huuid, rfl⟩⟩ := watchHost_cases h
    · refine ⟨hc.arranged.hostDelete, hc.formed, fun s hs => ?_⟩
      have hfind := hc.formed.find_eq_some_iff.mpr ⟨hs, rfl, rfl⟩
      exact links_hostDelete.mpr ⟨hc.linked s hs, he host hd hreap _ _ s hfind⟩
    · exact hc.extend (hc.arranged.extends_setHost hd huuid) rfl

/-- In every run in which no round reaps a host that a session would still be found for, every
session that is found is one of a linked host; and after a further step this is so if and only
if the step does not do that either. -/
theorem sessions_alive_iff {es : List Event}
    (h : ((collecting lib).guard SparesSessions).History es c) :
    SessionsAlive c ∧
      ∀ e c', e.apply lib c = .ok c' → (SessionsAlive c' ↔ SparesSessions c e) := by
  have hc : Anchored c := by
    refine h.reachable.induction (I := Anchored) ?_ ?_
    · rintro _ rfl
      exact Anchored.empty
    · intro c e c' hc hstep
      exact hc.step hstep.2 hstep.1
  refine ⟨hc.alive, fun e c' hstep => ⟨fun halive => ?_, fun he => (hc.step hstep he).alive⟩⟩
  cases e with
  | watch r addr =>
    intro host hd hreap a sessid s hs
    obtain ⟨host', hd', hcases⟩ := watchHost_cases hstep
    obtain rfl := Except.ok.inj (hd.symm.trans hd')
    obtain ⟨-, rfl⟩ | ⟨hno, -⟩ := hcases
    · exact (links_hostDelete.mp (halive a sessid s hs)).2
    · exact absurd hreap hno
  | packet p => trivial
  | register tenantid hostid addrpart sess_id sess_key ss tnow => trivial
  | expire cutoff => trivial
  | deleteTenant tenantid prevLock nextLock => trivial

/-! ### A host that is missing from the database -/

theorem packet1_history :
    ((collecting lib1).guard SparesSessions).History [.packet packet1] state1.collector := by
  refine Transition.History.step (Transition.History.init rfl) ⟨trivial, ?_⟩
  exact state1_step.1

/-- A round 100 seconds after the host was heard of, when the database does not know it any
more. -/
def gone : Round where
  tnow := 1100
  watch := []
  global := []
  adjust := []
  ping _ := (.fin 0, .fin 0)
  dbOpen := true
  hostExists := false

theorem gone_reaps : (Event.watch gone 0).apply lib1 state1.collector =
    .ok (hostDelete state1.collector 0) := by
  have hok : ((Event.watch gone 0).apply lib1 state1.collector).isOk := by decide
  obtain ⟨host, hd, ⟨-, hc'⟩ | ⟨hno, -⟩⟩ := watchHost_cases (eq_settled hok)
  · rw [eq_settled hok, hc']
  · have hlast : ((state1.collector.deref 0).map fun h => h.lastmodified) = .ok 1000 := by
      decide
    rw [hd] at hlast
    have hlast : host.lastmodified = 1000 := Except.ok.inj hlast
    refine absurd ⟨?_, rfl, rfl⟩ hno
    rw [hlast]
    decide

theorem sessions_alive_first :
    SessionsAlive state1.collector ∧
      (SessionsAlive (hostDelete state1.collector 0) ↔
        SparesSessions state1.collector (.watch gone 0)) :=
  ⟨(sessions_alive_iff packet1_history).1, (sessions_alive_iff packet1_history).2 _ _ gone_reaps⟩

/-- The session is still found, and its host is freed memory. -/
theorem session_without_host :
    (collecting lib1).History [.packet packet1, .watch gone 0] (hostDelete state1.collector 0) ∧
    sessionFind (hostDelete state1.collector 0).sessions 0x0100000a 7 = some session1 ∧
    (hostDelete state1.collector 0).deref session1.host = .error .useAfterFree ∧
    ¬ SessionsAlive (hostDelete state1.collector 0) := by
  refine ⟨packet1_history.of_guard.step gone_reaps, find_session1, by decide, ?_⟩
  intro halive
  exact (links_hostDelete.mp (halive _ _ session1 find_session1)).2 rfl

end Opticon
