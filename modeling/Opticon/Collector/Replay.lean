import Opticon.Collector.Isolation

/-! Auth packets that come a second time, or late. -/

namespace Opticon

open Collector

/-- The auth packet that a packet is decrypted and decoded to. -/
def decodedAuth (p : Received) (c : Collector) : Except Fault (Option Authinfo) :=
  if p.bytes.take 4 = asc "o6a1" then do
    let (auth, _) ← ioportUnwrapAuthdata p.bytes p.mem p.tnow (resolveTenantkey p.db) c
    return auth
  else .ok none

/-- A collector, and the serials of the auth packets it has accepted for the session that a
lookup finds, since that session was registered. -/
structure Authenticated where
  collector : Collector
  serials : BitVec 32 → BitVec 32 → List (BitVec 32)

/-- The serials once a packet is accepted. A session that is not found is registered. -/
def Authenticated.accept (m : Authenticated) (netid : BitVec 32) (a : Authinfo) :
    BitVec 32 → BitVec 32 → List (BitVec 32) := fun addr sessid =>
  if addr = netid ∧ sessid = a.sessionid then
    match sessionFind m.collector.sessions netid a.sessionid with
    | some _ => a.serial :: m.serials addr sessid
    | none => [a.serial]
  else m.serials addr sessid

def authentication (lib : Library) : Transition Authenticated Received where
  init m := m = ⟨.empty, fun _ _ => []⟩
  step m p m' :=
    handlePacket lib p m.collector = .ok m'.collector ∧
      ∃ auth, acceptedAuth p m.collector = .ok auth ∧
        m'.serials = auth.elim m.serials (m.accept p.netid)

/-- A packet whose serial is not above one that was accepted for the session does not change
the session. -/
def RefusesReplay (m : Authenticated) (p : Received) (c' : Collector) : Prop :=
  ∀ a S serial, decodedAuth p m.collector = .ok (some a) →
    sessionFind m.collector.sessions p.netid a.sessionid = some S →
    serial ∈ m.serials p.netid a.sessionid → a.serial ≤ serial →
    ∀ S', sessionFind c'.sessions p.netid a.sessionid = some S' → S'.credentials = S.credentials

/-- A session that was registered and never renewed gets no packet with a serial, other than
zero, up to that of the packet which registered it. -/
def Ahead (m : Authenticated) (p : Received) : Prop :=
  ∀ a S, decodedAuth p m.collector = .ok (some a) → uuidvalid a.hostid = true →
    sessionFind m.collector.sessions p.netid a.sessionid = some S → S.lastserial = 0 →
    a.serial = 0 ∨ ∀ serial ∈ m.serials p.netid a.sessionid, serial < a.serial

/-- A session that was renewed has the highest serial that was accepted for it. -/
structure Serialled (m : Authenticated) : Prop where
  arranged : m.collector.Arranged
  formed : m.collector.sessions.Formed
  highest : ∀ s, m.collector.sessions.Live s → s.lastserial ≠ 0 →
    ∀ serial ∈ m.serials s.addr s.sessid, serial ≤ s.lastserial

variable {lib : Library} {p : Received} {m m' : Authenticated} {c' : Collector} {a : Authinfo}
  {S : Session}

theorem acceptedAuth_of_decoded {c : Collector} {auth : Option Authinfo} (hc : c.Arranged)
    (h : decodedAuth p c = .ok auth) :
    acceptedAuth p c = .ok (auth.filter fun a => accepts p a c.sessions) := by
  unfold decodedAuth at h
  split at h
  · rename_i htype
    obtain ⟨⟨auth', c₁⟩, hu, h⟩ := Outcome.bind_ok_iff.mp h
    cases h
    obtain ⟨-, hsess⟩ := unwrapAuthdata_spec hc hu
    simp only [acceptedAuth, if_pos htype, hu, Outcome.ok_bind, Outcome.pure_ok, hsess]
  · rename_i htype
    cases h
    exact if_neg htype

theorem decoded_of_acceptedAuth {c : Collector} (hc : c.Arranged)
    (h : acceptedAuth p c = .ok (some a)) :
    decodedAuth p c = .ok (some a) ∧ accepts p a c.sessions = true := by
  unfold acceptedAuth at h
  split at h
  · rename_i htype
    obtain ⟨⟨auth, c₁⟩, hu, h⟩ := Outcome.bind_ok_iff.mp h
    obtain ⟨-, hsess⟩ := unwrapAuthdata_spec hc hu
    obtain ⟨rfl, hacc⟩ := Option.filter_eq_some_iff.mp (Except.ok.inj h)
    rw [hsess] at hacc
    refine ⟨?_, hacc⟩
    simp only [decodedAuth, if_pos htype, hu, Outcome.ok_bind, Outcome.pure_ok]
  · cases h

/-- Where a serial was accepted before, a further packet that is not above it is accepted only
for a session that was never renewed. -/
theorem Serialled.unaccepted (hm : Serialled m) (hp : Ahead m p) {serial : BitVec 32}
    (hdec : decodedAuth p m.collector = .ok (some a))
    (hfind : sessionFind m.collector.sessions p.netid a.sessionid = some S)
    (hserial : serial ∈ m.serials p.netid a.sessionid) (hle : a.serial ≤ serial) :
    accepts p a m.collector.sessions = false := by
  apply Bool.eq_false_iff.mpr
  intro hacc
  obtain ⟨hvalid, hlt⟩ : uuidvalid a.hostid = true ∧ S.lastserial < a.serial := by
    simpa [accepts, hfind] using hacc
  by_cases hzero : S.lastserial = 0
  · obtain hser | habove := hp a S hdec hvalid hfind hzero
    · rw [hzero, hser] at hlt
      exact absurd hlt (BitVec.lt_irrefl _)
    · exact absurd (habove serial hserial) (BitVec.not_lt.mpr hle)
  · obtain ⟨haddr, hsid, -⟩ := Sessiondb.find_matches hfind
    have hhigh := hm.highest S (Sessiondb.find_live hfind) hzero serial (by rwa [haddr, hsid])
    rw [BitVec.le_def] at hle hhigh
    rw [BitVec.lt_def] at hlt
    omega

theorem accept_self (netid : BitVec 32) (a : Authinfo) :
    m.accept netid a netid a.sessionid =
      match sessionFind m.collector.sessions netid a.sessionid with
      | some _ => a.serial :: m.serials netid a.sessionid
      | none => [a.serial] :=
  if_pos ⟨rfl, rfl⟩

theorem accept_of_ne {netid addr sessid : BitVec 32} (h : ¬ (addr = netid ∧ sessid = a.sessionid)) :
    m.accept netid a addr sessid = m.serials addr sessid :=
  if_neg h

theorem Serialled.step (hm : Serialled m) (hp : Ahead m p)
    (hstep : (authentication lib).step m p m') : Serialled m' := by
  obtain ⟨hpkt, auth, hacc, hserials⟩ := hstep
  obtain ⟨hext, auth', hacc', hcases⟩ := handlePacket_cases hm.arranged hpkt
  obtain rfl := Except.ok.inj (hacc.symm.trans hacc')
  obtain ⟨rfl, hsess⟩ | ⟨a, rfl, hcases⟩ := hcases
  · have hserials : m'.serials = m.serials := hserials
    refine ⟨hext.arranged, by rw [hsess]; exact hm.formed, fun s hs => ?_⟩
    rw [hsess] at hs
    rw [hserials]
    exact hm.highest s hs
  have hserials : m'.serials = m.accept p.netid a := hserials
  obtain ⟨S, hfind, hlt, hsess⟩ | ⟨hfind, addr, -, hsess⟩ := hcases
  · have hformed := hm.formed.modify p.netid a.sessionid (renewed_keeps p a)
    refine ⟨hext.arranged, by rw [hsess]; exact hformed.expire _, fun s hs hne serial hserial => ?_⟩
    rw [hsess] at hs
    rw [hserials] at hserial
    have hs' := hformed.find_eq_some_iff.mpr ⟨(Sessiondb.live_expire.mp hs).1, rfl, rfl⟩
    rw [Sessiondb.find_modify (renewed_keeps p a)] at hs'
    split at hs'
    · -- the serial of the renewal is above all that were accepted before
      rename_i hsame
      rw [hfind] at hs'
      obtain rfl := Option.some.inj hs'
      rw [hsame.1, hsame.2, accept_self, hfind] at hserial
      obtain rfl | hserial := List.mem_cons.mp hserial
      · exact BitVec.le_refl _
      · obtain ⟨hdec, hyes⟩ := decoded_of_acceptedAuth hm.arranged hacc
        by_contra hgt
        have hle : a.serial ≤ serial := by
          rw [BitVec.le_def] at hgt ⊢
          exact (Nat.lt_of_not_le hgt).le
        rw [hm.unaccepted hp hdec hfind hserial hle] at hyes
        cases hyes
    · rename_i hother
      rw [accept_of_ne hother] at hserial
      exact hm.highest s (Sessiondb.find_live hs') hne serial hserial
  · have hformed := hm.formed.link (registered p a addr) hfind
    refine ⟨hext.arranged, by rw [hsess]; exact hformed.expire _, fun s hs hne serial hserial => ?_⟩
    rw [hsess] at hs
    rw [hserials] at hserial
    obtain rfl | hlive := Sessiondb.live_link (Sessiondb.live_expire.mp hs).1
    · exact absurd rfl hne
    · have hother : ¬ (s.addr = p.netid ∧ s.sessid = a.sessionid) := by
        rintro ⟨haddr, hsid⟩
        have hs' := hm.formed.find_eq_some_iff.mpr ⟨hlive, haddr, hsid⟩
        rw [hfind] at hs'
        cases hs'
      rw [accept_of_ne hother] at hserial
      exact hm.highest s hlive hne serial hserial

theorem Serialled.of_history {ps : List Received}
    (h : ((authentication lib).guard Ahead).History ps m) : Serialled m := by
  apply h.induction (I := fun _ m => Serialled m)
  · rintro _ rfl
    refine ⟨Arranged.empty, Sessiondb.Formed.empty, fun s hs => ?_⟩
    obtain ⟨i, hmem, -⟩ := hs
    exact absurd hmem List.not_mem_nil
  · intro _ m p m' hm hstep
    exact hm.step hstep.1 hstep.2

/-- What a renewal comes to: the session is found again, with the serial of the packet. -/
theorem find_renewed {c : Collector} (hformed : c.sessions.Formed)
    (hfind : sessionFind c.sessions p.netid a.sessionid = some S)
    (hsess : c'.sessions = sessionExpire (c.sessions.modify p.netid a.sessionid (renewed p a))
      (p.tnow - 905)) :
    sessionFind c'.sessions p.netid a.sessionid = some (renewed p a S) := by
  have hmod : sessionFind (c.sessions.modify p.netid a.sessionid (renewed p a)) p.netid
      a.sessionid = some (renewed p a S) := by
    rw [Sessiondb.find_modify (renewed_keeps p a), if_pos ⟨rfl, rfl⟩, hfind]
    rfl
  have hlive := Sessiondb.live_expire.mpr ⟨Sessiondb.find_live hmod, Nat.sub_le p.tnow 905⟩
  obtain ⟨haddr, hsid, -⟩ := Sessiondb.find_matches hmod
  rw [hsess]
  exact ((hformed.modify _ _ (renewed_keeps p a)).expire _).find_eq_some_iff.mpr ⟨hlive, haddr, hsid⟩

/-- In every run of packets in which no session that was never renewed gets a serial up to
that of its registration, a further packet leaves a session for which its serial or a later
one was accepted as it is, if and only if it does not do so either. -/
theorem refuses_replay_iff {ps : List Received}
    (h : ((authentication lib).guard Ahead).History ps m)
    (hpkt : handlePacket lib p m.collector = .ok c') : RefusesReplay m p c' ↔ Ahead m p := by
  have hm := Serialled.of_history h
  obtain ⟨-, auth, hacc, hcases⟩ := handlePacket_cases hm.arranged hpkt
  constructor
  · intro hrefuses a S hdec hvalid hfind hzero
    by_contra hno
    obtain ⟨hser, hbelow⟩ := not_or.mp hno
    obtain ⟨serial, hserial⟩ := not_forall.mp hbelow
    obtain ⟨hserial, hle⟩ := Classical.not_imp.mp hserial
    have hpos : S.lastserial < a.serial := by
      rw [hzero, BitVec.lt_def]
      exact Nat.pos_of_ne_zero fun h => hser (BitVec.eq_of_toNat_eq h)
    have hyes : accepts p a m.collector.sessions = true := by
      simp [accepts, hvalid, hfind, hpos]
    have hacc' := acceptedAuth_of_decoded hm.arranged hdec
    rw [hacc, Option.filter_some, if_pos hyes] at hacc'
    obtain rfl := Except.ok.inj hacc'
    obtain ⟨hnone, -⟩ | ⟨a', ⟨⟩, ⟨S', hfind', -, hsess⟩ | ⟨hnone, -⟩⟩ := hcases
    · cases hnone
    · have hsame := hrefuses a S serial hdec hfind hserial (BitVec.not_lt.mp hle) _
        (find_renewed hm.formed hfind hsess)
      have hserial' : a.serial = S.lastserial := congrArg (fun t => t.2.1) hsame
      exact hser (hserial'.trans hzero)
    · rw [hfind] at hnone
      cases hnone
  · intro hp a S serial hdec hfind hserial hle S' hfind'
    have hno := hm.unaccepted hp hdec hfind hserial hle
    have hacc' := acceptedAuth_of_decoded hm.arranged hdec
    rw [hacc] at hacc'
    have hnone : auth = none := by
      rw [Except.ok.inj hacc']
      simp [hno]
    obtain ⟨-, hsess⟩ | ⟨a', ha', -⟩ := hcases
    · rw [hsess, hfind] at hfind'
      obtain rfl := Option.some.inj hfind'
      rfl
    · rw [hnone] at ha'
      cases ha'

/-! ### A registration that comes twice -/

/-- The packet that registers a session, ten seconds later. -/
def packet1Again : Received :=
  receivedFrom (ioportWrapAuthdata auth1 (plainKey 1) (fun _ => 0) (fun _ => 0) 1000) 1010 tenants12

def authenticated1 : Authenticated :=
  ⟨state1.collector, (⟨.empty, fun _ _ => []⟩ : Authenticated).accept 0x0100000a auth1⟩

def collector1Again : Collector :=
  settled (authSession lib1 (receivedFrom [] 1010 tenants12) auth1
    (resolveTenantkey tenants12 auth1.tenantid auth1.serial state1.collector).2)

theorem authenticated1_history :
    ((authentication lib1).guard Ahead).History [packet1] authenticated1 := by
  refine Transition.History.step (Transition.History.init rfl) ⟨?_, ?_⟩
  · intro a S _ _ hfind
    cases hfind
  · refine ⟨state1_step.1, some auth1, ?_, rfl⟩
    refine (acceptedAuth_receivedFrom (by decide) (by decide)).trans ?_
    decide

theorem packet1Again_handled : acceptedAuth packet1Again state1.collector = .ok (some auth1) ∧
    handlePacket lib1 packet1Again state1.collector = .ok collector1Again := by
  constructor
  · refine (acceptedAuth_receivedFrom (by decide) (by decide)).trans ?_
    decide
  · refine (handlePacket_receivedFrom (by decide) (by decide)).trans ?_
    exact eq_settled (by decide)

theorem refuses_replay_first :
    RefusesReplay authenticated1 packet1Again collector1Again ↔ Ahead authenticated1 packet1Again :=
  refuses_replay_iff authenticated1_history packet1Again_handled.2

/-- The same packet is accepted a second time, and the session lives on from then. -/
theorem registration_replayed : ¬ ∀ lib ps m p c', (authentication lib).History ps m →
    handlePacket lib p m.collector = .ok c' → RefusesReplay m p c' := by
  intro hall
  obtain ⟨hacc, hpkt⟩ := packet1Again_handled
  have hm := Serialled.of_history authenticated1_history
  have hdec := (decoded_of_acceptedAuth hm.arranged hacc).1
  have hbefore : (sessionFind state1.collector.sessions 0x0100000a 7).map Session.lastserial =
      some 0 := by decide
  have hafter : (sessionFind collector1Again.sessions 0x0100000a 7).map Session.lastserial =
      some 100 := by decide
  obtain ⟨S, hfind, hzero⟩ := Option.map_eq_some_iff.mp hbefore
  obtain ⟨S', hfind', hhundred⟩ := Option.map_eq_some_iff.mp hafter
  have hsame := hall lib1 _ _ _ _ authenticated1_history.of_guard hpkt auth1 S 100 hdec hfind
    (by decide) (BitVec.le_refl _) S' hfind'
  have hserial : S'.lastserial = S.lastserial := congrArg (fun t => t.2.1) hsame
  rw [hzero, hhundred] at hserial
  exact absurd hserial (by decide)

end Opticon
