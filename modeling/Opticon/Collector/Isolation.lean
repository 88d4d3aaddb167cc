import Opticon.Collector.PacketLaws
import Opticon.Wire.PktwrapLaws

/-! Which tenant a session's key comes from, and which tenant's hosts it opens. -/

namespace Opticon

open Collector

/-- The auth packet that handling a packet comes to: one that is decrypted, for a valid host,
and no replay. -/
def acceptedAuth (p : Received) (c : Collector) : Except Fault (Option Authinfo) :=
  if p.bytes.take 4 = asc "o6a1" then do
    let (auth, c) ← ioportUnwrapAuthdata p.bytes p.mem p.tnow (resolveTenantkey p.db) c
    return auth.filter fun auth => accepts p auth c.sessions
  else .ok none

/-- A collector, and the auth packets it has accepted with the network ids they came from, the
last one first. -/
structure Monitored where
  collector : Collector
  accepted : List (BitVec 32 × Authinfo)

/-- Collectors that start without tenants and receive packets. -/
def reception (lib : Library) : Transition Monitored Received where
  init m := m = ⟨.empty, []⟩
  step m p m' :=
    handlePacket lib p m.collector = .ok m'.collector ∧
      ∃ auth, acceptedAuth p m.collector = .ok auth ∧
        m'.accepted = (auth.map fun a => (p.netid, a)).toList ++ m.accepted

/-- The auth packet a session has its key from: the last one accepted for it. -/
def supplier (accepted : List (BitVec 32 × Authinfo)) (addr sessid : BitVec 32) :
    Option Authinfo :=
  (accepted.find? fun e => e.1 == addr && e.2.sessionid == sessid).map (·.2)

/-- What an auth packet may change in a session. -/
def Session.credentials (s : Session) : AesKey × BitVec 32 × Nat :=
  (s.key, s.lastserial, s.lastcycle)

/-- Credentials change in no other sessions than those of this host of this tenant. -/
def ChangesOnly (db db' : Sessiondb) (tenantid hostid : Uuid) : Prop :=
  ∀ addr sessid s s', sessionFind db addr sessid = some s →
    sessionFind db' addr sessid = some s' → s'.credentials ≠ s.credentials →
    s.tenantid = tenantid ∧ s.hostid = hostid

/-- An auth packet that is accepted does not meet with a session of another host or tenant
under its network id and session id. -/
def Undisputed (m : Monitored) (p : Received) : Prop :=
  ∀ auth, acceptedAuth p m.collector = .ok (some auth) →
    ∀ s, sessionFind m.collector.sessions p.netid auth.sessionid = some s →
      s.tenantid = auth.tenantid ∧ s.hostid = auth.hostid

/-- Every session is one of a linked host, and has its key from an auth packet of the host's
tenant for that host. -/
structure Isolated (m : Monitored) : Prop where
  arranged : m.collector.Arranged
  formed : m.collector.sessions.Formed
  supplied : ∀ s, m.collector.sessions.Live s → m.collector.Links s.host s.tenantid s.hostid ∧
    ∃ a, supplier m.accepted s.addr s.sessid = some a ∧ a.sessionkey = s.key ∧
      a.tenantid = s.tenantid ∧ a.hostid = s.hostid

variable {lib : Library} {p : Received} {c c' : Collector}

/-- What a packet can do to the sessions: nothing unless it is an auth packet that is accepted,
which renews the session it finds, or registers one. -/
theorem handlePacket_cases (hc : c.Arranged) (h : handlePacket lib p c = .ok c') :
    c.Extends c' ∧ ∃ auth, acceptedAuth p c = .ok auth ∧
      ((auth = none ∧ c'.sessions = c.sessions) ∨
        ∃ a, auth = some a ∧
          ((∃ S, sessionFind c.sessions p.netid a.sessionid = some S ∧
              S.lastserial < a.serial ∧
              c'.sessions = sessionExpire (c.sessions.modify p.netid a.sessionid (renewed p a))
                (p.tnow - 905)) ∨
            (sessionFind c.sessions p.netid a.sessionid = none ∧
              ∃ addr, c'.Links addr a.tenantid a.hostid ∧
                c'.sessions = sessionExpire (sessionLink c.sessions (registered p a addr))
                  (p.tnow - 905)))) := by
  unfold handlePacket at h
  split at h
  · rename_i hauth
    obtain ⟨⟨auth, c₁⟩, hu, h⟩ := Outcome.bind_ok_iff.mp h
    obtain ⟨hext, hsess⟩ := unwrapAuthdata_spec hc hu
    have hacc : acceptedAuth p c = .ok (auth.filter fun auth => accepts p auth c.sessions) := by
      simp only [acceptedAuth, if_pos hauth, hu, Outcome.ok_bind, Outcome.pure_ok, hsess]
    rw [hacc]
    cases auth with
    | none =>
      cases h
      exact ⟨hext, none, rfl, .inl ⟨rfl, hsess⟩⟩
    | some a =>
      have hcases := authSession_cases hext.arranged h
      rw [hsess] at hcases
      obtain ⟨hno, rfl⟩ | ⟨hyes, hext', hcases⟩ := hcases
      · exact ⟨hext, none, by simp [hno], .inl ⟨rfl, hsess⟩⟩
      · exact ⟨hext.trans hext', some a, by simp [hyes], .inr ⟨a, rfl, hcases⟩⟩
  · rename_i hauth
    have hacc : acceptedAuth p c = .ok none := if_neg hauth
    rw [hacc]
    split at h
    · obtain ⟨hext, hsess⟩ := handleMeterPacket_spec hc h
      exact ⟨hext, none, rfl, .inl ⟨rfl, hsess⟩⟩
    · cases h
      exact ⟨.refl hc, none, rfl, .inl ⟨rfl, rfl⟩⟩

/-- A session whose key is not the last one a network id and session id were supplied with. -/
theorem supplier_cons_ne {accepted : List (BitVec 32 × Authinfo)} {netid addr sessid : BitVec 32}
    {a : Authinfo} (h : ¬ (addr = netid ∧ sessid = a.sessionid)) :
    supplier ((netid, a) :: accepted) addr sessid = supplier accepted addr sessid := by
  have hno : (netid == addr && a.sessionid == sessid) = false := by
    apply Bool.eq_false_iff.mpr
    intro hyes
    rw [Bool.and_eq_true, beq_iff_eq, beq_iff_eq] at hyes
    exact h ⟨hyes.1.symm, hyes.2.symm⟩
  simp [supplier, hno]

theorem supplier_cons_self (accepted : List (BitVec 32 × Authinfo)) (netid : BitVec 32)
    (a : Authinfo) : supplier ((netid, a) :: accepted) netid a.sessionid = some a := by
  simp [supplier]

theorem reception_isolated {m m' : Monitored} (hm : Isolated m) (hp : Undisputed m p)
    (hstep : (reception lib).step m p m') : Isolated m' := by
  obtain ⟨hpkt, auth, hacc, haccepted⟩ := hstep
  obtain ⟨hext, auth', hacc', hcases⟩ := handlePacket_cases hm.arranged hpkt
  obtain rfl := Except.ok.inj (hacc.symm.trans hacc')
  have hold {s : Session} (hs : m.collector.sessions.Live s) :
      m'.collector.Links s.host s.tenantid s.hostid ∧ _ :=
    ⟨hext.links _ _ _ (hm.supplied s hs).1, (hm.supplied s hs).2⟩
  obtain ⟨rfl, hsess⟩ | ⟨a, rfl, hcases⟩ := hcases
  · have haccepted : m'.accepted = m.accepted := haccepted
    refine ⟨hext.arranged, by rw [hsess]; exact hm.formed, fun s hs => ?_⟩
    rw [hsess] at hs
    rw [haccepted]
    exact hold hs
  have haccepted : m'.accepted = (p.netid, a) :: m.accepted := haccepted
  obtain ⟨S, hfind, -, hsess⟩ | ⟨hfind, addr, hlinks, hsess⟩ := hcases
  · have hformed := hm.formed.modify p.netid a.sessionid (renewed_keeps p a)
    refine ⟨hext.arranged, by rw [hsess]; exact hformed.expire _, fun s hs => ?_⟩
    rw [hsess] at hs
    rw [haccepted]
    have hs' := hformed.find_eq_some_iff.mpr ⟨(Sessiondb.live_expire.mp hs).1, rfl, rfl⟩
    rw [Sessiondb.find_modify (renewed_keeps p a)] at hs'
    split at hs'
    · -- the session that was renewed is one of the packet's host
      rename_i hsame
      rw [hfind] at hs'
      obtain rfl := Option.some.inj hs'
      obtain ⟨hT, hH⟩ := hp a hacc S hfind
      obtain ⟨hlink, -⟩ := hold (Sessiondb.find_live hfind)
      obtain ⟨haddr, hsid⟩ := hsame
      refine ⟨hlink, a, ?_, rfl, hT.symm, hH.symm⟩
      rw [haddr, hsid]
      exact supplier_cons_self _ _ _
    · rename_i hne
      rw [supplier_cons_ne hne]
      exact hold (Sessiondb.find_live hs')
  · have hformed := hm.formed.link (registered p a addr) hfind
    refine ⟨hext.arranged, by rw [hsess]; exact hformed.expire _, fun s hs => ?_⟩
    rw [hsess] at hs
    rw [haccepted]
    have hlive := (Sessiondb.live_expire.mp hs).1
    obtain rfl | hlive := Sessiondb.live_link hlive
    · exact ⟨hlinks, a, supplier_cons_self _ _ _, rfl, rfl, rfl⟩
    · have hne : ¬ (s.addr = p.netid ∧ s.sessid = a.sessionid) := by
        rintro ⟨haddr, hsid⟩
        have hs' := hm.formed.find_eq_some_iff.mpr ⟨hlive, haddr, hsid⟩
        rw [hfind] at hs'
        cases hs'
      rw [supplier_cons_ne hne]
      exact hold hlive

theorem isolated_of_history {ps : List Received} {m : Monitored}
    (h : ((reception lib).guard Undisputed).History ps m) : Isolated m := by
  apply h.induction (I := fun _ m => Isolated m)
  · rintro _ rfl
    refine ⟨Arranged.empty, Sessiondb.Formed.empty, fun s hs => ?_⟩
    obtain ⟨i, hmem, -⟩ := hs
    exact absurd hmem List.not_mem_nil
  · intro _ m p m' hm hstep
    exact reception_isolated hm hstep.1 hstep.2

/-- An auth packet that is accepted changes sessions of its own host and tenant only, if and
only if it does not meet with another one's session. -/
theorem changesOnly_iff {m : Monitored} (hm : Isolated m) {a : Authinfo}
    (hacc : acceptedAuth p m.collector = .ok (some a))
    (h : handlePacket lib p m.collector = .ok c') :
    ChangesOnly m.collector.sessions c'.sessions a.tenantid a.hostid ↔ Undisputed m p := by
  obtain ⟨-, auth, hacc', hcases⟩ := handlePacket_cases hm.arranged h
  obtain rfl := Except.ok.inj (hacc'.symm.trans hacc)
  obtain ⟨hnone, -⟩ | ⟨a', ha', hcases⟩ := hcases
  · cases hnone
  obtain rfl := Option.some.inj ha'
  have hundisputed : Undisputed m p ↔
      ∀ s, sessionFind m.collector.sessions p.netid a.sessionid = some s →
        s.tenantid = a.tenantid ∧ s.hostid = a.hostid := by
    constructor
    · intro hp
      exact hp a hacc
    · intro hp a' hacc'
      obtain rfl := Option.some.inj (Except.ok.inj (hacc.symm.trans hacc'))
      exact hp
  rw [hundisputed]
  obtain ⟨S, hfind, hserial, hsess⟩ | ⟨hfind, addr, -, hsess⟩ := hcases
  · have hformed := hm.formed.modify p.netid a.sessionid (renewed_keeps p a)
    constructor
    · intro hchanges s hs
      obtain rfl := Option.some.inj (hfind.symm.trans hs)
      -- the session is found again, with the packet's serial
      have hmod : sessionFind (m.collector.sessions.modify p.netid a.sessionid (renewed p a)) p.netid
          a.sessionid = some (renewed p a S) := by
        rw [Sessiondb.find_modify (renewed_keeps p a), if_pos ⟨rfl, rfl⟩, hfind]
        rfl
      have hlive := Sessiondb.live_expire.mpr
        ⟨Sessiondb.find_live hmod, Nat.sub_le p.tnow 905⟩
      have hfind' : sessionFind c'.sessions p.netid a.sessionid = some (renewed p a S) := by
        rw [hsess]
        obtain ⟨haddr, hsid, -⟩ := Sessiondb.find_matches hmod
        exact (hformed.expire _).find_eq_some_iff.mpr ⟨hlive, haddr, hsid⟩
      apply hchanges _ _ _ _ hfind hfind'
      intro hsame
      have hser : a.serial = S.lastserial := congrArg (fun t => t.2.1) hsame
      rw [hser] at hserial
      exact absurd hserial (BitVec.lt_irrefl _)
    · intro hp addr sessid s s' hs hs' hne
      rw [hsess] at hs'
      have hs' := hformed.find_expire hs'
      rw [Sessiondb.find_modify (renewed_keeps p a)] at hs'
      split at hs'
      · rename_i hsame
        obtain ⟨rfl, rfl⟩ := hsame
        exact hp s hs
      · obtain rfl := Option.some.inj (hs.symm.trans hs')
        exact absurd rfl hne
  · have hformed := hm.formed.link (registered p a addr) hfind
    constructor
    · intro _ s hs
      rw [hfind] at hs
      cases hs
    · intro _ addr' sessid s s' hs hs' hne
      rw [hsess] at hs'
      obtain ⟨hlive, haddr, hsid⟩ := hformed.find_eq_some_iff.mp (hformed.find_expire hs')
      obtain rfl | hlive := Sessiondb.live_link hlive
      · rw [← haddr, ← hsid] at hs
        exact absurd (hfind.symm.trans hs) (by simp)
      · obtain rfl := Option.some.inj
          (hs.symm.trans (hm.formed.find_eq_some_iff.mpr ⟨hlive, haddr, hsid⟩))
        exact absurd rfl hne

/-- In every run of packets in which no auth packet meets with another host's session: a further
auth packet that is accepted changes sessions of its own host and tenant only, if and only if
it does not do so either; one that is not accepted, and a meter packet, changes no session;
and the data of a meter packet that is accepted is decoded into the host, and the tenant,
that an auth packet has supplied the session's key for. -/
theorem sessions_isolated {ps : List Received} {m : Monitored}
    (h : ((reception lib).guard Undisputed).History ps m) (p : Received) :
    (∀ a c', acceptedAuth p m.collector = .ok (some a) →
      handlePacket lib p m.collector = .ok c' →
      (ChangesOnly m.collector.sessions c'.sessions a.tenantid a.hostid ↔ Undisputed m p)) ∧
    (∀ c', acceptedAuth p m.collector = .ok none → handlePacket lib p m.collector = .ok c' →
      c'.sessions = m.collector.sessions) ∧
    ∀ s data c', unwrapMeterPacket lib p m.collector = .ok (.ok (s, data), c') →
      ∃ a, supplier m.accepted s.addr s.sessid = some a ∧ a.sessionkey = s.key ∧
        c'.Links s.host a.tenantid a.hostid := by
  have hm := isolated_of_history h
  refine ⟨fun a c' hacc hpkt => changesOnly_iff hm hacc hpkt, fun c' hacc hpkt => ?_, ?_⟩
  · obtain ⟨-, auth, hacc', hcases⟩ := handlePacket_cases hm.arranged hpkt
    obtain rfl := Except.ok.inj (hacc'.symm.trans hacc)
    obtain ⟨-, hsess⟩ | ⟨a, ha, -⟩ := hcases
    · exact hsess
    · cases ha
  · intro s data c' hunwrap
    obtain ⟨hext, -⟩ := unwrapMeterPacket_spec hm.arranged hunwrap
    obtain ⟨⟨e, he⟩, -⟩ | ⟨S, host, serial, hfind, -, -, -, hu⟩ := unwrapMeterPacket_cases hunwrap
    · cases he
    · obtain (hu | hu) | ⟨data', hu⟩ := hu
      · cases hu
      · cases hu
      · cases hu
        obtain ⟨hlinks, a, hsup, hkey, hT, hH⟩ := hm.supplied s (Sessiondb.find_live hfind)
        refine ⟨a, hsup, hkey, ?_⟩
        rw [hT, hH]
        exact hext.links _ _ _ hlinks

/-! ### Two tenants behind one address -/

/-- What handling a packet comes to where it succeeds. -/
def settled (x : Except Fault Collector) : Collector := x.toOption.getD .empty

theorem eq_settled {x : Except Fault Collector} (h : x.isOk) : x = .ok (settled x) := by
  cases x with
  | ok c => rfl
  | error e => cases h

section Wrapped

variable {auth : Authinfo} {key : AesKey} {pad rand : Nat → UInt8} {ts : Nat}
  (hp : p.bytes = ioportWrapAuthdata auth key pad rand ts)
  (hkey : p.db.key auth.tenantid = some (some key))
  (hfresh : stampFresh (.ofNat 32 ts) (.ofNat 32 p.tnow))
include hp hkey hfresh

theorem unwrapAuthdata_wrapped :
    ioportUnwrapAuthdata p.bytes p.mem p.tnow (resolveTenantkey p.db) c =
      .ok (some auth, (resolveTenantkey p.db auth.tenantid auth.serial c).2) := by
  rw [hp]
  refine ioportUnwrapAuthdata_wrap ?_ hfresh
  simp only [resolveTenantkey, hkey]

theorem handlePacket_wrapped :
    handlePacket lib p c =
      authSession lib p auth (resolveTenantkey p.db auth.tenantid auth.serial c).2 := by
  rw [handlePacket, if_pos (by rw [hp, take_ioportWrapAuthdata]), handleAuthPacket,
    unwrapAuthdata_wrapped hp hkey hfresh, Outcome.ok_bind]

theorem acceptedAuth_wrapped :
    acceptedAuth p c = .ok ((some auth).filter fun auth =>
      accepts p auth (resolveTenantkey p.db auth.tenantid auth.serial c).2.sessions) := by
  rw [acceptedAuth, if_pos (by rw [hp, take_ioportWrapAuthdata]),
    unwrapAuthdata_wrapped hp hkey hfresh, Outcome.ok_bind]
  exact Outcome.pure_ok _

end Wrapped

/-- A packet from 10.0.0.1. -/
def receivedFrom (bytes : List UInt8) (tnow : Nat) (db : Database) : Received :=
  ⟨bytes, .inet 0x0100000a, tnow, db, ⟨[], [], []⟩, []⟩

section ReceivedFrom

variable {auth : Authinfo} {key : AesKey} {pad rand : Nat → UInt8} {ts tnow : Nat} {db : Database}
  (hkey : db.key auth.tenantid = some (some key))
  (hfresh : stampFresh (.ofNat 32 ts) (.ofNat 32 tnow))
include hkey hfresh

-- what follows decryption does not look at the bytes, and they are better not evaluated
theorem handlePacket_receivedFrom :
    handlePacket lib (receivedFrom (ioportWrapAuthdata auth key pad rand ts) tnow db) c =
      authSession lib (receivedFrom [] tnow db) auth
        (resolveTenantkey db auth.tenantid auth.serial c).2 := by
  generalize hbytes : ioportWrapAuthdata auth key pad rand ts = bytes
  exact handlePacket_wrapped (p := receivedFrom bytes tnow db) hbytes.symm hkey hfresh

theorem acceptedAuth_receivedFrom :
    acceptedAuth (receivedFrom (ioportWrapAuthdata auth key pad rand ts) tnow db) c =
      .ok ((some auth).filter fun auth => accepts (receivedFrom [] tnow db) auth
        (resolveTenantkey db auth.tenantid auth.serial c).2.sessions) := by
  generalize hbytes : ioportWrapAuthdata auth key pad rand ts = bytes
  exact acceptedAuth_wrapped (p := receivedFrom bytes tnow db) hbytes.symm hkey hfresh

end ReceivedFrom

def tenants12 : Database where
  key t :=
    if t = ⟨0, 1⟩ then some (some (plainKey 1))
    else if t = ⟨0, 2⟩ then some (some (plainKey 2))
    else none
  current _ _ := none

/-- The hosts 3 and 4 of the tenants 1 and 2 are behind the address 10.0.0.1, and they have come
to the same session id. -/
def auth1 : Authinfo := ⟨7, 100, ⟨0, 1⟩, ⟨0, 3⟩, plainKey 3⟩
def auth2 : Authinfo := ⟨7, 101, ⟨0, 2⟩, ⟨0, 4⟩, plainKey 4⟩

def lib1 : Library := ⟨tableZlib.inflate 2048, fun _ => asc "10.0.0.1"⟩

def packet1 : Received :=
  receivedFrom (ioportWrapAuthdata auth1 (plainKey 1) (fun _ => 0) (fun _ => 0) 1000) 1000 tenants12

def packet2 : Received :=
  receivedFrom (ioportWrapAuthdata auth2 (plainKey 2) (fun _ => 0) (fun _ => 0) 1001) 1001 tenants12

def state1 : Monitored :=
  ⟨settled (authSession lib1 (receivedFrom [] 1000 tenants12) auth1
    (resolveTenantkey tenants12 auth1.tenantid auth1.serial .empty).2), [(0x0100000a, auth1)]⟩

theorem state1_step : (reception lib1).step ⟨.empty, []⟩ packet1 state1 := by
  refine ⟨?_, some auth1, ?_, rfl⟩
  · refine (handlePacket_receivedFrom (by decide) (by decide)).trans ?_
    exact eq_settled (by decide)
  · refine (acceptedAuth_receivedFrom (by decide) (by decide)).trans ?_
    decide

theorem state1_history : ((reception lib1).guard Undisputed).History [packet1] state1 := by
  refine Transition.History.step (Transition.History.init rfl) ⟨?_, state1_step⟩
  intro auth _ s hs
  cases hs

def collector2 : Collector :=
  settled (authSession lib1 (receivedFrom [] 1001 tenants12) auth2
    (resolveTenantkey tenants12 auth2.tenantid auth2.serial state1.collector).2)

theorem packet2_handled : acceptedAuth packet2 state1.collector = .ok (some auth2) ∧
    handlePacket lib1 packet2 state1.collector = .ok collector2 := by
  constructor
  · refine (acceptedAuth_receivedFrom (by decide) (by decide)).trans ?_
    decide
  · refine (handlePacket_receivedFrom (by decide) (by decide)).trans ?_
    exact eq_settled (by decide)

theorem sessions_isolated_second :
    ChangesOnly state1.collector.sessions collector2.sessions auth2.tenantid auth2.hostid ↔
      Undisputed state1 packet2 :=
  (sessions_isolated state1_history packet2).1 auth2 collector2 packet2_handled.1 packet2_handled.2

/-- The second tenant's packet is accepted and puts its key into the session of the first
tenant's host; meter data under this key is then decoded into that host. -/
theorem session_taken_over :
    (reception lib1).History [packet1] state1 ∧
    acceptedAuth packet2 state1.collector = .ok (some auth2) ∧
    handlePacket lib1 packet2 state1.collector = .ok collector2 ∧
    ¬ ChangesOnly state1.collector.sessions collector2.sessions auth2.tenantid auth2.hostid ∧
    (sessionFind collector2.sessions 0x0100000a 7).map
      (fun s => (s.tenantid, s.hostid, s.key)) = some (⟨0, 1⟩, ⟨0, 3⟩, plainKey 4) := by
  have hrun := state1_history.of_guard
  obtain ⟨hacc, hpkt⟩ := packet2_handled
  refine ⟨hrun, hacc, hpkt, ?_, ?_⟩
  rotate_left
  · decide
  intro h
  have hbefore : (sessionFind state1.collector.sessions 0x0100000a 7).map
      (fun s => (s.tenantid, s.key)) = some (⟨0, 1⟩, plainKey 3) := by decide
  have hafter : (sessionFind collector2.sessions 0x0100000a 7).map
      (fun s => s.key) = some (plainKey 4) := by decide
  obtain ⟨s, hs, hst⟩ := Option.map_eq_some_iff.mp hbefore
  obtain ⟨s', hs', hkey'⟩ := Option.map_eq_some_iff.mp hafter
  obtain ⟨htenant, hkey⟩ := Prod.mk.inj hst
  have hchanged : s'.credentials ≠ s.credentials := by
    intro heq
    have := congrArg (·.1) heq
    simp only [Session.credentials, hkey, hkey'] at this
    exact absurd this (by decide)
  have hsame := (h _ _ s s' hs hs' hchanged).1
  rw [htenant] at hsame
  exact absurd hsame (by decide)

end Opticon
