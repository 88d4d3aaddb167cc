import Opticon.Collector.Rejection

/-! The serials of the meter packets that are accepted for a host. -/

namespace Opticon

open Collector

/-- A meter packet decrypts under a key, and decompresses. -/
def opens (lib : Library) (p : Received) (k : AesKey) : Bool :=
  let (_, _, io) := ioportRead (.reader p.bytes) 4
  let (_, io) := ioportReadU32 io
  let (serial, io) := ioportReadU32 io
  match ioportDecrypt k io p.mem.block p.tnow serial with
  | .ok (true, decrypted) =>
    (decompressData lib.inflate (bufferContents p.mem.decrypted decrypted)).isSome
  | _ => false

/-- A collector, and the serials of the meter packets it has accepted for the host at an
address, the last one first. -/
structure Metered where
  collector : Collector
  accepted : Nat → List (BitVec 32)

def metering (lib : Library) : Transition Metered Received where
  init m := m = ⟨.empty, fun _ => []⟩
  step m p m' :=
    handlePacket lib p m.collector = .ok m'.collector ∧
      ∃ u c, unwrapMeterPacket lib p m.collector = .ok (u, c) ∧
        m'.accepted = match u with
          | .ok (S, _) =>
            Function.update m.accepted S.host ((meterHeader p.bytes).2 :: m.accepted S.host)
          | .error _ => m.accepted

/-- A serial that may come after another one: a higher one, or a low one after the end. -/
def Follows (serial last : BitVec 32) : Prop :=
  last < serial ∨ (0xfffffff8 ≤ last ∧ serial ≤ 8)

instance (serial last : BitVec 32) : Decidable (Follows serial last) :=
  inferInstanceAs (Decidable (_ ∨ _))

/-- A low serial that gets as far as the key, for a host at the end of the serials, is one of
a packet the key opens, and the last one that was accepted was at the end too. -/
def WrapsGenuinely (lib : Library) (m : Metered) (p : Received) : Prop :=
  ∀ S h, p.bytes.take 4 = asc "o6m1" →
    sessionFind m.collector.sessions p.netid (meterHeader p.bytes).1 = some S →
    oldSerial S.lastserial (meterHeader p.bytes).2 = false →
    m.collector.deref S.host = .ok h → 0xfffffff8 ≤ h.lastserial → (meterHeader p.bytes).2 ≤ 8 →
    ∀ last, (m.accepted S.host).head? = some last →
      last < (meterHeader p.bytes).2 ∨ (opens lib p S.key = true ∧ 0xfffffff8 ≤ last)

variable {lib : Library} {p : Received} {c c' c'' : Collector} {m m' : Metered}
  {serial last : BitVec 32}

theorem oldSerial_eq_false :
    oldSerial last serial = false ↔ last < serial ∨ (0xfffffff8 ≤ last ∧ serial ≤ 8) := by
  simp only [oldSerial, Bool.and_eq_false_iff, decide_eq_false_iff_not, Bool.or_eq_false_iff,
    BitVec.not_le, BitVec.not_lt]

theorem unwrapMeterPacket_error (htype : p.bytes.take 4 ≠ asc "o6m1") :
    ∃ e, unwrapMeterPacket lib p c = .ok (.error e, c) := by
  unfold unwrapMeterPacket ioportUnwrapMeterdata
  obtain ⟨-, hread⟩ | ⟨-, hread⟩ := ioportRead_type p.bytes
  · simp only [hread, not_true_eq_false, if_false, if_pos htype]
    exact ⟨_, rfl⟩
  · simp only [hread, Bool.false_eq_true, not_false_eq_true, if_true]
    exact ⟨_, rfl⟩

/-- What unwrapping a meter packet comes to: its key is not found, or the packet is accepted
if and only if the key opens it. -/
theorem unwrapMeterPacket_opens {u : Except UnwrapError (Session × List UInt8)}
    (htype : p.bytes.take 4 = asc "o6m1") (h : unwrapMeterPacket lib p c = .ok (u, c')) :
    ∃ r, resolveSessionkey p.netid (meterHeader p.bytes).1 (meterHeader p.bytes).2 c =
        .ok (r, c') ∧
      ((r = none ∧ ∃ e, u = .error e) ∨ ∃ k S, r = some (k, S) ∧
        ((opens lib p k = true ∧ ∃ data, u = .ok (S, data)) ∨
          (opens lib p k = false ∧ ∃ e, u = .error e))) := by
  obtain ⟨-, hread⟩ | ⟨hlen, -⟩ := ioportRead_type p.bytes
  · unfold unwrapMeterPacket ioportUnwrapMeterdata at h
    simp only [hread, htype, not_true_eq_false, if_false, ne_eq] at h
    obtain ⟨⟨r, c₁⟩, hres, h⟩ := Outcome.bind_ok_iff.mp h
    cases r with
    | none =>
      cases h
      refine ⟨none, ?_, .inl ⟨rfl, _, rfl⟩⟩
      simp only [meterHeader, hread]
      exact hres
    | some r =>
      obtain ⟨k, S⟩ := r
      obtain ⟨⟨ok, decrypted⟩, hdec, h⟩ := Outcome.bind_ok_iff.mp h
      have hopens : opens lib p k = (ok &&
          (decompressData lib.inflate (bufferContents p.mem.decrypted decrypted)).isSome) := by
        simp only [opens, hread, hdec]
        cases ok <;> rfl
      have hr : c₁ = c' ∧ ((opens lib p k = true ∧ ∃ data, u = .ok (S, data)) ∨
          (opens lib p k = false ∧ ∃ e, u = .error e)) := by
        rw [hopens]
        dsimp only at h
        split at h
        · rename_i hok
          cases h
          exact ⟨rfl, .inr ⟨by simpa using fun hyes => absurd hyes hok, _, rfl⟩⟩
        · rename_i hok
          split at h
          · rename_i hnone
            cases h
            exact ⟨rfl, .inr ⟨by simp [hnone], _, rfl⟩⟩
          · rename_i res hsome
            cases h
            exact ⟨rfl, .inl ⟨by simpa [hsome] using hok, _, rfl⟩⟩
      obtain ⟨rfl, hu⟩ := hr
      refine ⟨some (k, S), ?_, .inr ⟨k, S, rfl, hu⟩⟩
      simp only [meterHeader, hread]
      exact hres
  · have hshort := congrArg List.length htype
    rw [List.length_take] at hshort
    exact absurd hshort (by rw [show (asc "o6m1").length = 4 from rfl]; omega)

/-- Hosts keep their serials, and new ones get new addresses. -/
structure Collector.KeepsSerials (c c' : Collector) : Prop where
  next : c.next ≤ c'.next
  serials : ∀ n' ∈ c'.linked, c.next ≤ n'.2.addr ∨
    ∃ n ∈ c.linked, n.2.addr = n'.2.addr ∧ n.2.host.lastserial = n'.2.host.lastserial

namespace Collector.KeepsSerials

theorem of_linked (hl : c'.linked = c.linked) (hn : c'.next = c.next) : c.KeepsSerials c' := by
  refine ⟨hn.ge, fun n' hn' => .inr ⟨n', ?_, rfl, rfl⟩⟩
  rw [← hl]
  exact hn'

theorem refl : c.KeepsSerials c := of_linked rfl rfl

theorem trans (h : c.KeepsSerials c') (h' : c'.KeepsSerials c'') : c.KeepsSerials c'' := by
  refine ⟨h.next.trans h'.next, fun n'' hn'' => ?_⟩
  obtain hnew | ⟨n', hn', haddr', hserial'⟩ := h'.serials n'' hn''
  · exact .inl (h.next.trans hnew)
  · obtain hnew | ⟨n, hn, haddr, hserial⟩ := h.serials n' hn'
    · exact .inl (haddr' ▸ hnew)
    · exact .inr ⟨n, hn, haddr.trans haddr', hserial.trans hserial'⟩

theorem setHost (hc : c.Arranged) {addr : Nat} {h h' : Host} (hd : c.deref addr = .ok h)
    (hserial : h'.lastserial = h.lastserial) : c.KeepsSerials (c.setHost addr h') := by
  refine ⟨le_rfl, fun n' hn' => .inr ?_⟩
  rw [linked_setHost] at hn'
  obtain ⟨n, hn, rfl⟩ := List.mem_map.mp hn'
  refine ⟨n, hn, ?_⟩
  dsimp only
  split
  · rename_i haddr
    obtain ⟨n₀, hn₀, haddr₀, rfl⟩ := deref_ok hd
    obtain rfl := hc.eq_of_addr hn₀ hn (haddr₀.trans haddr.symm)
    exact ⟨rfl, hserial.symm⟩
  · exact ⟨rfl, rfl⟩

theorem tenantFind (hc : c.Arranged) (tenantid : Uuid) :
    c.KeepsSerials (Opticon.tenantFind c tenantid).2 := by
  obtain ⟨-, -, hlinked, -⟩ := tenantFind_spec hc tenantid
  refine of_linked hlinked ?_
  unfold Opticon.tenantFind
  split <;> rfl

theorem hostFind (hc : c.Arranged) (tenantid hostid : Uuid) :
    c.KeepsSerials (Opticon.hostFind c tenantid hostid).2 := by
  have hfind := tenantFind hc tenantid
  obtain ⟨-, -, -, hmem, hid⟩ := tenantFind_spec hc tenantid
  unfold Opticon.hostFind
  generalize Opticon.tenantFind c tenantid = r at hfind hmem hid
  obtain ⟨t, c₁⟩ := r
  dsimp only at hfind hmem hid ⊢
  split
  · exact hfind
  · refine hfind.trans ⟨Nat.le_succ _, fun n' hn' => ?_⟩
    have hperm := linked_addHost (c := c₁) ⟨c₁.next, hostAlloc hostid⟩ ⟨t, hmem, hid⟩
    obtain rfl | hn' := List.mem_cons.mp (hperm.mem_iff.mp hn')
    · exact .inl le_rfl
    · exact .inr ⟨n', hn', rfl, rfl⟩

theorem resolveTenantkey (hc : c.Arranged) (db : Database) (T : Uuid) (serial : BitVec 32) :
    c.KeepsSerials (Opticon.resolveTenantkey db T serial c).2 := by
  have hfind := tenantFind hc T
  unfold Opticon.resolveTenantkey
  split
  · exact refl
  · dsimp only
    split
    · exact hfind
    · exact hfind.trans (of_linked (linked_modifyTenant (fun _ => rfl) fun _ => rfl) rfl)

theorem sessions (h : c.KeepsSerials c') (db db' : Sessiondb) :
    KeepsSerials { c with sessions := db } { c' with sessions := db' } := ⟨h.next, h.serials⟩

theorem authDone {tnow : Nat} {S : Session} (hc : c.Arranged)
    (h : Opticon.authDone lib tnow S c = .ok c') : c.KeepsSerials c' := by
  obtain ⟨host, hd, h⟩ := Outcome.bind_ok_iff.mp h
  obtain ⟨host', hs, h⟩ := Outcome.bind_ok_iff.mp h
  cases h
  have hserial : host'.lastserial = host.lastserial :=
    congrArg (fun h => h.lastserial) (setStringMeter_head hs)
  exact (setHost hc hd hserial).sessions _ _

theorem authSession {auth : Authinfo} (hc : c.Arranged)
    (h : Opticon.authSession lib p auth c = .ok c') : c.KeepsSerials c' := by
  unfold Opticon.authSession at h
  split at h
  · cases h
    exact refl
  split at h
  · split at h
    · have hdone := authDone ((Extends.refl hc).sessions _).arranged h
      exact (refl.sessions c.sessions _).trans hdone
    · cases h
      exact refl
  · rename_i hfind
    obtain ⟨hc₁, hsess, -, -⟩ := hostFind_spec hc auth.tenantid auth.hostid
    have hkeeps := hostFind hc auth.tenantid auth.hostid
    unfold sessionRegister at h
    generalize Opticon.hostFind c auth.tenantid auth.hostid = r at hc₁ hsess hkeeps h
    obtain ⟨addr, c₁⟩ := r
    dsimp only at hc₁ hsess hkeeps h
    rw [hsess, hfind] at h
    exact hkeeps.trans ((refl.sessions _ _).trans
      (authDone ((Extends.refl hc₁).sessions _).arranged h))

theorem handleAuthPacket (hc : c.Arranged) (h : Opticon.handleAuthPacket lib p c = .ok c') :
    c.KeepsSerials c' := by
  obtain ⟨⟨auth, c₁⟩, hu, h⟩ := Outcome.bind_ok_iff.mp h
  have hc₁ := (unwrapAuthdata_spec hc hu).1.arranged
  have hkeeps : c.KeepsSerials c₁ := by
    obtain rfl | ⟨T, serial, rfl⟩ := unwrapAuthdata_cases hu
    · exact refl
    · exact resolveTenantkey hc p.db T serial
  cases auth with
  | none =>
    cases h
    exact hkeeps
  | some a => exact hkeeps.trans (authSession hc₁ h)

end Collector.KeepsSerials

theorem updateHost_lastserial {S : Session} {data : List UInt8} {H H' : Host}
    (h : updateHost p S data H = .ok H') : H'.lastserial = H.lastserial :=
  congrArg (fun h => h.lastserial) (updateHost_head h)

theorem Arranged.writeSerial (hc : c.Arranged) {addr : Nat} {host : Host}
    (hd : c.deref addr = .ok host) (serial : BitVec 32) :
    (c.setHost addr { host with lastserial := serial }).Arranged := by
  have hext : c.Extends (c.setHost addr { host with lastserial := serial }) :=
    hc.extends_setHost hd rfl
  exact hext.arranged

/-- What a meter packet can do to the serials: nothing, or write its own to the host of the
session it finds. It is accepted only then, if the key opens it. -/
theorem handleMeterPacket_serials {u : Except UnwrapError (Session × List UInt8)}
    (hc : c.Arranged) (htype : p.bytes.take 4 = asc "o6m1")
    (hu : unwrapMeterPacket lib p c = .ok (u, c'')) (h : handleMeterPacket lib p c = .ok c') :
    (c' = c ∧ ∃ e, u = .error e) ∨ ∃ S host,
      sessionFind c.sessions p.netid (meterHeader p.bytes).1 = some S ∧
      oldSerial S.lastserial (meterHeader p.bytes).2 = false ∧ c.deref S.host = .ok host ∧
      oldSerial host.lastserial (meterHeader p.bytes).2 = false ∧
      (c.setHost S.host { host with lastserial := (meterHeader p.bytes).2 }).KeepsSerials c' ∧
      ((opens lib p S.key = true ∧ ∃ data, u = .ok (S, data)) ∨
        (opens lib p S.key = false ∧ ∃ e, u = .error e)) := by
  rw [handleMeterPacket, hu, Outcome.ok_bind] at h
  obtain ⟨r, hres, hr⟩ := unwrapMeterPacket_opens htype hu
  obtain ⟨rfl, rfl⟩ | ⟨S, host, hfind, hold, hd, hold', rfl, rfl⟩ := resolveSessionkey_cases hres
  · obtain ⟨-, e, rfl⟩ | ⟨k, S, ⟨⟩, -⟩ := hr
    cases h
    exact .inl ⟨rfl, e, rfl⟩
  · obtain ⟨⟨⟩, -⟩ | ⟨k, S', ⟨⟩, hopens⟩ := hr
    refine .inr ⟨S, host, hfind, hold, hd, hold', ?_, hopens⟩
    obtain ⟨-, data, rfl⟩ | ⟨-, e, rfl⟩ := hopens
    · obtain ⟨H, hd', h⟩ := Outcome.bind_ok_iff.mp h
      obtain ⟨H', hupdate, h⟩ := Outcome.bind_ok_iff.mp h
      cases h
      exact .setHost (Arranged.writeSerial hc hd _) hd' (updateHost_lastserial hupdate)
    · cases h
      exact .refl

/-- The accepted serials are in order, and no host is behind the last one. -/
structure Sequenced (m : Metered) : Prop where
  arranged : m.collector.Arranged
  fresh : ∀ addr, m.collector.next ≤ addr → m.accepted addr = []
  behind : ∀ n ∈ m.collector.linked, ∀ last, (m.accepted n.2.addr).head? = some last →
    last ≤ n.2.host.lastserial
  ordered : ∀ addr, (m.accepted addr).IsChain Follows

theorem Sequenced.keeps (hm : Sequenced m) (hc' : c'.Arranged)
    (hkeeps : m.collector.KeepsSerials c') : Sequenced ⟨c', m.accepted⟩ := by
  refine ⟨hc', fun addr haddr => hm.fresh addr (hkeeps.next.trans haddr), ?_, hm.ordered⟩
  intro n' hn' last hlast
  obtain hnew | ⟨n, hn, haddr, hserial⟩ := hkeeps.serials n' hn'
  · rw [hm.fresh _ hnew] at hlast
    cases hlast
  · rw [← haddr] at hlast
    rw [← hserial]
    exact hm.behind n hn last hlast

theorem mem_linked_setHost {addr : Nat} {h : Host} {n' : Uuid × HostNode}
    (hn' : n' ∈ (c.setHost addr h).linked) :
    (n'.2.addr = addr ∧ n'.2.host = h) ∨ (n'.2.addr ≠ addr ∧ n' ∈ c.linked) := by
  rw [linked_setHost] at hn'
  obtain ⟨n, hn, rfl⟩ := List.mem_map.mp hn'
  dsimp only
  split
  · rename_i haddr
    exact .inl ⟨haddr, rfl⟩
  · rename_i haddr
    exact .inr ⟨haddr, hn⟩

/-- A packet that is refused at the key leaves its serial, which is not below the last one. -/
theorem Sequenced.refuse (hm : Sequenced m) {addr : Nat} {host : Host}
    (hd : m.collector.deref addr = .ok host)
    (hlast : ∀ last, (m.accepted addr).head? = some last → last ≤ serial) :
    Sequenced ⟨m.collector.setHost addr { host with lastserial := serial }, m.accepted⟩ := by
  refine ⟨Arranged.writeSerial hm.arranged hd serial, hm.fresh, ?_, hm.ordered⟩
  intro n' hn' last hlast'
  obtain ⟨haddr, hhost⟩ | ⟨-, hn⟩ := mem_linked_setHost hn'
  · rw [haddr] at hlast'
    rw [hhost]
    exact hlast last hlast'
  · exact hm.behind n' hn last hlast'

theorem Sequenced.accept (hm : Sequenced m) {addr : Nat} {host : Host}
    (hd : m.collector.deref addr = .ok host)
    (hlast : ∀ last, (m.accepted addr).head? = some last → Follows serial last) :
    Sequenced ⟨m.collector.setHost addr { host with lastserial := serial },
      Function.update m.accepted addr (serial :: m.accepted addr)⟩ := by
  refine ⟨Arranged.writeSerial hm.arranged hd serial, ?_, ?_, ?_⟩
  · intro addr' haddr'
    obtain ⟨n, hn, haddr, -⟩ := deref_ok hd
    have hlt : addr < m.collector.next := haddr ▸ hm.arranged.fresh n hn
    have hne : addr' ≠ addr := (hlt.trans_le haddr').ne'
    dsimp only
    rw [Function.update_of_ne hne]
    exact hm.fresh addr' haddr'
  · intro n' hn' last hlast'
    dsimp only at hlast'
    obtain ⟨haddr, hhost⟩ | ⟨haddr, hn⟩ := mem_linked_setHost hn'
    · rw [haddr, Function.update_self] at hlast'
      cases hlast'
      rw [hhost]
      exact BitVec.le_refl _
    · rw [Function.update_of_ne haddr] at hlast'
      exact hm.behind n' hn last hlast'
  · intro addr'
    by_cases haddr : addr' = addr
    · subst haddr
      dsimp only
      rw [Function.update_self, List.isChain_cons]
      exact ⟨hlast, hm.ordered addr'⟩
    · dsimp only
      rw [Function.update_of_ne haddr]
      exact hm.ordered addr'

/-- How a serial that gets as far as the key stands to the last one that was accepted. -/
theorem Sequenced.above (hm : Sequenced m) (hp : WrapsGenuinely lib m p) {S : Session}
    {host : Host} (htype : p.bytes.take 4 = asc "o6m1")
    (hfind : sessionFind m.collector.sessions p.netid (meterHeader p.bytes).1 = some S)
    (hold : oldSerial S.lastserial (meterHeader p.bytes).2 = false)
    (hd : m.collector.deref S.host = .ok host)
    (hold' : oldSerial host.lastserial (meterHeader p.bytes).2 = false) (last : BitVec 32)
    (hlast : (m.accepted S.host).head? = some last) :
    last < (meterHeader p.bytes).2 ∨
      (opens lib p S.key = true ∧ 0xfffffff8 ≤ last ∧ (meterHeader p.bytes).2 ≤ 8) := by
  obtain habove | ⟨hend, hlow⟩ := oldSerial_eq_false.mp hold'
  · obtain ⟨n, hn, haddr, rfl⟩ := deref_ok hd
    rw [← haddr] at hlast
    have hbehind := hm.behind n hn last hlast
    left
    rw [BitVec.lt_def] at habove ⊢
    rw [BitVec.le_def] at hbehind
    omega
  · obtain habove | ⟨hopens, hend'⟩ := hp S host htype hfind hold hd hend hlow last hlast
    · exact .inl habove
    · exact .inr ⟨hopens, hend', hlow⟩

theorem Sequenced.step (hm : Sequenced m) (hp : WrapsGenuinely lib m p)
    (hstep : (metering lib).step m p m') : Sequenced m' := by
  obtain ⟨hpkt, u, c₁, hu, haccepted⟩ := hstep
  obtain ⟨hext, -⟩ := handlePacket_cases hm.arranged hpkt
  obtain ⟨c', accepted⟩ := m'
  dsimp only at hpkt hext haccepted
  unfold handlePacket at hpkt
  by_cases htype : p.bytes.take 4 = asc "o6m1"
  case neg =>
    have hkeeps : m.collector.KeepsSerials c' := by
      split at hpkt
      · exact .handleAuthPacket hm.arranged hpkt
      · cases hpkt
        exact .refl
    obtain ⟨e, he⟩ := @unwrapMeterPacket_error lib p m.collector htype
    rw [he] at hu
    cases hu
    rw [haccepted]
    exact hm.keeps hext.arranged hkeeps
  case pos =>
    rw [if_neg (by rw [htype]; decide), if_pos htype] at hpkt
    obtain ⟨rfl, e, rfl⟩ | ⟨S, host, hfind, hold, hd, hold', hkeeps, hopens⟩ :=
      handleMeterPacket_serials hm.arranged htype hu hpkt
    · rw [haccepted]
      exact hm
    have habove := hm.above hp htype hfind hold hd hold'
    obtain ⟨-, data, rfl⟩ | ⟨hno, e, rfl⟩ := hopens
    · rw [haccepted]
      refine (hm.accept hd fun last hlast => ?_).keeps hext.arranged hkeeps
      obtain h | ⟨-, h⟩ := habove last hlast
      · exact .inl h
      · exact .inr h
    · rw [haccepted]
      refine (hm.refuse hd fun last hlast => ?_).keeps hext.arranged hkeeps
      obtain h | ⟨hyes, -⟩ := habove last hlast
      · rw [BitVec.lt_def] at h
        exact BitVec.le_def.mpr h.le
      · rw [hno] at hyes
        cases hyes

/-- In every run of packets in which serials begin anew only by a packet that the key opens,
after one that was accepted at the end, the serials that are accepted for a host go up, or
begin anew at the end. -/
theorem serials_ordered (h : ((metering lib).guard (WrapsGenuinely lib)).Reachable m)
    (addr : Nat) : (m.accepted addr).IsChain Follows := by
  apply Sequenced.ordered
  apply h.induction
  · rintro m rfl
    refine ⟨Arranged.empty, fun _ _ => rfl, ?_, fun _ => List.isChain_nil⟩
    intro n hn
    cases hn
  · intro m p m' hm hstep
    exact hm.step hstep.1 hstep.2

/-! ### A packet that is accepted twice -/

/-- What is left to do for an accepted packet without meters. -/
def acceptedStep (tnow : Nat) (serial : BitVec 32) (c : Collector) : Except Fault Collector := do
  let h ← c.deref 0
  let c := c.setHost 0 { h with lastserial := serial }
  let H ← c.deref 0
  let H ← updateHost (receivedFrom [] tnow tenants12) session1 [0] H
  return c.setHost 0 H

section Genuine

variable {bytes : List UInt8} {h : Host}
  (hfind : sessionFind c.sessions 0x0100000a 7 = some session1) (hd : c.deref 0 = .ok h)
include hfind hd

theorem resolveSessionkey_session1 (hold : oldSerial session1.lastserial serial = false)
    (hold' : oldSerial h.lastserial serial = false) :
    resolveSessionkey 0x0100000a 7 serial c =
      .ok (some (plainKey 3, session1), c.setHost 0 { h with lastserial := serial }) := by
  simp only [resolveSessionkey, hfind, hold, show session1.host = 0 from rfl, hd, hold',
    Outcome.ok_bind]
  rfl

theorem genuine_accepted (hold' : oldSerial h.lastserial 5 = false)
    (hwrap : ioportWrapMeterdata tableZlib.deflate 7 5 (plainKey 3) [0] (fun _ => 0) 1010 =
      some bytes) :
    unwrapMeterPacket lib1 (receivedFrom bytes 1010 tenants12) c =
        .ok (.ok (session1, [0]), c.setHost 0 { h with lastserial := 5 }) ∧
      handlePacket lib1 (receivedFrom bytes 1010 tenants12) c = acceptedStep 1010 5 c := by
  have hge : 16 ≤ (tableZlib.deflate [0]).length := by decide +kernel
  have hinflate : tableZlib.inflate 2048 (tableZlib.deflate [0]) = some [0] :=
    tableZlib.inflate_deflate 2048 [0] (by decide)
  have hunwrap : unwrapMeterPacket lib1 (receivedFrom bytes 1010 tenants12) c =
      .ok (.ok (session1, [0]), c.setHost 0 { h with lastserial := 5 }) := by
    refine (ioportUnwrapMeterdata_wrap hwrap hge
      (resolveSessionkey_session1 hfind hd (by decide) hold')).trans ?_
    rw [show (receivedFrom bytes 1010 tenants12).tnow = 1010 from rfl, if_pos (by decide),
      show lib1.inflate = tableZlib.inflate 2048 from rfl, hinflate]
    rfl
  refine ⟨hunwrap, ?_⟩
  obtain ⟨rest, hbytes, -⟩ := ioportWrapMeterdata_eq hwrap hge 1010 []
  have htype : (receivedFrom bytes 1010 tenants12).bytes.take 4 = asc "o6m1" := by
    rw [show (receivedFrom bytes 1010 tenants12).bytes = bytes from rfl, hbytes]
    rfl
  rw [handlePacket, if_neg (by rw [htype]; decide), if_pos htype, handleMeterPacket, hunwrap,
    Outcome.ok_bind, acceptedStep, hd, Outcome.ok_bind]
  rfl

end Genuine

theorem meterHeader_eq {bytes rest : List UInt8} {sessid : BitVec 32}
    (hbytes : bytes = asc "o6m1" ++ (be32 sessid ++ (be32 serial ++ rest))) :
    meterHeader bytes = (sessid, serial) := by
  have htype := ioportRead_append (be32 sessid ++ (be32 serial ++ rest)) [] 0 0 false (asc "o6m1")
  rw [meterHeader, hbytes, Ioport.reader, show (4 : Nat) = (asc "o6m1").length from rfl, htype]
  simp only [ioportReadU32_be32]

def metered1 : Metered := ⟨state1.collector, fun _ => []⟩

theorem metered1_history : ((metering lib1).guard (WrapsGenuinely lib1)).History [packet1] metered1 := by
  have htype : packet1.bytes.take 4 = asc "o6a1" := take_ioportWrapAuthdata
  have hother : packet1.bytes.take 4 ≠ asc "o6m1" := by
    rw [htype]
    decide
  obtain ⟨e, he⟩ := @unwrapMeterPacket_error lib1 packet1 .empty hother
  refine Transition.History.step (Transition.History.init rfl) ⟨?_, ?_⟩
  · intro S h hmeter
    exact absurd hmeter hother
  · exact ⟨state1_step.1, _, _, he, rfl⟩

/-- The packet with serial 5 is handled, and then one that is made up for the last serial but
seven comes. -/
def collector5 : Collector := settled (acceptedStep 1010 5 state1.collector)

def host5 : Host := (collector5.deref 0).toOption.getD (hostAlloc ⟨0, 3⟩)

def forgedEnd : Received := receivedFrom (forgedBytes 7 0xfffffff8) 1011 tenants12

def collectorEnd : Collector := collector5.setHost 0 { host5 with lastserial := 0xfffffff8 }

theorem collector5_deref : collector5.deref 0 = .ok host5 := by
  have hok : (collector5.deref 0).isOk := by decide
  unfold host5
  cases hd : collector5.deref 0 with
  | ok h => rfl
  | error e =>
    rw [hd] at hok
    cases hok

theorem find_collector5 : sessionFind collector5.sessions 0x0100000a 7 = some session1 := by
  decide

theorem acceptedStep_settled :
    acceptedStep 1010 5 state1.collector = .ok collector5 ∧
      acceptedStep 1010 5 collectorEnd = .ok (settled (acceptedStep 1010 5 collectorEnd)) :=
  ⟨eq_settled (by decide), eq_settled (by decide)⟩

theorem forgedEnd_handled :
    unwrapMeterPacket lib1 forgedEnd collector5 = .ok (.error .decryptError, collectorEnd) ∧
      handlePacket lib1 forgedEnd collector5 = .ok collectorEnd := by
  have hserial : oldSerial host5.lastserial 0xfffffff8 = false := by decide
  have hunwrap := @unwrapMeterPacket_undecrypted lib1 forgedEnd _ _ _ _ _ rfl _ _ _
    (resolveSessionkey_session1 find_collector5 collector5_deref (by decide) hserial)
    (show ioportDecrypt (plainKey 3) _ [] 1011 0xfffffff8 = .ok (false, []) by decide +kernel)
  refine ⟨hunwrap, ?_⟩
  have htype : forgedEnd.bytes.take 4 = asc "o6m1" := rfl
  rw [handlePacket, if_neg (by rw [htype]; decide), if_pos htype, handleMeterPacket, hunwrap,
    Outcome.ok_bind]
  rfl

/-- The bytes of a packet with serial 5 from the host, and their reception. -/
theorem genuine_history : ∃ bytes,
    ioportWrapMeterdata tableZlib.deflate 7 5 (plainKey 3) [0] (fun _ => 0) 1010 = some bytes ∧
    ((metering lib1).guard (WrapsGenuinely lib1)).History
      [packet1, receivedFrom bytes 1010 tenants12]
      ⟨collector5, Function.update (fun _ => []) 0 [5]⟩ := by
  obtain ⟨bytes, hwrap⟩ := @exists_ioportWrapMeterdata tableZlib.deflate 7 5 (plainKey 3) [0]
    (fun _ => 0) 1010 (by decide) (by decide +kernel)
  obtain ⟨rest, hbytes, -⟩ := ioportWrapMeterdata_eq hwrap (by decide +kernel) 1010 []
  obtain ⟨h, hd, hserial⟩ := deref_session1
  obtain ⟨hunwrap, hhandle⟩ := genuine_accepted find_session1 hd (by rw [hserial]; decide) hwrap
  refine ⟨bytes, hwrap, metered1_history.step ⟨?_, hhandle.trans acceptedStep_settled.1, ?_⟩⟩
  · intro S host _ _ _ _ _ _ last hlast
    cases hlast
  · refine ⟨_, _, hunwrap, ?_⟩
    rw [show (receivedFrom bytes 1010 tenants12).bytes = bytes from rfl, meterHeader_eq hbytes]
    rfl

theorem serials_ordered_five :
    (Function.update (fun _ => []) 0 [(5 : BitVec 32)] 0).IsChain Follows := by
  obtain ⟨bytes, -, hrun⟩ := genuine_history
  exact serials_ordered hrun.reachable 0

/-- A packet that is made up takes the host to the end of the serials, and one that was
accepted is accepted once more. -/
theorem packet_accepted_twice : ∃ bytes m,
    (metering lib1).History [packet1, receivedFrom bytes 1010 tenants12, forgedEnd,
      receivedFrom bytes 1010 tenants12] m ∧
    m.accepted 0 = [5, 5] ∧ ¬ (m.accepted 0).IsChain Follows := by
  obtain ⟨bytes, hwrap, hrun⟩ := genuine_history
  obtain ⟨rest, hbytes, -⟩ := ioportWrapMeterdata_eq hwrap (by decide +kernel) 1010 []
  have hend := hrun.of_guard.step (l := forgedEnd)
    (t := ⟨collectorEnd, Function.update (fun _ => []) 0 [5]⟩)
    ⟨forgedEnd_handled.2, _, _, forgedEnd_handled.1, rfl⟩
  have hd := deref_setHost collector5_deref { host5 with lastserial := 0xfffffff8 }
  obtain ⟨hunwrap, hhandle⟩ := genuine_accepted (c := collectorEnd) find_collector5 hd (by decide)
    hwrap
  have hagain := hend.step (l := receivedFrom bytes 1010 tenants12)
    (t := ⟨settled (acceptedStep 1010 5 collectorEnd), Function.update (fun _ => []) 0 [5, 5]⟩)
    ⟨hhandle.trans acceptedStep_settled.2, _, _, hunwrap, by
      rw [show (receivedFrom bytes 1010 tenants12).bytes = bytes from rfl, meterHeader_eq hbytes]
      exact (@Function.update_idem Nat _ (fun _ => List (BitVec 32)) 0 [5] [5, 5] _).symm⟩
  exact ⟨bytes, _, hagain, rfl, by decide⟩

end Opticon
