import Opticon.Collector.Packets
import Opticon.Collector.TenantLaws
import Opticon.Wire.Frame

/-! What the handling of a packet can do to the collector. -/

namespace Opticon

section Unwrap

variable {σ β : Type} {inflate : List UInt8 → Option (List UInt8)} {bytes : List UInt8}
  {mem : Leftover} {tnow : Nat} {s s' : σ}

/-- Unwrapping changes the state through the lookup of the key only, and a session comes from
a lookup that succeeded. -/
theorem unwrapMeterdata_cases {networkid : BitVec 32}
    {resolve : BitVec 32 → BitVec 32 → BitVec 32 → σ → Except Fault (Option (AesKey × β) × σ)}
    {u : Except UnwrapError (β × List UInt8)}
    (h : ioportUnwrapMeterdata inflate networkid bytes mem tnow resolve s = .ok (u, s')) :
    (s' = s ∧ (u = .error .readError ∨ u = .error .typeError)) ∨
    ∃ sessid serial r, resolve networkid sessid serial s = .ok (r, s') ∧
      ((r = none ∧ u = .error .keyresolveError) ∨
        ∃ k S, r = some (k, S) ∧
          (u = .error .decryptError ∨ u = .error .decompressError ∨ ∃ data, u = .ok (S, data))) := by
  unfold ioportUnwrapMeterdata at h
  simp only at h
  split at h
  · cases h
    exact .inl ⟨rfl, .inl rfl⟩
  split at h
  · cases h
    exact .inl ⟨rfl, .inr rfl⟩
  obtain ⟨⟨r, s₁⟩, hres, h⟩ := Outcome.bind_ok_iff.mp h
  cases r with
  | none =>
    cases h
    exact .inr ⟨_, _, none, hres, .inl ⟨rfl, rfl⟩⟩
  | some r =>
    obtain ⟨k, S⟩ := r
    obtain ⟨⟨ok, decrypted⟩, -, h⟩ := Outcome.bind_ok_iff.mp h
    simp only at h
    split at h
    · cases h
      exact .inr ⟨_, _, _, hres, .inr ⟨k, S, rfl, .inl rfl⟩⟩
    · split at h
      · cases h
        exact .inr ⟨_, _, _, hres, .inr ⟨k, S, rfl, .inr (.inl rfl)⟩⟩
      · cases h
        exact .inr ⟨_, _, _, hres, .inr ⟨k, S, rfl, .inr (.inr ⟨_, rfl⟩)⟩⟩

theorem unwrapAuthdata_cases {resolve : Uuid → BitVec 32 → σ → Option AesKey × σ}
    {auth : Option Authinfo}
    (h : ioportUnwrapAuthdata bytes mem tnow resolve s = .ok (auth, s')) :
    s' = s ∨ ∃ tenantid serial, s' = (resolve tenantid serial s).2 := by
  unfold ioportUnwrapAuthdata at h
  simp only at h
  split at h
  · cases h
    exact .inl rfl
  split at h
  · cases h
    exact .inl rfl
  split at h
  · rename_i hres
    cases h
    exact .inr ⟨_, _, (congrArg Prod.snd hres).symm⟩
  · rename_i k s₁ hres
    obtain ⟨⟨ok, decrypted⟩, -, h⟩ := Outcome.bind_ok_iff.mp h
    simp only at h
    have hs : s' = s₁ := by
      split at h
      · cases h; rfl
      · split at h <;> cases h <;> rfl
    exact .inr ⟨_, _, hs.trans (congrArg Prod.snd hres).symm⟩

end Unwrap

namespace Collector

variable {c c' : Collector} {lib : Library} {p : Received}

/-- The later collector is arranged too, and links all that the earlier one does. -/
structure Extends (c c' : Collector) : Prop where
  arranged : c'.Arranged
  links : ∀ addr T H, c.Links addr T H → c'.Links addr T H

theorem Extends.refl (hc : c.Arranged) : c.Extends c := ⟨hc, fun _ _ _ h => h⟩

theorem Extends.trans {c'' : Collector} (h : c.Extends c') (h' : c'.Extends c'') :
    c.Extends c'' :=
  ⟨h'.arranged, fun addr T H hl => h'.links addr T H (h.links addr T H hl)⟩

theorem Extends.of_linked (hc : c.Arranged) (hl : c'.linked = c.linked) (hn : c'.next = c.next)
    (ht : c'.tenants.Pairwise fun t t' => t.uuid ≠ t'.uuid) : c.Extends c' := by
  refine ⟨⟨ht, ?_, ?_, ?_⟩, fun addr T H h => ?_⟩
  · rw [hl, hn]
    exact hc.fresh
  · rw [hl]
    exact hc.addrs
  · rw [hl]
    exact hc.hostids
  · rw [links_iff, hl]
    exact links_iff.mp h

theorem Arranged.extends_setHost (hc : c.Arranged) {addr : Nat} {h h' : Host}
    (hd : c.deref addr = .ok h) (hu : h'.uuid = h.uuid) : c.Extends (c.setHost addr h') := by
  have hid : ∀ n ∈ c.linked, n.2.addr = addr → n.2.host.uuid = h'.uuid := by
    intro n hn haddr
    rw [hu, hc.links_deref ⟨n, hn, rfl, haddr, rfl⟩ hd]
  exact ⟨hc.setHost hid, fun _ _ _ hl => (links_setHost hid).mpr hl⟩

theorem Extends.sessions (h : c.Extends c') (db : Sessiondb) :
    c.Extends { c' with sessions := db } :=
  ⟨⟨h.arranged.tenantids, h.arranged.fresh, h.arranged.addrs, h.arranged.hostids⟩, h.links⟩

theorem resolveTenantkey_spec (hc : c.Arranged) (db : Database) (T : Uuid) (serial : BitVec 32) :
    c.Extends (resolveTenantkey db T serial c).2 ∧
      (resolveTenantkey db T serial c).2.sessions = c.sessions := by
  obtain ⟨hc', hsess, hlinked, -, -⟩ := tenantFind_spec hc T
  have hext : c.Extends (tenantFind c T).2 := by
    refine ⟨hc', fun addr U H h => ?_⟩
    rw [links_iff, hlinked]
    exact links_iff.mp h
  unfold resolveTenantkey
  split
  · exact ⟨.refl hc, rfl⟩
  · simp only
    split
    · exact ⟨hext, hsess⟩
    · refine ⟨hext.trans (.of_linked hc' ?_ rfl ?_), hsess⟩
      · exact linked_modifyTenant (fun _ => rfl) (fun _ => rfl)
      · exact tenantids_modifyTenant (fun _ => rfl) hc'.tenantids

theorem linked_resolveTenantkey (hc : c.Arranged) {db : Database} {T : Uuid} {serial : BitVec 32} :
    (resolveTenantkey db T serial c).2.linked = c.linked := by
  obtain ⟨-, -, hlinked, -, -⟩ := tenantFind_spec hc T
  unfold resolveTenantkey
  split
  · rfl
  · dsimp only
    split
    · exact hlinked
    · refine Eq.trans ?_ hlinked
      exact linked_modifyTenant (fun _ => rfl) (fun _ => rfl)

/-- What the lookup of a session key can do: nothing, or write the serial to the host of the
session it finds. -/
theorem resolveSessionkey_cases {netid sid serial : BitVec 32} {r : Option (AesKey × Session)}
    (h : resolveSessionkey netid sid serial c = .ok (r, c')) :
    (r = none ∧ c' = c) ∨
    ∃ S h, sessionFind c.sessions netid sid = some S ∧ oldSerial S.lastserial serial = false ∧
      c.deref S.host = .ok h ∧ oldSerial h.lastserial serial = false ∧ r = some (S.key, S) ∧
      c' = c.setHost S.host { h with lastserial := serial } := by
  unfold resolveSessionkey at h
  split at h
  · cases h
    exact .inl ⟨rfl, rfl⟩
  · rename_i S hfind
    split at h
    · cases h
      exact .inl ⟨rfl, rfl⟩
    · rename_i hold
      obtain ⟨H, hd, h⟩ := Outcome.bind_ok_iff.mp h
      split at h
      · cases h
        exact .inl ⟨rfl, rfl⟩
      · rename_i hold'
        cases h
        exact .inr ⟨S, H, hfind, by simpa using hold, hd, by simpa using hold', rfl, rfl⟩

theorem setStringMeter_head {h h' : Host} {id : MeterId} {text : List UInt8}
    (hs : setStringMeter h id text = .ok h') : h'.head = h.head := by
  simp only [setStringMeter, Outcome.bind_ok_iff] at hs
  obtain ⟨h₁, hu₁, hu₂⟩ := hs
  exact (updateMeter_head hu₂).trans ((updateMeter_head hu₁).trans (hostGetMeter_head _ _))

theorem authDone_cases {tnow : Nat} {S : Session} (h : authDone lib tnow S c = .ok c') :
    ∃ host host', c.deref S.host = .ok host ∧ host'.uuid = host.uuid ∧
      c' = { c.setHost S.host host' with sessions := sessionExpire c.sessions (tnow - 905) } := by
  obtain ⟨host, hd, h⟩ := Outcome.bind_ok_iff.mp h
  obtain ⟨host', hs, h⟩ := Outcome.bind_ok_iff.mp h
  cases h
  have hu : host'.uuid = host.uuid := congrArg (fun h => h.uuid) (setStringMeter_head hs)
  exact ⟨host, host', hd, hu, rfl⟩

theorem hostEndUpdate_head {h h' : Host} (he : hostEndUpdate h = .ok h') : h'.head = h.head := by
  obtain ⟨status, -, he⟩ := Outcome.bind_ok_iff.mp he
  split at he <;> cases he <;> rfl

theorem localdbGetCurrent_head {current : Option (List UInt8)} {into h : Host} {ok : Bool}
    {strbuf : List UInt8} (hg : localdbGetCurrent current into strbuf = .ok (ok, h)) :
    h.head = into.head := by
  unfold localdbGetCurrent at hg
  split at hg
  · cases hg
    rfl
  · simp only at hg
    split at hg
    · cases hg
      rfl
    · obtain ⟨⟨ok', s⟩, hd, hg⟩ := Outcome.bind_ok_iff.mp hg
      cases hg
      exact pktcodecDecodeHost_head hd

theorem repopulate_head {S : Session} {H H' : Host} (hr : repopulate p S H = .ok H') :
    H'.head = H.head := by
  unfold repopulate at hr
  split at hr
  · obtain ⟨⟨ok, H₁⟩, hcur, hr⟩ := Outcome.bind_ok_iff.mp hr
    cases hr
    exact localdbGetCurrent_head hcur
  · cases hr
    rfl

theorem updateHost_head {S : Session} {data : List UInt8} {H H' : Host}
    (hu : updateHost p S data H = .ok H') : H'.head = (hostBeginUpdate p H).head := by
  obtain ⟨H₁, hr, hu⟩ := Outcome.bind_ok_iff.mp hu
  obtain ⟨⟨ok, s⟩, hdec, hend⟩ := Outcome.bind_ok_iff.mp hu
  calc H'.head = (hostGetMeter (hostGetMeter s.host _).1 _).1.head := hostEndUpdate_head hend
    _ = s.host.head := by rw [hostGetMeter_head, hostGetMeter_head]
    _ = H₁.head := pktcodecDecodeHost_head hdec
    _ = (hostBeginUpdate p H).head := repopulate_head hr

theorem updateHost_uuid {S : Session} {data : List UInt8} {H H' : Host}
    (hu : updateHost p S data H = .ok H') : H'.uuid = H.uuid :=
  congrArg (fun h => h.uuid) (updateHost_head hu)

/-- What unwrapping a meter packet can do: nothing, or write a serial to the host of the
session it finds, which is the session of the data if the packet is accepted. -/
theorem unwrapMeterPacket_cases {u : Except UnwrapError (Session × List UInt8)}
    (h : unwrapMeterPacket lib p c = .ok (u, c')) :
    ((∃ e, u = .error e) ∧ c' = c) ∨
    ∃ S host serial, sessionFind c.sessions p.netid S.sessid = some S ∧
      c.deref S.host = .ok host ∧ oldSerial host.lastserial serial = false ∧
      c' = c.setHost S.host { host with lastserial := serial } ∧
      ((u = .error .decryptError ∨ u = .error .decompressError) ∨ ∃ data, u = .ok (S, data)) := by
  obtain ⟨rfl, hu⟩ | ⟨sessid, serial, r, hres, hu⟩ := unwrapMeterdata_cases h
  · obtain rfl | rfl := hu
    · exact .inl ⟨⟨_, rfl⟩, rfl⟩
    · exact .inl ⟨⟨_, rfl⟩, rfl⟩
  · obtain ⟨rfl, rfl⟩ | ⟨S, host, hfind, -, hd, hold, rfl, rfl⟩ := resolveSessionkey_cases hres
    · obtain ⟨-, rfl⟩ | ⟨k, S, hr, -⟩ := hu
      · exact .inl ⟨⟨_, rfl⟩, rfl⟩
      · cases hr
    · obtain ⟨hr, -⟩ | ⟨k, S', hr, hu⟩ := hu
      · cases hr
      · cases hr
        obtain ⟨-, rfl, -⟩ := Sessiondb.find_matches hfind
        refine .inr ⟨S, host, serial, hfind, hd, hold, rfl, ?_⟩
        obtain hu | hu | hu := hu
        · exact .inl (.inl hu)
        · exact .inl (.inr hu)
        · exact .inr hu

theorem unwrapMeterPacket_spec {u : Except UnwrapError (Session × List UInt8)} (hc : c.Arranged)
    (h : unwrapMeterPacket lib p c = .ok (u, c')) :
    c.Extends c' ∧ c'.sessions = c.sessions := by
  obtain ⟨-, rfl⟩ | ⟨S, host, serial, -, hd, -, rfl, -⟩ := unwrapMeterPacket_cases h
  · exact ⟨.refl hc, rfl⟩
  · exact ⟨hc.extends_setHost hd rfl, rfl⟩

/-- What a meter packet can do: change hosts, but neither the sessions nor what is linked. -/
theorem handleMeterPacket_spec (hc : c.Arranged) (h : handleMeterPacket lib p c = .ok c') :
    c.Extends c' ∧ c'.sessions = c.sessions := by
  obtain ⟨⟨u, c₁⟩, hunwrap, h⟩ := Outcome.bind_ok_iff.mp h
  obtain ⟨hext, hsess⟩ := unwrapMeterPacket_spec hc hunwrap
  cases u with
  | error e =>
    cases h
    exact ⟨hext, hsess⟩
  | ok r =>
    obtain ⟨H, hd, h⟩ := Outcome.bind_ok_iff.mp h
    obtain ⟨H', hu, h⟩ := Outcome.bind_ok_iff.mp h
    cases h
    exact ⟨hext.trans (hext.arranged.extends_setHost hd (updateHost_uuid hu)), hsess⟩

/-- How a session is renewed by an auth packet. -/
def renewed (p : Received) (auth : Authinfo) (S : Session) : Session :=
  { S with key := auth.sessionkey, lastcycle := p.tnow, lastserial := auth.serial }

/-- The session that is registered for an auth packet, with its host at address `h`. -/
def registered (p : Received) (auth : Authinfo) (h : Nat) : Session where
  tenantid := auth.tenantid
  hostid := auth.hostid
  addr := p.netid
  sessid := auth.sessionid
  lastserial := 0
  key := auth.sessionkey
  lastcycle := p.tnow
  remote := p.remote
  host := h
  expired := false

theorem renewed_keeps (p : Received) (auth : Authinfo) : Sessiondb.Keeps (renewed p auth) :=
  fun _ => ⟨rfl, rfl, rfl⟩

/-- The packet is not refused as one for an invalid host or as a replay. -/
def accepts (p : Received) (auth : Authinfo) (db : Sessiondb) : Bool :=
  uuidvalid auth.hostid &&
    (sessionFind db p.netid auth.sessionid).all (·.lastserial < auth.serial)

/-- What becomes of an auth packet that was decoded: it is refused and changes nothing, or it
renews the session that is found, or it registers a new one. -/
theorem authSession_cases {auth : Authinfo} (hc : c.Arranged)
    (h : authSession lib p auth c = .ok c') :
    (accepts p auth c.sessions = false ∧ c' = c) ∨
    (accepts p auth c.sessions = true ∧ c.Extends c' ∧
      ((∃ S, sessionFind c.sessions p.netid auth.sessionid = some S ∧ S.lastserial < auth.serial ∧
          c'.sessions = sessionExpire (c.sessions.modify p.netid auth.sessionid (renewed p auth))
            (p.tnow - 905)) ∨
        (sessionFind c.sessions p.netid auth.sessionid = none ∧
          ∃ addr, c'.Links addr auth.tenantid auth.hostid ∧
            c'.sessions = sessionExpire (sessionLink c.sessions (registered p auth addr))
              (p.tnow - 905)))) := by
  unfold authSession at h
  split at h
  · rename_i hvalid
    cases h
    exact .inl ⟨by simp [accepts, hvalid], rfl⟩
  rename_i hvalid
  have hvalid : uuidvalid auth.hostid = true := by simpa using hvalid
  split at h
  · rename_i S hfind
    split at h
    · rename_i hserial
      obtain ⟨host, host', hd, hu, rfl⟩ := authDone_cases h
      refine .inr ⟨by simp [accepts, hvalid, hfind, hserial], ?_, .inl ⟨S, hfind, hserial, rfl⟩⟩
      · have hc' := (Extends.refl hc).sessions
          (c.sessions.modify p.netid auth.sessionid (renewed p auth))
        exact (hc'.trans (hc'.arranged.extends_setHost hd hu)).sessions _
    · rename_i hserial
      cases h
      exact .inl ⟨by simp [accepts, hvalid, hfind, hserial], rfl⟩
  · rename_i hfind
    obtain ⟨hc₁, hsess, hlinks, hkeep⟩ := hostFind_spec hc auth.tenantid auth.hostid
    generalize hr : hostFind c auth.tenantid auth.hostid = r at hc₁ hsess hlinks hkeep
    obtain ⟨addr, c₁⟩ := r
    simp only at hc₁ hsess hlinks hkeep
    have hreg : sessionRegister c auth.tenantid auth.hostid p.netid auth.sessionid auth.sessionkey
        p.remote p.tnow = (registered p auth addr,
          { c₁ with sessions := sessionLink c₁.sessions (registered p auth addr) }) := by
      simp only [sessionRegister, hr, hsess, hfind]
      rfl
    rw [hreg] at h
    obtain ⟨host, host', hd, hu, rfl⟩ := authDone_cases h
    have hext : c.Extends c₁ := ⟨hc₁, hkeep⟩
    have hc₂ := (Extends.refl hc₁).sessions (sessionLink c₁.sessions (registered p auth addr))
    have hset := hc₂.arranged.extends_setHost hd hu
    refine .inr ⟨by simp [accepts, hvalid, hfind], (hext.trans (hc₂.trans hset)).sessions _,
      .inr ⟨hfind, addr, ?_, ?_⟩⟩
    · exact (hc₂.trans hset).links addr _ _ hlinks
    · simp only [hsess]

/-- What unwrapping an auth packet can do to the collector: a tenant may be created and get its
key from the database. -/
theorem unwrapAuthdata_spec (hc : c.Arranged) {auth : Option Authinfo}
    (h : ioportUnwrapAuthdata p.bytes p.mem p.tnow (resolveTenantkey p.db) c = .ok (auth, c')) :
    c.Extends c' ∧ c'.sessions = c.sessions := by
  obtain rfl | ⟨T, serial, rfl⟩ := unwrapAuthdata_cases h
  · exact ⟨.refl hc, rfl⟩
  · exact resolveTenantkey_spec hc p.db T serial

end Collector

end Opticon
