import Opticon.Collector.Isolation

/-! What is left behind by a meter packet that is not accepted. -/

namespace Opticon

open Collector

/-- Session id and serial in front of the encrypted part of a meter packet. -/
def meterHeader (bytes : List UInt8) : BitVec 32 × BitVec 32 :=
  let (_, _, io) := ioportRead (.reader bytes) 4
  let (sessid, io) := ioportReadU32 io
  (sessid, (ioportReadU32 io).1)

/-- A packet gets as far as the key: its session is found, and its serial is an old one neither
for the session nor for the host. -/
def ReachesKey (p : Received) (c : Collector) : Prop :=
  p.bytes.take 4 = asc "o6m1" ∧ ∃ S h,
    sessionFind c.sessions p.netid (meterHeader p.bytes).1 = some S ∧
      oldSerial S.lastserial (meterHeader p.bytes).2 = false ∧
      c.deref S.host = .ok h ∧ oldSerial h.lastserial (meterHeader p.bytes).2 = false

variable {lib : Library} {p : Received} {c c' : Collector}

theorem oldSerial_self (serial : BitVec 32) : oldSerial serial serial = true := by
  simp only [oldSerial, Bool.and_eq_true, decide_eq_true_eq, Bool.or_eq_true, BitVec.le_def,
    BitVec.lt_def]
  refine ⟨le_refl _, ?_⟩
  rw [show (0xfffffff8 : BitVec 32).toNat = 0xfffffff8 from rfl, show (8 : BitVec 32).toNat = 8 from rfl]
  omega

/-- The type of a packet that is long enough, and of one that is not. -/
theorem ioportRead_type (bytes : List UInt8) :
    (4 ≤ bytes.length ∧ ioportRead (.reader bytes) 4 = (true, bytes.take 4, .reader (bytes.drop 4))) ∨
      (bytes.length < 4 ∧ (ioportRead (.reader bytes) 4).1 = false) := by
  by_cases hlen : 4 ≤ bytes.length
  · left
    simp [ioportRead, Ioport.reader, hlen]
  · right
    simp [ioportRead, Ioport.reader, hlen]
    omega

section Resolve

variable {u : Except UnwrapError (Session × List UInt8)}
  (h : unwrapMeterPacket lib p c = .ok (u, c'))
include h

/-- A packet of another type, or one that is too short to have a type, changes nothing. -/
theorem unwrapMeterPacket_other (htype : p.bytes.take 4 ≠ asc "o6m1") : c' = c := by
  unfold unwrapMeterPacket ioportUnwrapMeterdata at h
  obtain ⟨-, hread⟩ | ⟨-, hread⟩ := ioportRead_type p.bytes
  · simp only [hread, not_true_eq_false, if_false, if_pos htype] at h
    exact (Prod.mk.inj (Except.ok.inj h)).2.symm
  · simp only [hread, Bool.false_eq_true, not_false_eq_true, if_true] at h
    exact (Prod.mk.inj (Except.ok.inj h)).2.symm

theorem unwrapMeterPacket_resolves (htype : p.bytes.take 4 = asc "o6m1") :
    ∃ r, resolveSessionkey p.netid (meterHeader p.bytes).1 (meterHeader p.bytes).2 c =
      .ok (r, c') := by
  obtain ⟨-, hread⟩ | ⟨hlen, -⟩ := ioportRead_type p.bytes
  · unfold unwrapMeterPacket ioportUnwrapMeterdata at h
    simp only [hread, htype, not_true_eq_false, if_false, ne_eq] at h
    obtain ⟨⟨r, c₁⟩, hres, h⟩ := Outcome.bind_ok_iff.mp h
    have hr : c₁ = c' := by
      cases r with
      | none => exact (Prod.mk.inj (Except.ok.inj h)).2
      | some r =>
        obtain ⟨⟨ok, decrypted⟩, -, h⟩ := Outcome.bind_ok_iff.mp h
        split at h
        · exact (Prod.mk.inj (Except.ok.inj h)).2
        · split at h
          · exact (Prod.mk.inj (Except.ok.inj h)).2
          · exact (Prod.mk.inj (Except.ok.inj h)).2
    subst hr
    refine ⟨r, ?_⟩
    simp only [meterHeader, hread]
    exact hres
  · have hshort := congrArg List.length htype
    rw [List.length_take] at hshort
    exact absurd hshort (by rw [show (asc "o6m1").length = 4 from rfl]; omega)

/-- A packet changes nothing if and only if it does not get to the key. -/
theorem unwrapMeterPacket_unchanged_iff : c' = c ↔ ¬ ReachesKey p c := by
  by_cases htype : p.bytes.take 4 = asc "o6m1"
  case neg =>
    simp only [unwrapMeterPacket_other h htype, ReachesKey, htype, false_and, not_false_eq_true]
  case pos =>
    obtain ⟨r, hres⟩ := unwrapMeterPacket_resolves h htype
    obtain ⟨hr, hc'⟩ | ⟨S, host, hfind, hold, hd, hold', -, rfl⟩ := resolveSessionkey_cases hres
    · simp only [hc', true_iff]
      rintro ⟨-, S, host, hfind, hold, hd, hold'⟩
      simp only [resolveSessionkey, hfind, hold, hd, hold', Outcome.ok_bind] at hres
      subst hr
      cases hres
    · constructor
      · intro heq
        have hwritten := deref_setHost hd { host with lastserial := (meterHeader p.bytes).2 }
        rw [heq, hd] at hwritten
        have hserial := congrArg Host.lastserial (Except.ok.inj hwritten)
        rw [hserial, oldSerial_self] at hold'
        cases hold'
      · intro hno
        exact absurd ⟨htype, S, host, hfind, hold, hd, hold'⟩ hno

end Resolve

/-- Handle packets one after the other. -/
def handlePackets (lib : Library) (ps : List Received) (c : Collector) : Except Fault Collector :=
  ps.foldlM (fun c p => handlePacket lib p c) c

/-- In whatever state a collector is, a meter packet that is not accepted leaves the sessions
and the hosts as they were if and only if it does not get as far as the session key; then
what comes after it is handled as if it had not been there. -/
theorem rejected_unchanged_iff {e : UnwrapError} (htype : p.bytes.take 4 = asc "o6m1")
    (h : unwrapMeterPacket lib p c = .ok (.error e, c')) :
    (c' = c ↔ ¬ ReachesKey p c) ∧
      (¬ ReachesKey p c → ∀ ps, handlePackets lib (p :: ps) c = handlePackets lib ps c) := by
  have hiff := unwrapMeterPacket_unchanged_iff h
  refine ⟨hiff, fun hno ps => ?_⟩
  have hpacket : handlePacket lib p c = .ok c := by
    rw [handlePacket, if_neg (by rw [htype]; decide), if_pos htype, handleMeterPacket, h,
      Outcome.ok_bind, hiff.mpr hno]
    rfl
  rw [handlePackets, List.foldlM_cons, hpacket, Outcome.ok_bind]
  rfl

section Header

variable {sessid serial : BitVec 32} {rest : List UInt8}
  (hp : p.bytes = asc "o6m1" ++ (be32 sessid ++ (be32 serial ++ rest)))
include hp

theorem unwrapMeterPacket_refused
    (hres : resolveSessionkey p.netid sessid serial c = .ok (none, c')) :
    unwrapMeterPacket lib p c = .ok (.error .keyresolveError, c') := by
  have htype := ioportRead_append (be32 sessid ++ (be32 serial ++ rest)) [] 0 0 false (asc "o6m1")
  rw [unwrapMeterPacket, ioportUnwrapMeterdata, hp, Ioport.reader,
    show (4 : Nat) = (asc "o6m1").length from rfl, htype]
  simp only [not_true_eq_false, if_false, ne_eq, ioportReadU32_be32, hres, Outcome.ok_bind,
    Outcome.pure_ok]

theorem unwrapMeterPacket_undecrypted {k : AesKey} {S : Session} {out : List UInt8}
    (hres : resolveSessionkey p.netid sessid serial c = .ok (some (k, S), c'))
    (hdec : ioportDecrypt k (.reader rest) p.mem.block p.tnow serial = .ok (false, out)) :
    unwrapMeterPacket lib p c = .ok (.error .decryptError, c') := by
  have htype := ioportRead_append (be32 sessid ++ (be32 serial ++ rest)) [] 0 0 false (asc "o6m1")
  rw [Ioport.reader] at hdec
  rw [unwrapMeterPacket, ioportUnwrapMeterdata, hp, Ioport.reader,
    show (4 : Nat) = (asc "o6m1").length from rfl, htype]
  simp only [not_true_eq_false, if_false, ne_eq, ioportReadU32_be32, hres, Outcome.ok_bind, hdec,
    Bool.false_eq_true, not_false_eq_true, if_true, Outcome.pure_ok]

end Header

/-! ### A forged packet -/

/-- The session of the first tenant's host. -/
def session1 : Session where
  tenantid := ⟨0, 1⟩
  hostid := ⟨0, 3⟩
  addr := 0x0100000a
  sessid := 7
  lastserial := 0
  key := plainKey 3
  lastcycle := 1000
  remote := .inet 0x0100000a
  host := 0
  expired := false

theorem find_session1 : sessionFind state1.collector.sessions 0x0100000a 7 = some session1 := by
  decide

theorem deref_session1 : ∃ h, state1.collector.deref 0 = .ok h ∧ h.lastserial = 0 := by
  have hmap : ((state1.collector.deref 0).map fun h => h.lastserial) = .ok 0 := by decide
  cases hd : state1.collector.deref 0 with
  | error e =>
    rw [hd] at hmap
    cases hmap
  | ok h =>
    rw [hd] at hmap
    exact ⟨h, rfl, Except.ok.inj hmap⟩

/-- The bytes of a meter packet, but for the block that is made up. -/
def forgedBytes (sessid serial : BitVec 32) : List UInt8 :=
  asc "o6m1" ++ (be32 sessid ++ (be32 serial ++ 16 :: List.replicate 16 0))

/-- A packet for a session that does not exist. -/
def stray : Received := receivedFrom (forgedBytes 8 200) 1001 tenants12

/-- One for the session of the first tenant's host, by someone who does not have its key. -/
def forged : Received := receivedFrom (forgedBytes 7 200) 1001 tenants12

theorem rejected_unchanged_stray :
    unwrapMeterPacket lib1 stray state1.collector = .ok (.error .keyresolveError, state1.collector) ∧
      ¬ ReachesKey stray state1.collector := by
  have hnone : sessionFind state1.collector.sessions 0x0100000a 8 = none := by decide
  have hres : resolveSessionkey stray.netid 8 200 state1.collector =
      .ok (none, state1.collector) := by
    rw [resolveSessionkey, show stray.netid = 0x0100000a from rfl, hnone]
  have hunwrap := @unwrapMeterPacket_refused lib1 stray _ _ _ _ _ rfl hres
  exact ⟨hunwrap, (rejected_unchanged_iff rfl hunwrap).1.mp rfl⟩

/-- The forged packet is refused, but it leaves its serial with the host, and a packet that the
host then sends is refused for it. -/
theorem forged_serial_stays : ∃ c' bytes,
    (reception lib1).History [packet1] state1 ∧
    unwrapMeterPacket lib1 forged state1.collector = .ok (.error .decryptError, c') ∧
    c' ≠ state1.collector ∧
    ioportWrapMeterdata tableZlib.deflate 7 150 (plainKey 3) [0] (fun _ => 0) 1010 = some bytes ∧
    (∃ c'', unwrapMeterPacket lib1 (receivedFrom bytes 1010 tenants12) state1.collector =
      .ok (.ok (session1, [0]), c'')) ∧
    unwrapMeterPacket lib1 (receivedFrom bytes 1010 tenants12) c' =
      .ok (.error .keyresolveError, c') := by
  obtain ⟨h, hd, hserial⟩ := deref_session1
  have hres (serial : BitVec 32) (hold : oldSerial 0 serial = false) :
      resolveSessionkey 0x0100000a 7 serial state1.collector =
        .ok (some (plainKey 3, session1), state1.collector.setHost 0 { h with lastserial := serial }) := by
    have hfresh : oldSerial session1.lastserial serial = false := hold
    have hderef : state1.collector.deref session1.host = .ok h := hd
    rw [← hserial] at hold
    simp only [resolveSessionkey, find_session1, hfresh, hderef, hold, Outcome.ok_bind]
    rfl
  have hforged := @unwrapMeterPacket_undecrypted lib1 forged _ _ _ _ _ rfl _ _ _
    (hres 200 (by decide)) (show ioportDecrypt (plainKey 3) _ [] 1001 200 = .ok (false, []) by decide +kernel)
  obtain ⟨bytes, hwrap⟩ := @exists_ioportWrapMeterdata tableZlib.deflate 7 150 (plainKey 3) [0]
    (fun _ => 0) 1010 (by decide) (by decide +kernel)
  have hge : 16 ≤ (tableZlib.deflate [0]).length := by decide +kernel
  obtain ⟨rest, hbytes, -⟩ := ioportWrapMeterdata_eq hwrap hge 1010 []
  refine ⟨_, bytes, state1_history.of_guard, hforged, ?_, hwrap, ?_, ?_⟩
  · intro heq
    have hwritten := deref_setHost hd { h with lastserial := 200 }
    rw [heq, hd] at hwritten
    have := congrArg Host.lastserial (Except.ok.inj hwritten)
    rw [hserial] at this
    cases this
  · have hinflate : tableZlib.inflate 2048 (tableZlib.deflate [0]) = some [0] :=
      tableZlib.inflate_deflate 2048 [0] (by decide)
    refine ⟨state1.collector.setHost 0 { h with lastserial := 150 }, ?_⟩
    refine (ioportUnwrapMeterdata_wrap hwrap hge (hres 150 (by decide))).trans ?_
    rw [show (receivedFrom bytes 1010 tenants12).tnow = 1010 from rfl, if_pos (by decide),
      show lib1.inflate = tableZlib.inflate 2048 from rfl, hinflate]
    rfl
  · have hfind : sessionFind (state1.collector.setHost 0 { h with lastserial := 200 }).sessions
        (receivedFrom bytes 1010 tenants12).netid 7 = some session1 := find_session1
    have hderef := deref_setHost hd { h with lastserial := 200 }
    refine unwrapMeterPacket_refused hbytes ?_
    rw [resolveSessionkey, hfind]
    simp only [show oldSerial session1.lastserial 150 = false from by decide,
      show session1.host = 0 from rfl, hderef, Outcome.ok_bind, show oldSerial 200 150 = true from by decide,
      Bool.false_eq_true, if_false, if_true, Outcome.pure_ok]

end Opticon
