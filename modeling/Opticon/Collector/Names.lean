import Opticon.Lib.Transition
import Opticon.Collector.PacketLaws
import Opticon.Collector.WatcherLaws
import Opticon.Meter.Names

/-! Whether a host ever has two meters of one name. -/

namespace Opticon

def midIp : MeterId := makeid (asc "link/ip") MTYPE_STR
def midRtt : MeterId := makeid (asc "link/rtt") MTYPE_FRAC
def midLoss : MeterId := makeid (asc "link/loss") MTYPE_FRAC
def midProblems : MeterId := makeid (asc "problems") MTYPE_STR
def midBadness : MeterId := makeid (asc "badness") MTYPE_FRAC

/-- What happens to a host: anything to what it has besides its meters, the decoder, the end of
an update, the address of an auth packet, the meters of the link after a meter packet, or a
round of the watcher. -/
inductive MeterStep where
  | other (host : Host)
  | decode (io : Ioport) (strbuf : List UInt8)
  | endUpdate
  | address (text : List UInt8)
  | link
  | watch (r : Round)

namespace MeterStep

/-- The host afterwards, if it is not removed. -/
def apply : MeterStep → Host → Except Fault (Option Host)
  | .other host, h => .ok (some { host with meters := h.meters, mcount := h.mcount })
  | .decode io strbuf, h => do
    let (_, s) ← pktcodecDecodeHost io h strbuf
    return some s.host
  | .endUpdate, h => do return some (← hostEndUpdate h)
  | .address text, h => do return some (← setStringMeter h midIp text)
  | .link, h => .ok (some (hostGetMeter (hostGetMeter h midRtt).1 midLoss).1)
  | .watch r, h => do return (← watchthreadHandleHost r h).host

end MeterStep

/-- The life of a host. -/
def lifetime : Transition Host MeterStep where
  init h := h.meters = []
  step h e h' := e.apply h = .ok (some h')

variable {r : Round} {h h₁ h' host : Host} {id : MeterId} {ids : List MeterId}

open Host (Touched Rewrites)

instance : Decidable h.Distinct := inferInstanceAs (Decidable h.names.Nodup)

theorem reachable_step (hr : lifetime.Reachable h) (e : MeterStep) (hs : e.apply h = .ok (some h')) :
    lifetime.Reachable h' :=
  hr.step hs

theorem reachable_other (hr : lifetime.Reachable h) (hm : h'.meters = h.meters)
    (hc : h'.mcount = h.mcount) : lifetime.Reachable h' := by
  refine reachable_step hr (.other h') ?_
  rw [MeterStep.apply, ← hm, ← hc]

theorem reachable_decode {io : Ioport} {strbuf : List UInt8} {s : DecodeState} {ok : Bool}
    (hr : lifetime.Reachable h) (hd : pktcodecDecodeHost io h strbuf = .ok (ok, s)) :
    lifetime.Reachable s.host := by
  refine reachable_step hr (.decode io strbuf) ?_
  exact Outcome.bind_ok_iff.mpr ⟨(ok, s), hd, rfl⟩

theorem localdbGetCurrent_reachable {current : Option (List UInt8)} {strbuf : List UInt8} {ok : Bool}
    (hr : lifetime.Reachable h) (hg : localdbGetCurrent current h strbuf = .ok (ok, h')) :
    lifetime.Reachable h' := by
  unfold localdbGetCurrent at hg
  split at hg
  · cases hg
    exact hr
  · dsimp only at hg
    split at hg
    · cases hg
      exact hr
    · obtain ⟨⟨res, s⟩, hdec, hg⟩ := Outcome.bind_ok_iff.mp hg
      cases hg
      exact reachable_decode hr hdec

theorem updateHost_reachable {p : Received} {S : Session} {data : List UInt8}
    (hr : lifetime.Reachable h) (hu : updateHost p S data h = .ok h') : lifetime.Reachable h' := by
  obtain ⟨h₁, hrep, hu⟩ := Outcome.bind_ok_iff.mp hu
  obtain ⟨⟨ok, s⟩, hdec, hend⟩ := Outcome.bind_ok_iff.mp hu
  have hr₀ : lifetime.Reachable (hostBeginUpdate p h) := reachable_other hr rfl rfl
  have hr₁ : lifetime.Reachable h₁ := by
    unfold repopulate at hrep
    split at hrep
    · obtain ⟨⟨ok, H⟩, hg, hrep⟩ := Outcome.bind_ok_iff.mp hrep
      cases hrep
      exact localdbGetCurrent_reachable hr₀ hg
    · cases hrep
      exact hr₀
  have hlink : lifetime.Reachable (hostGetMeter (hostGetMeter s.host midRtt).1 midLoss).1 :=
    reachable_step (reachable_decode hr₁ hdec) .link rfl
  refine reachable_step hlink .endUpdate ?_
  exact Outcome.bind_ok_iff.mpr ⟨h', hend, rfl⟩

/-- Every host that is linked came from a life. -/
structure Collector.Lives (c : Collector) : Prop where
  arranged : c.Arranged
  reachable : ∀ n ∈ c.linked, lifetime.Reachable n.2.host

namespace Collector.Lives

variable {c c' : Collector} {addr : Nat} {lib : Library} {p : Received}

theorem deref (hc : c.Lives) (hd : c.deref addr = .ok h) : lifetime.Reachable h := by
  obtain ⟨n, hn, -, rfl⟩ := deref_ok hd
  exact hc.reachable n hn

theorem setHost (hc : c.Lives) (hd : c.deref addr = .ok h) (hid : h'.uuid = h.uuid)
    (hr : lifetime.Reachable h') : (c.setHost addr h').Lives := by
  refine ⟨(hc.arranged.extends_setHost hd hid).arranged, ?_⟩
  rw [linked_setHost]
  intro n hn
  obtain ⟨n₀, hn₀, rfl⟩ := List.mem_map.mp hn
  dsimp only
  split
  · exact hr
  · exact hc.reachable n₀ hn₀

theorem sessions (hc : c.Lives) (db : Sessiondb) : { c with sessions := db }.Lives :=
  ⟨((Extends.refl hc.arranged).sessions db).arranged, hc.reachable⟩

theorem resolveTenantkey (hc : c.Lives) (db : Database) (T : Uuid) (serial : BitVec 32) :
    (Opticon.resolveTenantkey db T serial c).2.Lives := by
  obtain ⟨hext, -⟩ := resolveTenantkey_spec hc.arranged db T serial
  refine ⟨hext.arranged, ?_⟩
  rw [linked_resolveTenantkey hc.arranged]
  exact hc.reachable

theorem hostFind (hc : c.Lives) (T H : Uuid) : (Opticon.hostFind c T H).2.Lives := by
  obtain ⟨harr, -⟩ := hostFind_spec hc.arranged T H
  refine ⟨harr, fun n hn => ?_⟩
  obtain hn | hnew := mem_linked_hostFind hc.arranged hn
  · exact hc.reachable n hn
  · rw [hnew]
    exact Transition.Reachable.init (Eq.refl [])

theorem authDone {tnow : Nat} {S : Session} (hc : c.Lives)
    (h : Opticon.authDone lib tnow S c = .ok c') : c'.Lives := by
  obtain ⟨host, hd, h⟩ := Outcome.bind_ok_iff.mp h
  obtain ⟨host', hset, h⟩ := Outcome.bind_ok_iff.mp h
  cases h
  refine Lives.sessions (hc.setHost hd ?_ ?_) _
  · have hid := uuid_of_head (setStringMeter_head hset)
    exact hid
  · have hr : lifetime.Reachable { host with lastmodified := tnow } :=
      reachable_other (hc.deref hd) rfl rfl
    refine reachable_step hr (.address (lib.inetNtop S.remote)) ?_
    exact Outcome.bind_ok_iff.mpr ⟨host', hset, rfl⟩

theorem authSession {auth : Authinfo} (hc : c.Lives)
    (h : Opticon.authSession lib p auth c = .ok c') : c'.Lives := by
  unfold Opticon.authSession at h
  split at h
  · cases h
    exact hc
  · split at h
    · split at h
      · exact authDone (hc.sessions _) h
      · cases h
        exact hc
    · have hfind := hc.hostFind auth.tenantid auth.hostid
      unfold sessionRegister at h
      dsimp only at h
      split at h
      · exact authDone (hfind.sessions _) h
      · exact authDone (hfind.sessions _) h

theorem handleMeterPacket (hc : c.Lives) (h : Opticon.handleMeterPacket lib p c = .ok c') :
    c'.Lives := by
  obtain ⟨⟨u, c₁⟩, hunwrap, h⟩ := Outcome.bind_ok_iff.mp h
  have hc₁ : c₁.Lives := by
    obtain ⟨-, rfl⟩ | ⟨S, host, serial, -, hd, -, rfl, -⟩ := unwrapMeterPacket_cases hunwrap
    · exact hc
    · exact hc.setHost hd rfl (reachable_other (hc.deref hd) rfl rfl)
  cases u with
  | error e =>
    cases h
    exact hc₁
  | ok r =>
    obtain ⟨H, hd, h⟩ := Outcome.bind_ok_iff.mp h
    obtain ⟨H', hu, h⟩ := Outcome.bind_ok_iff.mp h
    cases h
    exact hc₁.setHost hd (updateHost_uuid hu) (updateHost_reachable (hc₁.deref hd) hu)

/-- Packets keep every host within its life, and so do the rounds of the watcher. -/
theorem handlePacket (hc : c.Lives) (h : Opticon.handlePacket lib p c = .ok c') : c'.Lives := by
  unfold Opticon.handlePacket at h
  split at h
  · obtain ⟨⟨auth, c₁⟩, hunwrap, h⟩ := Outcome.bind_ok_iff.mp h
    have hc₁ : c₁.Lives := by
      obtain rfl | ⟨T, serial, rfl⟩ := unwrapAuthdata_cases hunwrap
      · exact hc
      · exact hc.resolveTenantkey p.db T serial
    cases auth with
    | none =>
      cases h
      exact hc₁
    | some auth => exact authSession hc₁ h
  · split at h
    · exact handleMeterPacket hc h
    · cases h
      exact hc

theorem watchHost {report : Option Report} (hc : c.Lives)
    (h : Opticon.watchHost r addr c = .ok (c', report)) : c'.Lives := by
  obtain ⟨host, hd, h⟩ := Outcome.bind_ok_iff.mp h
  obtain ⟨w, hw, h⟩ := Outcome.bind_ok_iff.mp h
  obtain ⟨-, hgone⟩ | ⟨-, host', hstays, hid⟩ := watchthreadHandleHost_host hw
  · rw [hgone] at h
    cases h
    refine ⟨hc.arranged.hostDelete, ?_⟩
    rw [linked_hostDelete]
    intro n hn
    exact hc.reachable n (List.mem_of_mem_filter hn)
  · rw [hstays] at h
    cases h
    refine hc.setHost hd hid (reachable_step (hc.deref hd) (.watch r) ?_)
    exact Outcome.bind_ok_iff.mpr ⟨w, hw, congrArg Except.ok hstays⟩

end Collector.Lives

end Opticon
