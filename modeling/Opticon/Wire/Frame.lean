import Opticon.Lib.Outcome
import Opticon.Meter.HostLaws
import Opticon.Wire.Packet

/-! What a host keeps while meters are added to it, written and removed. -/

namespace Opticon

/-- A host without its meters. -/
def Host.head (h : Host) : Host := { h with meters := [], mcount := 0 }

theorem updateMeter_head {h h' : Host} {i : Nat} {f : Meter → Except Fault Meter}
    (hu : h.updateMeter i f = .ok h') : h'.head = h.head := by
  obtain ⟨m, m', -, -, rfl⟩ := updateMeter_ok hu
  rfl

@[simp] theorem hostGetMeter_head (h : Host) (id : MeterId) : (hostGetMeter h id).1.head = h.head := by
  unfold hostGetMeter
  simp only
  split <;> rfl

theorem decodeSetup_name {now : Nat} {mid : MeterId} {count : Nat} {m m' : Meter}
    (hs : decodeSetup now mid count m = .ok m') : m'.name = m.name := by
  obtain ⟨m₁, hcount, hs⟩ := Outcome.bind_ok_iff.mp hs
  cases hs
  exact (retyped_name m₁.id mid).trans (meterSetcount_name hcount)

/-- What holds of a host as long as its meters keep their names, meters go, and one comes only
where there is none of its name. -/
structure KeptByDecoder (P : Host → Prop) : Prop where
  update : ∀ {h h' : Host} {i : Nat} {f : Meter → Except Fault Meter}, P h →
    (∀ m m', f m = .ok m' → m'.name = m.name) → h.updateMeter i f = .ok h' → P h'
  delete : ∀ {h : Host} (i : Nat), P h → P (hostDeleteMeter h i)
  create : ∀ {h : Host} {id : MeterId}, P h → hostFindMeterName h id = none →
    P (hostGetMeter h id).1

namespace KeptByDecoder

variable {P : Host → Prop} (k : KeptByDecoder P) {h h' : Host} {s s' : DecodeState}
  {mid : MeterId} {M : Option Nat} {ok : Bool}

include k

theorem updateTarget {f : Meter → Except Fault Meter} (hP : P h)
    (hf : ∀ m m', f m = .ok m' → m'.name = m.name) (hu : h.updateTarget M f = .ok h') : P h' := by
  cases M with
  | none =>
    obtain rfl := Except.ok.inj hu
    exact hP
  | some i => exact k.update hP hf hu

theorem emptyPrefixed {pfx : MeterId} {n : Nat} {crsr : Option Nat} (hP : P h)
    (he : emptyPrefixed pfx n crsr h = .ok h') : P h' := by
  induction n generalizing crsr h with
  | zero =>
    obtain rfl := Except.ok.inj he
    exact hP
  | succ n ih =>
    cases crsr with
    | none =>
      obtain rfl := Except.ok.inj he
      exact hP
    | some i =>
      obtain ⟨h₁, hu, he⟩ := Outcome.bind_ok_iff.mp he
      exact ih (k.update hP (fun m m' => meterSetcount_name) hu) he

theorem decodeEmptyArray {finished : Bool} (hP : P h)
    (he : decodeEmptyArray h mid = .ok (finished, h')) : P h' := by
  unfold Opticon.decodeEmptyArray at he
  split at he
  · obtain ⟨h₁, hu, he⟩ := Outcome.bind_ok_iff.mp he
    obtain ⟨-, rfl⟩ := Prod.mk.inj (Except.ok.inj he)
    exact k.emptyPrefixed hP hu
  · split at he
    · obtain ⟨h₁, hu, he⟩ := Outcome.bind_ok_iff.mp he
      obtain ⟨-, rfl⟩ := Prod.mk.inj (Except.ok.inj he)
      exact k.update hP (fun m m' => meterSetcount_name) hu
    · obtain ⟨-, rfl⟩ := Prod.mk.inj (Except.ok.inj he)
      exact hP

theorem displaceLoop (pfx : MeterId) (n : Nat) (strbuf : List UInt8) (hP : P h) :
    P (displaceLoop pfx n h strbuf).1 := by
  induction n generalizing h strbuf with
  | zero => exact hP
  | succ n ih =>
    unfold Opticon.displaceLoop
    split
    · exact hP
    · exact ih _ (k.delete _ hP)

theorem decodeDisplace (mid : MeterId) (hP : P s.host) : P (decodeDisplace s mid).host := by
  unfold Opticon.decodeDisplace
  simp only
  split
  · exact k.displaceLoop _ _ _ hP
  · exact hP

theorem decodeTarget (mid : MeterId) (hP : P h) : P (decodeTarget h mid).1 := by
  unfold Opticon.decodeTarget
  split
  · exact hP
  · rename_i hnone
    split
    · exact k.create hP hnone
    · exact hP

theorem decodeValue {i : Nat} (hP : P s.host) (h : decodeValue s mid M i = .ok (some s')) :
    P s'.host := by
  unfold Opticon.decodeValue at h
  split_ifs at h
  all_goals
    simp only [Outcome.bind_ok_iff, Outcome.pure_ok, Except.ok.injEq, Option.some.injEq,
      reduceCtorEq] at h
  all_goals
    obtain ⟨h', hu, rfl⟩ := h
    exact k.updateTarget hP (fun m m' => meterSet_name) hu

theorem decodeValues {n i : Nat} (hP : P s.host) (h : decodeValues mid M n i s = .ok (ok, s')) :
    P s'.host := by
  induction n generalizing i s with
  | zero =>
    cases h
    exact hP
  | succ n ih =>
    simp only [Opticon.decodeValues, Outcome.bind_ok_iff] at h
    obtain ⟨r, hr, h⟩ := h
    cases r with
    | none =>
      cases h
      exact hP
    | some s₁ => exact ih (k.decodeValue hP hr) h

theorem decodeMeter (hP : P s.host) (h : decodeMeter s mid = .ok (ok, s')) : P s'.host := by
  simp only [Opticon.decodeMeter, Outcome.bind_ok_iff] at h
  obtain ⟨host, hu, h⟩ := h
  have hhost : P host :=
    k.updateTarget (k.decodeTarget mid (k.decodeDisplace mid hP)) (fun m m' => decodeSetup_name) hu
  split at h
  · cases h
    exact hhost
  · exact k.decodeValues (s := { Opticon.decodeDisplace s mid with host := host }) hhost h

theorem decodeRecord (hP : P s.host) (h : decodeRecord s mid = .ok (ok, s')) : P s'.host := by
  unfold Opticon.decodeRecord at h
  split at h
  · simp only [Outcome.bind_ok_iff] at h
    obtain ⟨⟨finished, host⟩, he, h⟩ := h
    have hhost := k.decodeEmptyArray hP he
    cases finished with
    | true =>
      cases h
      exact hhost
    | false => exact k.decodeMeter (s := { s with host := host }) hhost h
  · exact k.decodeMeter hP h

theorem decodeLoop {n : Nat} (hP : P s.host) (h : decodeLoop n s = .ok (ok, s')) : P s'.host := by
  induction n generalizing s with
  | zero =>
    cases h
    exact hP
  | succ n ih =>
    simp only [Opticon.decodeLoop] at h
    split at h
    · cases h
      exact hP
    · obtain ⟨⟨ok', s₁⟩, hr, h⟩ := Outcome.bind_ok_iff.mp h
      have hhost := k.decodeRecord (s := { s with io := (ioportReadU64 s.io).2 }) hP hr
      cases ok' with
      | true => exact ih hhost h
      | false =>
        cases h
        exact hhost

theorem pktcodecDecodeHost {io : Ioport} {strbuf : List UInt8} (hP : P h)
    (hd : pktcodecDecodeHost io h strbuf = .ok (ok, s)) : P s.host :=
  k.decodeLoop (s := ⟨io, h, 0, strbuf⟩) hP hd

end KeptByDecoder

theorem pktcodecDecodeHost_head {io : Ioport} {h : Host} {strbuf : List UInt8} {s : DecodeState}
    {ok : Bool} (hd : pktcodecDecodeHost io h strbuf = .ok (ok, s)) : s.host.head = h.head := by
  have k : KeptByDecoder fun h' => h'.head = h.head :=
    { update := fun hh _ hu => (updateMeter_head hu).trans hh
      delete := fun _ hh => hh
      create := fun hh _ => (hostGetMeter_head _ _).trans hh }
  exact k.pktcodecDecodeHost rfl hd

end Opticon
