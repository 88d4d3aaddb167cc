import Opticon.Lib.Transition
import Opticon.Meter.Names
import Opticon.Wire.Frame
import Opticon.Wire.Packets

/-! The records of packets one at a time, and what each does to the names of a host. -/

namespace Opticon

/-- A host packets are decoded into, and whether one of them is not done yet. -/
structure Feeding where
  s : DecodeState
  running : Bool

inductive FeedStep where
  | packet (p : Packet)
  | record (mid : MeterId)
  | terminator

def FeedStep.Takes (f : Feeding) : FeedStep → Feeding → Prop
  | .packet p, f' => f.running = false ∧ f' = ⟨p.start f.s.host, true⟩
  | .record mid, f' =>
    f.running = true ∧ (ioportReadU64 f.s.io).1 = mid ∧ mid ≠ 0 ∧
      decodeRecord { f.s with io := (ioportReadU64 f.s.io).2 } mid = .ok (f'.running, f'.s)
  | .terminator, f' =>
    f.running = true ∧ (ioportReadU64 f.s.io).1 = 0 ∧
      f' = ⟨{ f.s with io := (ioportReadU64 f.s.io).2 }, false⟩

/-- The loop of `pktcodec_decode_host` for packets that follow each other. -/
def feeding (init : Host → Prop) : Transition Feeding FeedStep where
  init f := init f.s.host ∧ f.running = false
  step f e f' := e.Takes f f'

variable {init : Host → Prop} {f f' : Feeding} {s s' : DecodeState} {h h' : Host} {mid : MeterId}
  {ok : Bool}

theorem feeding_history {es : List FeedStep} (hf : (feeding init).History es f) (e : FeedStep)
    (he : e.Takes f f') : (feeding init).History (es ++ [e]) f' :=
  Transition.History.step (l := e) hf he

theorem feeding_guarded {G : Feeding → FeedStep → Prop} {es : List FeedStep}
    (hf : ((feeding init).guard G).History es f) (e : FeedStep) (hG : G f e) (he : e.Takes f f') :
    ((feeding init).guard G).History (es ++ [e]) f' :=
  Transition.History.step (l := e) hf ⟨hG, he⟩

theorem feeding_step (hf : (feeding init).Reachable f) (e : FeedStep) (he : e.Takes f f') :
    (feeding init).Reachable f' :=
  Transition.Reachable.step (l := e) hf he

theorem decodeLoop_reachable {n : Nat} (hf : (feeding init).Reachable ⟨s, true⟩)
    (hn : s.io.unread.length < n) (hd : decodeLoop n s = .ok (ok, s')) :
    (feeding init).Reachable ⟨s', false⟩ := by
  induction n generalizing s with
  | zero => omega
  | succ n ih =>
    simp only [decodeLoop] at hd
    split at hd
    · rename_i hmid
      cases hd
      exact feeding_step hf .terminator ⟨rfl, hmid, rfl⟩
    · rename_i hmid
      obtain ⟨⟨ok', s₁⟩, hr, hd⟩ := Outcome.bind_ok_iff.mp hd
      have hf₁ : (feeding init).Reachable ⟨s₁, ok'⟩ :=
        feeding_step hf (.record (ioportReadU64 s.io).1) ⟨rfl, rfl, hmid, hr⟩
      cases ok' with
      | true =>
        have hlt := ioportReadU64_unread hmid
        have hle : s₁.io.unread.length ≤ (ioportReadU64 s.io).2.unread.length :=
          decodeRecord_unread hr
        exact ih hf₁ (by omega) hd
      | false =>
        cases hd
        exact hf₁

/-- What a packet makes of a host is reached through its records. -/
theorem decodePacket_reachable {p : Packet} (hf : (feeding init).Reachable f)
    (hidle : f.running = false) (hd : decodePacket f.s.host p = .ok (ok, s')) :
    (feeding init).Reachable ⟨s', false⟩ := by
  have hstart : (feeding init).Reachable ⟨p.start f.s.host, true⟩ :=
    feeding_step hf (.packet p) ⟨hidle, rfl⟩
  exact decodeLoop_reachable hstart (Nat.lt_succ_self _) hd

/-! ### The names of a host -/

/-- The host without its meters of the name in an id. -/
def Host.without (h : Host) (pfx : MeterId) : Host :=
  { h with
    meters := h.meters.filter fun m => m.name != pfx &&& MMASK_NAME
    mcount := h.mcount - (h.meters.countP fun m => m.name == pfx &&& MMASK_NAME : Nat) }

theorem filter_eraseIdx {α : Type} {p : α → Bool} {l : List α} {i : Nat} {a : α}
    (hi : l[i]? = some a) (ha : p a = true) :
    ((l.eraseIdx i).filter fun a => !p a) = (l.filter fun a => !p a) ∧
      (l.eraseIdx i).countP p + 1 = l.countP p := by
  induction l generalizing i with
  | nil => cases hi
  | cons b l ih =>
    cases i with
    | zero =>
      cases hi
      simp [ha]
    | succ i =>
      obtain ⟨hfilter, hcount⟩ := ih hi
      simp only [List.eraseIdx_cons_succ, List.filter_cons, List.countP_cons, hfilter]
      exact ⟨trivial, by omega⟩

theorem without_names (h : Host) (pfx : MeterId) :
    (h.without pfx).names = h.names.filter fun name => name != pfx &&& MMASK_NAME := by
  simp only [Host.without, Host.names, List.filter_map]
  rfl

theorem without_of_none {pfx : MeterId} (hnone : hostFindMeterName h pfx = none) : h.without pfx = h := by
  have hne := hostFindMeterName_none.mp hnone
  have hcount : (h.meters.countP fun m => m.name == pfx &&& MMASK_NAME) = 0 := by
    rw [List.countP_eq_zero]
    simpa using hne
  have hfilter : (h.meters.filter fun m => m.name != pfx &&& MMASK_NAME) = h.meters := by
    rw [List.filter_eq_self]
    simpa using hne
  rw [Host.without, hcount, hfilter]
  simp

theorem displaceLoop_host {pfx : MeterId} {n : Nat} (hn : h.meters.length ≤ n)
    (strbuf : List UInt8) : (displaceLoop pfx n h strbuf).1 = h.without pfx := by
  induction n generalizing h strbuf with
  | zero =>
    obtain hnil := List.length_eq_zero_iff.mp (Nat.le_zero.mp hn)
    refine (@without_of_none h _ ?_).symm
    simp [hostFindMeterName_none, hnil]
  | succ n ih =>
    unfold displaceLoop
    cases hf : hostFindMeterName h pfx with
    | none => exact (without_of_none hf).symm
    | some i =>
      obtain ⟨m, hm, hname, -⟩ := hostFindMeterName_some hf
      have hlt := (List.getElem?_eq_some_iff.mp hm).1
      have hlen : (hostDeleteMeter h i).meters.length ≤ n := by
        rw [hostDeleteMeter, List.length_eraseIdx_of_lt hlt]
        omega
      obtain ⟨hfilter, hcount⟩ :=
        @filter_eraseIdx _ (fun m : Meter => m.name == pfx &&& MMASK_NAME) _ _ _ hm (by simp [hname])
      dsimp only
      rw [ih hlen]
      unfold Host.without hostDeleteMeter
      dsimp only
      congr 1
      omega

/-- The host behind the displacement. -/
def Host.remaining (h : Host) (lastpfx mid : MeterId) : Host :=
  if idgetprefix mid ≠ 0 ∧ idgetprefix mid ≠ lastpfx then h.without ( idgetprefix mid) else h

theorem decodeDisplace_host (s : DecodeState) (mid : MeterId) :
    (decodeDisplace s mid).host = s.host.remaining s.lastpfx mid := by
  unfold decodeDisplace Host.remaining
  dsimp only
  split
  · exact displaceLoop_host le_rfl _
  · rfl

/-- A record that is done once it has emptied the children of its name. -/
def EmptiesChildren (h : Host) (mid : MeterId) : Prop :=
  (mid &&& MMASK_COUNT).toNat = SZ_EMPTY_ARRAY ∧ (hostFindPrefix h mid none).isSome

instance (h : Host) (mid : MeterId) : Decidable (EmptiesChildren h mid) :=
  inferInstanceAs (Decidable (_ ∧ _))

/-- What a record that is not done so leaves of the names: those that are not displaced, and its
own name if it is new and the host takes it. -/
def Host.namesAfter (h : Host) (mid : MeterId) : List MeterId :=
  if h.names.contains (mid &&& MMASK_NAME) ∨ default_host_max_meters < h.mcount then h.names
  else h.names ++ [mid &&& MMASK_NAME]

/-- The counter of a host and the names of its meters. -/
def Host.tally (h : Host) : List MeterId × Int := (h.names, h.mcount)

theorem updateTarget_tally {M : Option Nat} {f : Meter → Except Fault Meter}
    (hf : ∀ m m', f m = .ok m' → m'.name = m.name) (hu : h.updateTarget M f = .ok h') :
    h'.tally = h.tally := by
  cases M with
  | none =>
    cases hu
    rfl
  | some i =>
    have hnames := Host.names_updateMeter hf hu
    obtain ⟨m, m', -, -, rfl⟩ := updateMeter_ok hu
    rw [Host.tally, hnames, Host.tally]

theorem decodeValues_tally {M : Option Nat} {n i : Nat}
    (hd : decodeValues mid M n i s = .ok (ok, s')) : s'.host.tally = s.host.tally := by
  induction n generalizing i s with
  | zero =>
    cases hd
    rfl
  | succ n ih =>
    simp only [decodeValues, Outcome.bind_ok_iff] at hd
    obtain ⟨r, hr, hd⟩ := hd
    cases r with
    | none =>
      cases hd
      rfl
    | some s₁ =>
      rw [ih hd]
      unfold decodeValue at hr
      split_ifs at hr
      all_goals
        simp only [Outcome.bind_ok_iff, Outcome.pure_ok, Except.ok.injEq, Option.some.injEq,
          reduceCtorEq] at hr
      all_goals
        obtain ⟨h', hu, rfl⟩ := hr
        exact updateTarget_tally (fun m m' => meterSet_name) hu

theorem mem_names {id : MeterId} :
    id &&& MMASK_NAME ∈ h.names ↔ hostFindMeterName h id ≠ none := by
  rw [ne_eq, hostFindMeterName_none]
  simp [Host.names]

theorem namesAfter_kept (hold : mid &&& MMASK_NAME ∈ h.names ∨ default_host_max_meters < h.mcount) :
    h.namesAfter mid = h.names :=
  if_pos (hold.imp_left List.contains_iff_mem.mpr)

theorem namesAfter_new (hnew : mid &&& MMASK_NAME ∉ h.names) (hq : h.mcount ≤ default_host_max_meters) :
    h.namesAfter mid = h.names ++ [mid &&& MMASK_NAME] := by
  refine if_neg ?_
  rintro (hold | hfull)
  · exact hnew (List.contains_iff_mem.mp hold)
  · exact absurd hq (not_le_of_gt hfull)

/-- The counter stays right if it was. -/
theorem decodeTarget_tally (h : Host) (mid : MeterId) :
    (decodeTarget h mid).1.names = h.namesAfter mid ∧
      (h.mcount = h.names.length → (decodeTarget h mid).1.mcount = (h.namesAfter mid).length) := by
  unfold decodeTarget
  cases hf : hostFindMeterName h mid with
  | some i =>
    rw [namesAfter_kept (.inl (mem_names.mpr (by simp [hf])))]
    exact ⟨rfl, id⟩
  | none =>
    have hout : mid &&& MMASK_NAME ∉ h.names := by simp [mem_names, hf]
    by_cases hq : h.mcount ≤ default_host_max_meters
    · rw [namesAfter_new hout hq]
      simp only [if_pos hq, hostGetMeter_new hf, Host.names, List.map_append, List.map_cons,
        List.map_nil, Meter.name, meterAlloc, requested_name, List.length_append, List.length_map,
        List.length_singleton, true_and]
      intro hc
      split
      · rename_i hnil
        simp [hnil]
      · rw [hc]
        rfl
    · rw [namesAfter_kept (.inr (lt_of_not_ge hq))]
      simp only [if_neg hq]
      exact ⟨trivial, id⟩

theorem updateMeter_tally {i : Nat} {f : Meter → Except Fault Meter}
    (hf : ∀ m m', f m = .ok m' → m'.name = m.name) (hu : h.updateMeter i f = .ok h') :
    h'.tally = h.tally :=
  updateTarget_tally (M := some i) hf hu

theorem emptyPrefixed_tally {pfx : MeterId} {n : Nat} {crsr : Option Nat}
    (he : emptyPrefixed pfx n crsr h = .ok h') : h'.tally = h.tally := by
  induction n generalizing crsr h with
  | zero =>
    cases he
    rfl
  | succ n ih =>
    cases crsr with
    | none =>
      cases he
      rfl
    | some i =>
      obtain ⟨h₁, hu, he⟩ := Outcome.bind_ok_iff.mp he
      rw [ih he, updateMeter_tally (fun m m' => meterSetcount_name) hu]

theorem decodeEmptyArray_tally {finished : Bool} (he : decodeEmptyArray h mid = .ok (finished, h')) :
    (finished = true ↔ (hostFindPrefix h mid none).isSome) ∧ h'.tally = h.tally := by
  unfold decodeEmptyArray at he
  cases hp : hostFindPrefix h mid none with
  | some crsr =>
    simp only [hp] at he
    obtain ⟨h₁, hu, he⟩ := Outcome.bind_ok_iff.mp he
    cases he
    exact ⟨by simp, emptyPrefixed_tally hu⟩
  | none =>
    simp only [hp] at he
    split at he
    · obtain ⟨h₁, hu, he⟩ := Outcome.bind_ok_iff.mp he
      cases he
      exact ⟨by simp, updateMeter_tally (fun m m' => meterSetcount_name) hu⟩
    · cases he
      exact ⟨by simp, rfl⟩

theorem remaining_tally {lastpfx : MeterId} (ht : h'.tally = h.tally) :
    (h'.remaining lastpfx mid).tally = (h.remaining lastpfx mid).tally := by
  obtain ⟨hnames, hcount⟩ := Prod.mk.inj ht
  unfold Host.remaining
  split
  · have hgone (h : Host) : (h.without ( idgetprefix mid)).mcount =
        h.mcount - (h.names.countP fun name => name == idgetprefix mid &&& MMASK_NAME : Nat) := by
      simp only [Host.without, Host.names, List.countP_map]
      rfl
    rw [Host.tally, Host.tally, without_names, without_names, hgone, hgone, hnames, hcount]
  · exact ht

theorem namesAfter_tally (ht : h'.tally = h.tally) : h'.namesAfter mid = h.namesAfter mid := by
  obtain ⟨hnames, hcount⟩ := Prod.mk.inj ht
  rw [Host.namesAfter, hnames, hcount, Host.namesAfter]

theorem decodeMeter_names (hd : decodeMeter s mid = .ok (ok, s')) :
    s'.host.names = (s.host.remaining s.lastpfx mid).namesAfter mid ∧
      ((s.host.remaining s.lastpfx mid).mcount = (s.host.remaining s.lastpfx mid).names.length →
        s'.host.mcount = ((s.host.remaining s.lastpfx mid).namesAfter mid).length) := by
  rw [← decodeDisplace_host]
  obtain ⟨hnames, hcount⟩ := decodeTarget_tally (decodeDisplace s mid).host mid
  simp only [decodeMeter, Outcome.bind_ok_iff] at hd
  obtain ⟨host, hu, hd⟩ := hd
  have hsetup := updateTarget_tally (fun m m' => decodeSetup_name) hu
  have htally : s'.host.tally = (decodeTarget (decodeDisplace s mid).host mid).1.tally := by
    rw [← hsetup]
    split at hd
    · cases hd
      rfl
    · exact decodeValues_tally hd
  obtain ⟨hnames', hcount'⟩ := Prod.mk.inj htally
  rw [hnames', hcount', hnames]
  exact ⟨rfl, hcount⟩

/-- What a record does to the names of a host, to its counter, and to the prefix that the decoder
remembers. -/
theorem decodeRecord_names (hd : decodeRecord s mid = .ok (ok, s')) :
    (EmptiesChildren s.host mid ∧ s'.host.tally = s.host.tally ∧ s'.lastpfx = s.lastpfx) ∨
    (¬ EmptiesChildren s.host mid ∧
      s'.host.names = (s.host.remaining s.lastpfx mid).namesAfter mid ∧
      ((s.host.remaining s.lastpfx mid).mcount = (s.host.remaining s.lastpfx mid).names.length →
        s'.host.mcount = ((s.host.remaining s.lastpfx mid).namesAfter mid).length)) := by
  unfold decodeRecord at hd
  split at hd
  · rename_i hcount
    obtain ⟨⟨finished, host⟩, he, hd⟩ := Outcome.bind_ok_iff.mp hd
    obtain ⟨hfinished, htally⟩ := decodeEmptyArray_tally he
    cases finished with
    | true =>
      cases hd
      exact .inl ⟨⟨hcount, hfinished.mp rfl⟩, htally, rfl⟩
    | false =>
      have hno : ¬ EmptiesChildren s.host mid := fun hc => nomatch hfinished.mpr hc.2
      have hremaining := @remaining_tally _ _ mid s.lastpfx htally
      obtain ⟨hnames, hmcount⟩ := Prod.mk.inj hremaining
      have hmeter := decodeMeter_names (s := { s with host := host }) hd
      rw [namesAfter_tally hremaining, hnames, hmcount] at hmeter
      exact .inr ⟨hno, hmeter⟩
  · rename_i hcount
    exact .inr ⟨fun hc => hcount hc.1, decodeMeter_names hd⟩

/-! ### The place in the packet -/

/-- The port behind a value; none if the type is unknown. -/
def skipValue (mid : MeterId) (io : Ioport) : Option Ioport :=
  if mid &&& MMASK_TYPE = MTYPE_INT then some (ioportReadEncint io).2
  else if mid &&& MMASK_TYPE = MTYPE_FRAC then some (ioportReadEncfrac io).2
  else if mid &&& MMASK_TYPE = MTYPE_STR then some (ioportReadEncstring io []).2.2
  else none

def skipValues (mid : MeterId) : Nat → Ioport → Bool × Ioport
  | 0, io => (true, io)
  | n + 1, io =>
    match skipValue mid io with
    | none => (false, io)
    | some io => skipValues mid n io

/-- Whether decoding goes on behind a record, and where. -/
def skipRecord (mid : MeterId) (io : Ioport) : Bool × Ioport :=
  if SZ_EMPTY_VAL ≤ elemCount (mid &&& MMASK_COUNT).toNat then (true, io)
  else skipValues mid (elemCount (mid &&& MMASK_COUNT).toNat) io

theorem ioportReadEncstring_io (io : Ioport) (into into' : List UInt8) :
    (ioportReadEncstring io into).2.2 = (ioportReadEncstring io into').2.2 := by
  unfold ioportReadEncstring
  dsimp only
  split_ifs <;> rfl

theorem decodeValue_place {M : Option Nat} {i : Nat} {r : Option DecodeState}
    (hd : decodeValue s mid M i = .ok r) : r.map DecodeState.io = skipValue mid s.io := by
  unfold decodeValue at hd
  unfold skipValue
  split_ifs at hd ⊢
  all_goals
    simp only [Outcome.bind_ok_iff, Outcome.pure_ok, Except.ok.injEq] at hd
  · obtain ⟨h', -, rfl⟩ := hd
    rfl
  · obtain ⟨h', -, rfl⟩ := hd
    rfl
  · obtain ⟨h', -, rfl⟩ := hd
    exact congrArg some (ioportReadEncstring_io s.io s.strbuf [])
  · subst hd
    rfl

theorem decodeValues_place {M : Option Nat} {n i : Nat}
    (hd : decodeValues mid M n i s = .ok (ok, s')) : skipValues mid n s.io = (ok, s'.io) := by
  induction n generalizing i s with
  | zero =>
    cases hd
    rfl
  | succ n ih =>
    simp only [decodeValues, Outcome.bind_ok_iff] at hd
    obtain ⟨r, hr, hd⟩ := hd
    have hplace := decodeValue_place hr
    unfold skipValues
    cases r with
    | none =>
      cases hd
      rw [← hplace]
      rfl
    | some s₁ =>
      rw [← hplace]
      exact ih hd

theorem decodeMeter_place (hd : decodeMeter s mid = .ok (ok, s')) :
    skipRecord mid s.io = (ok, s'.io) := by
  simp only [decodeMeter, Outcome.bind_ok_iff] at hd
  obtain ⟨host, -, hd⟩ := hd
  unfold skipRecord
  rw [← decodeDisplace_io s mid]
  split_ifs at hd ⊢
  · cases hd
    rfl
  · exact decodeValues_place (s := { decodeDisplace s mid with host := host }) hd

/-- Where a record ends does not depend on the host. -/
theorem decodeRecord_place (hd : decodeRecord s mid = .ok (ok, s')) :
    skipRecord mid s.io = (ok, s'.io) := by
  unfold decodeRecord at hd
  split at hd
  · rename_i hcount
    obtain ⟨⟨finished, host⟩, -, hd⟩ := Outcome.bind_ok_iff.mp hd
    cases finished with
    | true =>
      cases hd
      rw [skipRecord, hcount]
      rfl
    | false => exact decodeMeter_place (s := { s with host := host }) hd
  · exact decodeMeter_place hd

theorem decodeValues_untaken (mid : MeterId) (n i : Nat) (s : DecodeState) :
    ∃ ok s', decodeValues mid none n i s = .ok (ok, s') ∧ s'.host = s.host := by
  induction n generalizing i s with
  | zero => exact ⟨true, s, rfl, rfl⟩
  | succ n ih =>
    have hvalue : ∃ r, decodeValue s mid none i = .ok r ∧ ∀ s₁ ∈ r, s₁.host = s.host := by
      unfold decodeValue
      split_ifs
      · exact ⟨_, rfl, by rintro _ ⟨⟩; rfl⟩
      · exact ⟨_, rfl, by rintro _ ⟨⟩; rfl⟩
      · exact ⟨_, rfl, by rintro _ ⟨⟩; rfl⟩
      · exact ⟨none, rfl, by simp⟩
    obtain ⟨r, hr, hkeep⟩ := hvalue
    cases r with
    | none => exact ⟨false, s, by simp [decodeValues, hr], rfl⟩
    | some s₁ =>
      obtain ⟨ok, s', hrest, hhost⟩ := ih (i + 1) s₁
      exact ⟨ok, s', by simp [decodeValues, hr, hrest], hhost.trans (hkeep s₁ rfl)⟩

end Opticon
