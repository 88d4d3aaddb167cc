import Opticon.Collector.Names
import Opticon.Collector.Watch

/-! What the meter for the problems of a host shows after a round. -/

namespace Opticon

variable {r : Round} {h h₁ h' host : Host} {id : MeterId} {i n : Nat} {m p : Meter} {ms : List Meter}
  {total : ℚ}

/-- The ids of the meters with badness. -/
def problemIds (ms : List Meter) : List MeterId := (ms.filter (·.badness ≠ 0)).map (·.id)

/-- The name of a problem as an entry of the array. -/
def problemText (id : MeterId) : FString := FString.strncpy (id2str id)

def FString.Blank (s : FString) : Prop := ∀ c ∈ s.str, c = 32

/-- The meter is an empty array if no meter has badness, and else has the names of the first sixteen
that have. -/
def Meter.ShowsProblems (p : Meter) (ms : List Meter) : Prop :=
  if problemIds ms = [] then p.count = SZ_EMPTY_ARRAY
  else p.count = min (problemIds ms).length 16 ∧
    ∀ i < 16, ∀ id, (problemIds ms)[i]? = some id →
      meterGetStr p i = .ok (problemText id) ∧ ¬ (problemText id).Blank

/-- Where among these meters `host_get_meter` finds the one for the problems, or links it. -/
def problemsAt (ms : List Meter) : Nat :=
  (hostGetMeter { hostAlloc ⟨0, 0⟩ with meters := ms } midProblems).2

/-- A round up to the badness of the meters: the host, its meter for the status, and what that was. -/
def roundStart (r : Round) (host : Host) : Except Fault (Host × Nat × FString) := do
  let h ← pingMeters r host
  let (h, m_status) := hostGetMeter h midStatus
  let ostatus ← readStatus h m_status
  let h ← h.updateMeter m_status fun m => meterSetcount h.lastmodified m 0
  return (h, m_status, ostatus)

/-- The meters of a host when a round comes to its problems; for a stale host it does not. -/
def roundMeters (r : Round) (host : Host) : Except Fault (List Meter) := do
  let (h, _) ← roundStart r host
  if 80 < r.tnow - h.lastmodified then return h.meters
  else
    let (ms, _) ← badnessPass r (host.meters = []) h.meters
    return ms

/-- A round does not fail the assertion of `meter_setcount`, and the meter for the problems shows
them afterwards. -/
def ProblemsRight (r : Round) (host : Host) : Prop :=
  watchthreadHandleHost r host ≠ .error .assertion ∧
    ∀ ms w h', roundMeters r host = .ok ms → watchthreadHandleHost r host = .ok w → w.host = some h' →
      ∃ p, h'.meters[problemsAt ms]? = some p ∧ p.ShowsProblems h'.meters

/-- No more than sixteen problems, each of a positive badness and with a name to see, and a meter for
strings to show them in. -/
def Listable (ms : List Meter) : Prop :=
  (problemIds ms).length ≤ 16 ∧
    (∀ m ∈ ms, m.badness ≠ 0 → 0 < m.badness ∧ ¬ (problemText m.id).Blank) ∧
    (problemIds ms ≠ [] → ∀ p, ms[problemsAt ms]? = some p → p.type = MTYPE_STR)

/-! ### The assertion -/

theorem updateMeter_ne_assertion {f : Meter → Except Fault Meter}
    (hf : ∀ m, f m ≠ .error .assertion) : h.updateMeter i f ≠ .error .assertion := by
  unfold Host.updateMeter
  split
  · simp
  · exact Outcome.bind_ne_error (hf _) fun m' _ => by simp

theorem meterSet_ne_assertion {type : MeterId} {sz now pos : Nat} {val : Slot} :
    meterSet type sz now m pos val ≠ .error .assertion := by
  unfold meterSet
  split_ifs
  · simp
  · cases m.d with
    | none => simp
    | some a =>
      dsimp only
      split_ifs <;> simp
  · simp

theorem meterGet_ne_assertion {α : Type} {type : MeterId} {sz pos : Nat} {empty : α}
    {value : Meter → Nat → α} : meterGet type sz empty value m pos ≠ .error .assertion := by
  unfold meterGet Meter.inBounds
  split_ifs
  · simp
  · cases m.d with
    | none => simp
    | some a =>
      dsimp only
      split_ifs <;> simp
  · simp

theorem meterGetStr_ne_assertion {pos : Nat} : meterGetStr m pos ≠ .error .assertion := by
  unfold meterGetStr
  split_ifs
  · simp
  · exact meterGet_ne_assertion

theorem setFracMeter_ne_assertion {val : Double} : setFracMeter h i val ≠ .error .assertion := by
  unfold setFracMeter
  apply Outcome.bind_ne_error
  · refine updateMeter_ne_assertion fun m => ?_
    obtain ⟨m', hm'⟩ := meterSetcount_ok h.lastmodified m (Nat.zero_le _)
    simp [hm']
  · exact fun h' _ => updateMeter_ne_assertion fun m => meterSet_ne_assertion

theorem watchFires_ne_assertion {w : Meterwatch} {adj : Option Watchadjust} :
    watchFires m w adj i ≠ .error .assertion := by
  unfold watchFires
  split
  · exact Outcome.bind_ne_error meterGet_ne_assertion fun _ _ => by simp
  · exact Outcome.bind_ne_error meterGet_ne_assertion fun _ _ => by simp
  · exact Outcome.bind_ne_error meterGet_ne_assertion fun _ _ => by simp
  · exact Outcome.bind_ne_error meterGet_ne_assertion fun _ _ => by simp
  · simp
  · exact Outcome.bind_ne_error meterGetStr_ne_assertion fun _ _ => by simp

theorem badnessLoop_ne_assertion {w : Meterwatch} {adj : Option Watchadjust} {res : ℚ}
    {t : Watchtrigger} : badnessLoop m w adj n i res t ≠ .error .assertion := by
  induction n generalizing i res t with
  | zero => simp [badnessLoop]
  | succ n ih =>
    unfold badnessLoop
    refine Outcome.bind_ne_error watchFires_ne_assertion fun b _ => ?_
    split
    · exact ih
    · exact ih

theorem watchLoop_ne_assertion {adj : Option Watchadjust} {ws : List Meterwatch} {b : ℚ}
    {t : Watchtrigger} {handled : Bool} : watchLoop m adj ws b t handled ≠ .error .assertion := by
  induction ws generalizing b t handled with
  | nil => simp [watchLoop]
  | cons w ws ih =>
    unfold watchLoop
    split
    · exact Outcome.bind_ne_error badnessLoop_ne_assertion fun _ _ => ih
    · exact ih

theorem watchMeter_ne_assertion {watch global : List Meterwatch} {adj : Option Watchadjust}
    {t : Watchtrigger} : watchMeter watch global m adj t ≠ .error .assertion := by
  unfold watchMeter
  refine Outcome.bind_ne_error watchLoop_ne_assertion fun res _ => ?_
  dsimp only
  split
  · simp
  · exact Outcome.bind_ne_error watchLoop_ne_assertion fun _ _ => by simp

theorem badnessRound_ne_assertion {t : Watchtrigger} :
    badnessRound r ms n total t ≠ .error .assertion := by
  induction ms generalizing n total t with
  | nil => simp [badnessRound]
  | cons m ms ih =>
    unfold badnessRound
    refine Outcome.bind_ne_error watchMeter_ne_assertion fun _ _ => ?_
    exact Outcome.bind_ne_error ih fun _ _ => by simp

theorem pingMeters_ne_assertion : pingMeters r h ≠ .error .assertion := by
  unfold pingMeters
  split
  · simp
  · refine Outcome.bind_ne_error meterGetStr_ne_assertion fun ipstr _ => ?_
    split
    · simp
    · exact Outcome.bind_ne_error setFracMeter_ne_assertion fun _ _ => setFracMeter_ne_assertion

theorem badnessPass_ne_assertion {empty : Bool} : badnessPass r empty ms ≠ .error .assertion := by
  unfold badnessPass
  split
  · simp
  · exact badnessRound_ne_assertion

theorem readStatus_ne_assertion : readStatus h i ≠ .error .assertion := by
  unfold readStatus
  split
  · simp
  · exact meterGetStr_ne_assertion

/-! ### What the later parts of a round leave alone -/

/-- Meters under other names stay as they are, and the same ones have badness. -/
structure Spares (id : MeterId) (h h' : Host) : Prop where
  meter : ∀ (i : Nat) (m : Meter), h.meters[i]? = some m → m.name ≠ id &&& MMASK_NAME → h'.meters[i]? = some m
  ids : problemIds h'.meters = problemIds h.meters
  names : h.names <+: h'.names

theorem Spares.trans (s : Spares id h h₁) (s' : Spares id h₁ h') : Spares id h h' where
  meter i m hm hne := s'.meter i m (s.meter i m hm hne) hne
  ids := s'.ids.trans s.ids
  names := s.names.trans s'.names

theorem Spares.of_meters (hm : h'.meters = h.meters) : Spares id h h' where
  meter i m hi _ := by rw [hm, hi]
  ids := by rw [hm]
  names := by rw [Host.names, Host.names, hm]

/-- What a meter must keep for its name and its badness to stay. -/
def Meter.mark (m : Meter) : MeterId × ℚ := (m.id, m.badness)

theorem problemIds_of_marks {ms' : List Meter} (hm : ms'.map Meter.mark = ms.map Meter.mark) :
    problemIds ms' = problemIds ms := by
  have hids (ms : List Meter) : problemIds ms =
      ((ms.map Meter.mark).filter (·.2 ≠ 0)).map (·.1) := by
    rw [List.filter_map, List.map_map]
    rfl
  rw [hids, hids, hm]

theorem meterSetcount_mark {now count : Nat} {m m' : Meter} (hs : meterSetcount now m count = .ok m') :
    m'.mark = m.mark := by
  unfold meterSetcount at hs
  dsimp only at hs
  split_ifs at hs
  · cases hs
    rfl
  · split at hs <;> cases hs <;> rfl

theorem meterSet_mark {type : MeterId} {sz now pos : Nat} {val : Slot} {m m' : Meter}
    (hs : meterSet type sz now m pos val = .ok m') : m'.mark = m.mark := by
  unfold meterSet at hs
  split_ifs at hs
  · cases hs
    rfl
  · cases hd : m.d with
    | none =>
      rw [hd] at hs
      cases hs
    | some a =>
      rw [hd] at hs
      dsimp only at hs
      split_ifs at hs
      cases hs
      rfl
  · cases hs
    rfl

theorem updateMeter_marks {f : Meter → Except Fault Meter} (hf : ∀ m m', f m = .ok m' → m'.mark = m.mark)
    (hu : h.updateMeter i f = .ok h') : h'.meters.map Meter.mark = h.meters.map Meter.mark := by
  obtain ⟨m, m', hm, hfm, rfl⟩ := updateMeter_ok hu
  obtain ⟨hlt, rfl⟩ := List.getElem?_eq_some_iff.mp hm
  rw [List.map_set, hf _ m' hfm, ← List.map_set, List.set_getElem_self]

theorem Spares.updateMeter {f : Meter → Except Fault Meter}
    (hname : h.names[i]? = some (id &&& MMASK_NAME)) (hf : ∀ m m', f m = .ok m' → m'.mark = m.mark)
    (hu : h.updateMeter i f = .ok h') : Spares id h h' := by
  have hmarks := updateMeter_marks hf hu
  obtain ⟨m, m', hm, hfm, rfl⟩ := updateMeter_ok hu
  refine ⟨fun j n hn hne => ?_, problemIds_of_marks hmarks, ?_⟩
  · have hij : i ≠ j := by
      rintro rfl
      rw [Host.names, List.getElem?_map, hn] at hname
      exact hne (Option.some.inj hname)
    exact (List.getElem?_set_ne hij).trans hn
  · have hnames : (h.meters.set i m').map Meter.name = h.meters.map Meter.name := by
      have hids := congrArg (List.map fun x => x.1 &&& MMASK_NAME) hmarks
      rw [List.map_map, List.map_map] at hids
      exact hids
    exact ⟨[], by rw [List.append_nil]; exact hnames.symm⟩

theorem problemIds_append_new (ms : List Meter) (id : MeterId) :
    problemIds (ms ++ [meterAlloc id]) = problemIds ms := by
  simp [problemIds, meterAlloc]

theorem hostGetMeter_spares (h : Host) (id id' : MeterId) : Spares id' h (hostGetMeter h id).1 := by
  refine ⟨fun i m hm _ => ?_, ?_, (Host.Touched.hostGetMeter h id).grows⟩
  · unfold hostGetMeter
    dsimp only
    split
    · exact hm
    · exact (List.getElem?_append_left (List.getElem?_eq_some_iff.mp hm).1).trans hm
  · unfold hostGetMeter
    dsimp only
    split
    · rfl
    · exact problemIds_append_new _ _

theorem setFracMeter_spares {val : Double} (hname : h.names[i]? = some (id &&& MMASK_NAME))
    (hs : setFracMeter h i val = .ok h') : Spares id h h' := by
  obtain ⟨h₁, hcount, hset⟩ := Outcome.bind_ok_iff.mp hs
  have hfirst := Spares.updateMeter hname (fun _ _ => meterSetcount_mark) hcount
  have hsecond := Spares.updateMeter (Host.names_later hfirst.names hname)
    (fun _ _ => meterSet_mark) hset
  exact hfirst.trans hsecond

/-! ### The array -/

open Host (face)

variable {type : MeterId} {sz now pos k : Nat} {val : Slot} {m' p' : Meter} {slots : List Slot}

theorem getElem?_set_of_some (hm : h.meters[i]? = some m) : (h.meters.set i m')[i]? = some m' :=
  List.getElem?_set_self (List.getElem?_eq_some_iff.mp hm).1

theorem fillProblems_ok (hm : h.meters[i]? = some m) (hh : m.Holds MTYPE_STR 128) :
    ∃ h', fillProblems i ms k h = .ok h' := by
  induction ms generalizing h m k with
  | nil => exact ⟨h, rfl⟩
  | cons n ms ih =>
    unfold fillProblems
    split_ifs
    · exact ⟨h, rfl⟩
    · obtain ⟨m', hset, hh'⟩ := meterSet_ok h.lastmodified k (.str (FString.strncpy (id2str n.id))) hh
      rw [updateMeter_eq (f := fun p => meterSetStr h.lastmodified p k (id2str n.id)) hm hset,
        Outcome.ok_bind]
      exact ih (getElem?_set_of_some hm) hh'
    · exact ih hm hh

theorem fillProblems_spares (hname : h.names[i]? = some (id &&& MMASK_NAME))
    (hf : fillProblems i ms k h = .ok h') : Spares id h h' := by
  induction ms generalizing h k with
  | nil =>
    cases hf
    exact .of_meters rfl
  | cons n ms ih =>
    unfold fillProblems at hf
    split_ifs at hf
    · cases hf
      exact .of_meters rfl
    · obtain ⟨h₁, hu, hf⟩ := Outcome.bind_ok_iff.mp hf
      have hfirst := Spares.updateMeter hname (fun _ _ => meterSet_mark) hu
      exact hfirst.trans (ih (Host.names_later hfirst.names hname) hf)
    · exact ih hname hf

/-- An array of strings with these elements. -/
structure Meter.Strings (p : Meter) (slots : List Slot) : Prop where
  type : p.type = MTYPE_STR
  count : p.count = slots.length
  some : 0 < slots.length
  few : slots.length < SZ_EMPTY_VAL
  d : p.d = Option.some ⟨slots.length * 128, slots⟩

theorem Meter.Strings.set (now : Nat) (hp : p.Strings slots) (hk : k < slots.length) (text : List UInt8) :
    ∃ p', meterSetStr now p k text = .ok p' ∧ p'.id = p.id ∧
      p'.Strings (slots.set k (.str (FString.strncpy text))) := by
  have helems : elemCount p.count = slots.length := by
    have hsome := hp.some
    rw [hp.count, elemCount, if_neg (by omega)]
  have hroom : (k + 1) * 128 ≤ slots.length * 128 := Nat.mul_le_mul_right 128 hk
  refine ⟨{ p with
    lastmodified := now
    d := Option.some ⟨slots.length * 128, slots.set k (.str (FString.strncpy text))⟩ }, ?_, rfl, ?_⟩
  · unfold meterSetStr meterSet
    rw [if_neg (by rw [hp.count]; exact not_le_of_gt hp.few), if_pos ⟨hp.type, by rwa [helems]⟩, hp.d]
    dsimp only
    rw [if_pos hroom]
  · exact ⟨hp.type, by simpa using hp.count, by simpa using hp.some, by simpa using hp.few, by simp⟩

/-- The entries for those of the meters that are put up. -/
def problemSlots (ms : List Meter) : List Slot :=
  (ms.filter (0 < ·.badness)).map fun m => .str (problemText m.id)

theorem problemSlots_of_marks {ms' : List Meter} (hm : ms'.map Meter.mark = ms.map Meter.mark) :
    problemSlots ms' = problemSlots ms := by
  have hslots (ms : List Meter) : problemSlots ms =
      ((ms.map Meter.mark).filter (0 < ·.2)).map fun x => .str (problemText x.1) := by
    rw [List.filter_map, List.map_map]
    rfl
  rw [hslots, hslots, hm]

theorem fillProblems_strings (hm : h.meters[i]? = some p) (hp : p.Strings slots)
    (hk : k + (problemSlots ms).length ≤ slots.length) (h16 : k + (problemSlots ms).length ≤ 16) :
    ∃ h' p', fillProblems i ms k h = .ok h' ∧ h'.meters[i]? = some p' ∧ p'.id = p.id ∧
      p'.Strings (slots.take k ++ problemSlots ms ++ slots.drop (k + (problemSlots ms).length)) := by
  induction ms generalizing h p k slots with
  | nil =>
    refine ⟨h, p, rfl, hm, rfl, ?_⟩
    simpa [problemSlots] using hp
  | cons n ms ih =>
    unfold fillProblems
    by_cases hpos : 0 < n.badness
    · have hslots : problemSlots (n :: ms) = .str (problemText n.id) :: problemSlots ms := by
        simp [problemSlots, hpos]
      rw [hslots, List.length_cons] at hk h16 ⊢
      obtain ⟨p₁, hset, hid, hp₁⟩ := hp.set h.lastmodified (k := k) (by omega) (id2str n.id)
      rw [if_neg (by omega), if_pos hpos,
        updateMeter_eq (f := fun p => meterSetStr h.lastmodified p k (id2str n.id)) hm hset,
        Outcome.ok_bind]
      obtain ⟨h', p', hf, hm', hid', hp'⟩ := ih (h := { h with meters := h.meters.set i p₁ }) (k := k + 1)
        (getElem?_set_of_some hm) hp₁ (by rw [List.length_set]; omega) (by omega)
      refine ⟨h', p', hf, hm', hid'.trans hid, ?_⟩
      have htake : (slots.set k (.str (FString.strncpy (id2str n.id)))).take (k + 1) =
          slots.take k ++ [.str (problemText n.id)] := by
        rw [List.take_add_one, List.take_set_of_le le_rfl, List.getElem?_set_self (by omega)]
        rfl
      rw [htake, List.drop_set_of_lt (by omega)] at hp'
      convert hp' using 1
      rw [List.append_assoc, List.append_assoc, List.append_assoc, Nat.add_right_comm, Nat.add_assoc]
      rfl
    · have hslots : problemSlots (n :: ms) = problemSlots ms := by
        simp [problemSlots, hpos]
      rw [hslots] at hk h16 ⊢
      rw [if_neg hpos]
      split_ifs with hfull
      · obtain hnone : (problemSlots ms) = [] := List.length_eq_zero_iff.mp (by omega)
        refine ⟨h, p, rfl, hm, rfl, ?_⟩
        rw [hnone]
        simpa using hp
      · exact ih hm hp hk h16

theorem Meter.Strings.get (hp : p.Strings slots) (hk : k < slots.length) :
    meterGetStr p k = .ok (p.str k) := by
  have hcount : ¬ SZ_EMPTY_VAL ≤ p.count := by
    rw [hp.count]
    exact not_le_of_gt hp.few
  have helems : elemCount p.count = slots.length := by
    have hsome := hp.some
    rw [hp.count, elemCount, if_neg (by omega)]
  have hroom : (k + 1) * 128 ≤ slots.length * 128 := Nat.mul_le_mul_right 128 hk
  unfold meterGetStr meterGet
  rw [if_neg (by simp [hp.d]), if_neg hcount, if_pos ⟨helems ▸ hk, hp.type⟩, Meter.inBounds, hp.d]
  simp only [if_pos hroom, Outcome.ok_bind, Outcome.pure_ok]

theorem meterGetStr_type {s : FString} (hs : meterGetStr m k = .ok s) (hne : s ≠ FString.empty) :
    m.type = MTYPE_STR := by
  by_contra htype
  unfold meterGetStr meterGet at hs
  rw [if_neg (fun hfits : k < elemCount m.count ∧ m.type = MTYPE_STR => htype hfits.2)] at hs
  split_ifs at hs <;> cases hs <;> exact hne rfl

theorem blank_empty : FString.empty.Blank := fun _ h => by cases h

/-! ### The meter for the problems -/

theorem problemsAt_eq (h : Host) : (hostGetMeter h midProblems).2 = problemsAt h.meters := by
  unfold problemsAt hostGetMeter
  dsimp only
  split <;> rfl

/-- The meter that is found or made; a new one is for strings. -/
theorem hostGetMeter_problems (h : Host) :
    ∃ m, (hostGetMeter h midProblems).1.meters[problemsAt h.meters]? = some m ∧
      (m.type = MTYPE_STR ↔ ∀ p, h.meters[problemsAt h.meters]? = some p → p.type = MTYPE_STR) := by
  rw [← problemsAt_eq]
  unfold hostGetMeter
  dsimp only
  split
  · rename_i i hi
    obtain ⟨hlt, -⟩ := List.findIdx?_eq_some_iff_getElem.mp hi
    exact ⟨h.meters[i], List.getElem?_eq_getElem hlt, by simp [hlt]⟩
  · exact ⟨meterAlloc midProblems, by simp; decide, by simp [meterAlloc, Meter.type]; decide⟩

theorem problemSlots_get (hall : ∀ m ∈ ms, m.badness ≠ 0 → 0 < m.badness) :
    problemSlots ms = (problemIds ms).map fun id => .str (problemText id) := by
  have hsame : ms.filter (0 < ·.badness) = ms.filter (·.badness ≠ 0) := by
    apply List.filter_congr
    intro m hm
    exact decide_eq_decide.mpr ⟨fun h => ne_of_gt h, hall m hm⟩
  rw [problemSlots, problemIds, hsame, List.map_map]
  rfl

theorem problemSlots_le (ms : List Meter) : (problemSlots ms).length ≤ (problemIds ms).length := by
  rw [problemSlots, problemIds, List.length_map, List.length_map, ← List.countP_eq_length_filter,
    ← List.countP_eq_length_filter]
  exact List.countP_mono_left fun m _ h => by simpa using ne_of_gt (by simpa using h)

/-- If every problem has its entry, every badness is positive. -/
theorem badness_pos (hle : (problemIds ms).length ≤ (problemSlots ms).length) :
    ∀ m ∈ ms, m.badness ≠ 0 → 0 < m.badness := by
  have hsub : (ms.filter (0 < ·.badness)).Sublist (ms.filter (·.badness ≠ 0)) :=
    List.monotone_filter_right ms fun m h => by simpa using ne_of_gt (by simpa using h)
  rw [problemSlots, problemIds, List.length_map, List.length_map] at hle
  have hsame := hsub.eq_of_length_le hle
  intro m hm hne
  have hmem : m ∈ ms.filter (·.badness ≠ 0) := List.mem_filter.mpr ⟨hm, by simpa using hne⟩
  rw [← hsame] at hmem
  simpa using (List.mem_filter.mp hmem).2

theorem updateMeter_faces {f : Meter → Except Fault Meter} (hf : ∀ m m', f m = .ok m' → face m' = face m)
    (hu : h.updateMeter i f = .ok h') : h'.meters.map face = h.meters.map face := by
  obtain ⟨m, m', hm, hfm, rfl⟩ := updateMeter_ok hu
  obtain ⟨hlt, rfl⟩ := List.getElem?_eq_some_iff.mp hm
  rw [List.map_set, hf _ m' hfm, ← List.map_set, List.set_getElem_self]

theorem fillProblems_faces (hf : fillProblems i ms k h = .ok h') :
    h'.meters.map face = h.meters.map face := by
  induction ms generalizing h k with
  | nil =>
    cases hf
    rfl
  | cons n ms ih =>
    unfold fillProblems at hf
    split_ifs at hf
    · cases hf
      rfl
    · obtain ⟨h₁, hu, hf⟩ := Outcome.bind_ok_iff.mp hf
      exact (ih hf).trans (updateMeter_faces (fun _ _ => Host.meterSet_face) hu)
    · exact ih hf

theorem meterSetcount_strings {m' : Meter} (hm : m.type = MTYPE_STR) (hn : n ≠ 0) (hfew : n < SZ_EMPTY_VAL)
    (hs : meterSetcount now m n = .ok m') : m'.Strings (List.replicate n .zero) := by
  have helems : elemCount n = n := if_neg hn
  have hassert : ¬ SZ_EMPTY_ARRAY < n := by
    unfold SZ_EMPTY_ARRAY
    unfold SZ_EMPTY_VAL at hfew
    omega
  unfold meterSetcount at hs
  dsimp only at hs
  rw [helems, if_neg hassert, if_neg (not_le_of_gt hfew), hm] at hs
  cases hs
  exact ⟨hm, by simp, by simpa using Nat.pos_of_ne_zero hn, by simpa using hfew, by simp⟩

theorem meterSetcount_count {m' : Meter} (hm : m.type = MTYPE_STR)
    (hs : meterSetcount now m n = .ok m') : m'.count = n := by
  unfold meterSetcount at hs
  dsimp only at hs
  rw [hm] at hs
  split_ifs at hs <;> cases hs <;> rfl

/-- What is filled in shows the problems of an array for strings exactly if all of them fit. -/
theorem showsProblems_strings {ids : List MeterId} (hids : ids = problemIds ms) (hsome : ids ≠ [])
    (h16 : ids.length ≤ 16)
    (hp : p.Strings (problemSlots ms ++ (List.replicate ids.length Slot.zero).drop (problemSlots ms).length)) :
    p.ShowsProblems ms ↔ ∀ m ∈ ms, m.badness ≠ 0 → 0 < m.badness ∧ ¬ (problemText m.id).Blank := by
  have hslots : (problemSlots ms).length ≤ ids.length := hids ▸ problemSlots_le ms
  have hlen : (problemSlots ms ++ (List.replicate ids.length Slot.zero).drop (problemSlots ms).length).length =
      ids.length := by
    rw [List.length_append, List.length_drop, List.length_replicate]
    omega
  have hcount : p.count = ids.length := hp.count.trans hlen
  unfold Meter.ShowsProblems
  rw [← hids, if_neg hsome, hcount, Nat.min_eq_left h16]
  simp only [true_and]
  constructor
  · intro hentries
    have hall : ids.length ≤ (problemSlots ms).length := by
      by_contra hfew
      obtain ⟨hget, hseen⟩ := hentries (problemSlots ms).length (by omega) _
        (List.getElem?_eq_getElem (by omega))
      rw [hp.get (by omega), Meter.str, hp.d, Option.bind_some, List.getElem?_append_right le_rfl,
        Nat.sub_self, List.getElem?_drop, List.getElem?_replicate, if_pos (by omega)] at hget
      rw [← Except.ok.inj hget] at hseen
      exact hseen blank_empty
    have hpos := badness_pos (hids ▸ hall)
    refine fun m hm hne => ⟨hpos m hm hne, ?_⟩
    have hmem : m.id ∈ ids := by
      rw [hids]
      exact List.mem_map_of_mem (List.mem_filter.mpr ⟨hm, by simpa using hne⟩)
    obtain ⟨i, hi⟩ := List.mem_iff_getElem?.mp hmem
    have hlt := (List.getElem?_eq_some_iff.mp hi).1
    exact (hentries i (by omega) _ hi).2
  · intro hall i _ id hid
    have hlt := (List.getElem?_eq_some_iff.mp hid).1
    have hmem : id ∈ problemIds ms := hids ▸ List.mem_of_getElem? hid
    obtain ⟨m, hm, rfl⟩ := List.mem_map.mp hmem
    obtain ⟨hm, hne⟩ := List.mem_filter.mp hm
    refine ⟨?_, (hall m hm (by simpa using hne)).2⟩
    have hsame := problemSlots_get fun m hm hne => (hall m hm hne).1
    rw [hp.get (by omega), Meter.str, hp.d, Option.bind_some, List.getElem?_append_left, hsame,
      List.getElem?_map, ← hids, hid]
    · rfl
    · rw [hsame, List.length_map, ← hids]
      exact hlt

/-- The host, with whatever badness, from where the meter for the problems is found. -/
def Host.afterLookup (h : Host) (b : ℚ) : Host := { (hostGetMeter h midProblems).1 with badness := b }

theorem problemMeter_eq (n : Nat) (total : ℚ) (h : Host) :
    ∃ b, problemMeter n total h =
      if n = 0 then
        (h.afterLookup b).updateMeter (problemsAt h.meters) fun m =>
          meterSetEmptyArray (h.afterLookup b).lastmodified m
      else
        ((h.afterLookup b).updateMeter (problemsAt h.meters) fun m =>
          meterSetcount (h.afterLookup b).lastmodified m n) >>= fun h' =>
            fillProblems (problemsAt h.meters) h'.meters 0 h' := by
  rw [← problemsAt_eq]
  unfold problemMeter Host.afterLookup midProblems
  by_cases hn : n = 0
  · refine ⟨decayed (hostGetMeter h (makeid (asc "problems") MTYPE_STR)).1.badness, ?_⟩
    simp [hn]
  · by_cases htotal : total = 0
    · refine ⟨(hostGetMeter h (makeid (asc "problems") MTYPE_STR)).1.badness * (9 / 10), ?_⟩
      simp [hn, htotal]
    · refine ⟨(hostGetMeter h (makeid (asc "problems") MTYPE_STR)).1.badness, ?_⟩
      simp [hn, htotal]

/-- What a lookup of the meter for the problems is good for. -/
theorem afterLookup_spec (h : Host) (b : ℚ) :
    Spares midProblems h (h.afterLookup b) ∧
      (h.afterLookup b).names[problemsAt h.meters]? = some (midProblems &&& MMASK_NAME) ∧
      problemSlots (h.afterLookup b).meters = problemSlots h.meters := by
  have hname := Host.names_hostGetMeter h midProblems
  rw [problemsAt_eq] at hname
  refine ⟨(hostGetMeter_spares h midProblems midProblems).trans (.of_meters rfl), hname, ?_⟩
  unfold Host.afterLookup hostGetMeter
  dsimp only
  split
  · rfl
  · simp [problemSlots, meterAlloc]

/-- What is filled into a meter that got its count. -/
theorem fillProblems_shows (hname : h.names[i]? = some (midProblems &&& MMASK_NAME))
    (hset : h.meters[i]? = some m') (hm' : meterSetcount now m n = .ok m') (hzero : n ≠ 0)
    (hn : n = (problemIds ms).length) (hslots : problemSlots h.meters = problemSlots ms) :
    ∃ h' p, fillProblems i h.meters 0 h = .ok h' ∧ Spares midProblems h h' ∧ h'.meters[i]? = some p ∧
      p.name = midProblems &&& MMASK_NAME ∧ (p.ShowsProblems ms ↔ n ≤ 16 ∧ m.type = MTYPE_STR ∧
        ∀ m ∈ ms, m.badness ≠ 0 → 0 < m.badness ∧ ¬ (problemText m.id).Blank) := by
  obtain ⟨h', hf⟩ : ∃ h', fillProblems i h.meters 0 h = .ok h' :=
    fillProblems_ok hset (meterSetcount_holds rfl hm')
  have hfill := fillProblems_spares hname hf
  obtain ⟨p, hp, hpname⟩ : ∃ p, h'.meters[i]? = some p ∧ p.name = midProblems &&& MMASK_NAME := by
    have hnamed := Host.names_later hfill.names hname
    rw [Host.names, List.getElem?_map, Option.map_eq_some_iff] at hnamed
    exact hnamed
  refine ⟨h', p, hf, hfill, hp, hpname, ?_⟩
  have hface : face p = face m' := by
    have hfaces := congrArg (·[i]?) (fillProblems_faces hf)
    simp only [List.getElem?_map, hp, hset, Option.map_some, Option.some_inj] at hfaces
    exact hfaces
  have hid : p.id = m.id := (congrArg Prod.fst hface).trans (meterSetcount_id hm')
  have hsome : problemIds ms ≠ [] := fun hnone => hzero (by rw [hn, hnone]; rfl)
  by_cases hfit : n ≤ 16 ∧ m.type = MTYPE_STR
  · have hstrings := meterSetcount_strings hfit.2 hzero (lt_of_le_of_lt hfit.1 (by decide)) hm'
    have hle : (problemSlots h.meters).length ≤ n := hslots ▸ hn ▸ problemSlots_le ms
    have hroom : 0 + (problemSlots h.meters).length ≤ (List.replicate n Slot.zero).length := by
      rw [List.length_replicate, Nat.zero_add]
      exact hle
    have h16 : 0 + (problemSlots h.meters).length ≤ 16 := by omega
    obtain ⟨h'', p', hf', hp', -, hp''⟩ := fillProblems_strings hset hstrings hroom h16
    cases hf.symm.trans hf'
    cases hp.symm.trans hp'
    rw [List.take_zero, List.nil_append, Nat.zero_add, hslots, hn] at hp''
    rw [showsProblems_strings rfl hsome (hn ▸ hfit.1) hp'']
    exact ⟨fun hall => ⟨hfit.1, hfit.2, hall⟩, fun hall => hall.2.2⟩
  · refine iff_of_false (fun hshows => hfit ?_) fun hall => hfit ⟨hall.1, hall.2.1⟩
    unfold Meter.ShowsProblems at hshows
    rw [if_neg hsome] at hshows
    obtain ⟨hcount, hentries⟩ := hshows
    obtain ⟨id, ids, hids⟩ := List.exists_cons_of_ne_nil hsome
    obtain ⟨hget, hseen⟩ := hentries 0 (by omega) id (by rw [hids]; rfl)
    have hptype := meterGetStr_type hget fun hempty => hseen (hempty ▸ blank_empty)
    have hmtype : m.type = MTYPE_STR := by rw [← hptype, Meter.type, Meter.type, hid]
    have hall : p.count = n := (congrArg Prod.snd hface).trans (meterSetcount_count hmtype hm')
    exact ⟨by omega, hmtype⟩

/-- Up to 31 problems the meter is made, and it shows them exactly if they can be listed. -/
theorem problemMeter_shows (total : ℚ) (hn : n = (problemIds h.meters).length) (hfew : n ≤ SZ_EMPTY_ARRAY) :
    ∃ h' p, problemMeter n total h = .ok h' ∧ Spares midProblems h h' ∧
      h'.meters[problemsAt h.meters]? = some p ∧ p.name = midProblems &&& MMASK_NAME ∧
      (p.ShowsProblems h.meters ↔ Listable h.meters) := by
  obtain ⟨b, heq⟩ := problemMeter_eq n total h
  obtain ⟨hspares, hname, hslots⟩ := afterLookup_spec h b
  obtain ⟨m, hm, htype⟩ := hostGetMeter_problems h
  change (h.afterLookup b).meters[problemsAt h.meters]? = some m at hm
  have hmname : m.name = midProblems &&& MMASK_NAME := by
    rw [Host.names, List.getElem?_map, hm] at hname
    exact Option.some.inj hname
  rw [heq]
  by_cases hzero : n = 0
  · rw [if_pos hzero]
    have hnone : problemIds h.meters = [] := List.length_eq_zero_iff.mp (hn.symm.trans hzero)
    obtain ⟨m', hm'⟩ := meterSetcount_ok (h.afterLookup b).lastmodified m le_rfl
    have hu := updateMeter_eq (f := fun m => meterSetEmptyArray (h.afterLookup b).lastmodified m) hm hm'
    refine ⟨_, m', hu, hspares.trans (.updateMeter hname (fun _ _ => meterSetcount_mark) hu),
      getElem?_set_of_some hm, (meterSetcount_name hm').trans hmname, ?_⟩
    have hshows : m'.ShowsProblems h.meters := by
      unfold Meter.ShowsProblems
      rw [if_pos hnone]
      cases hm'
      rfl
    have hlist : Listable h.meters := by
      refine ⟨by simp [hnone], fun m hm hne => ?_, fun hsome => absurd hnone hsome⟩
      have hmem : m.id ∈ problemIds h.meters :=
        List.mem_map_of_mem (List.mem_filter.mpr ⟨hm, by simpa using hne⟩)
      rw [hnone] at hmem
      cases hmem
    exact iff_of_true hshows hlist
  · rw [if_neg hzero]
    obtain ⟨m', hm'⟩ := meterSetcount_ok (h.afterLookup b).lastmodified m hfew
    have hu := updateMeter_eq (f := fun m => meterSetcount (h.afterLookup b).lastmodified m n) hm hm'
    have hcounted := Spares.updateMeter hname (fun _ _ => meterSetcount_mark) hu
    have hslots₂ := problemSlots_of_marks (updateMeter_marks (fun _ _ => meterSetcount_mark) hu)
    obtain ⟨h', p, hf, hfill, hp, hpname, hshows⟩ := fillProblems_shows (Host.names_later hcounted.names hname)
      (getElem?_set_of_some hm) hm' hzero hn (hslots₂.trans hslots)
    rw [hu]
    refine ⟨h', p, hf, hspares.trans (hcounted.trans hfill), hp, hpname, hshows.trans ?_⟩
    have hsome : problemIds h.meters ≠ [] := fun hnone => hzero (by rw [hn, hnone]; rfl)
    rw [Listable, htype, hn]
    exact ⟨fun h => ⟨h.1, h.2.2, fun _ => h.2.1⟩, fun h => ⟨h.1, h.2.2 hsome, h.2.1⟩⟩

theorem problemMeter_many (hn : SZ_EMPTY_ARRAY < n) : problemMeter n total h = .error .assertion := by
  obtain ⟨b, heq⟩ := problemMeter_eq n total h
  obtain ⟨m, hm, -⟩ := hostGetMeter_problems h
  change (h.afterLookup b).meters[problemsAt h.meters]? = some m at hm
  have hzero : n ≠ 0 := by omega
  have helems : elemCount n = n := if_neg hzero
  rw [heq, if_neg hzero]
  simp [Host.updateMeter, hm, meterSetcount, helems, hn]

/-! ### The round -/

theorem showsProblems_congr {ms' : List Meter} (hids : problemIds ms' = problemIds ms) :
    p.ShowsProblems ms' ↔ p.ShowsProblems ms := by
  unfold Meter.ShowsProblems
  rw [hids]

/-- The badness of the meters is written, and those that have some are counted. -/
theorem badnessRound_spec {ms' : List Meter} {count count' : Nat} {sum sum' : ℚ} {trig trig' : Watchtrigger}
    (hb : badnessRound r ms count sum trig = .ok (ms', count', sum', trig')) :
    ms'.map Meter.shape = ms.map Meter.shape ∧ count' = count + (problemIds ms').length := by
  induction ms generalizing count sum trig ms' with
  | nil =>
    cases hb
    exact ⟨rfl, rfl⟩
  | cons m ms ih =>
    obtain ⟨⟨b, trig₁⟩, -, hb⟩ := Outcome.bind_ok_iff.mp hb
    obtain ⟨⟨ms₁, rest⟩, hrest, hb⟩ := Outcome.bind_ok_iff.mp hb
    cases hb
    obtain ⟨hshapes, hcount⟩ := ih hrest
    refine ⟨by rw [List.map_cons, List.map_cons, hshapes]; rfl, ?_⟩
    rw [hcount]
    by_cases hzero : b = 0
    · simp [problemIds, hzero]
    · simp only [problemIds, ne_eq, hzero, not_false_eq_true, if_true, decide_true, List.filter_cons_of_pos,
        List.map_cons, List.length_cons]
      omega

theorem badnessPass_spec {empty : Bool} {ms' : List Meter} {trig : Watchtrigger}
    (hempty : empty = true → problemIds ms = [])
    (hb : badnessPass r empty ms = .ok (ms', n, total, trig)) :
    ms'.map Meter.shape = ms.map Meter.shape ∧ n = (problemIds ms').length := by
  unfold badnessPass at hb
  split at hb
  · rename_i hyes
    cases hb
    exact ⟨rfl, by rw [hempty hyes]; rfl⟩
  · simpa using badnessRound_spec hb

theorem roundStart_parts {s : Nat} {o : FString} (hs : roundStart r host = .ok (h, s, o)) :
    ∃ h₁, pingMeters r host = .ok h₁ ∧ s = (hostGetMeter h₁ midStatus).2 ∧
      readStatus (hostGetMeter h₁ midStatus).1 s = .ok o ∧
      ((hostGetMeter h₁ midStatus).1.updateMeter s fun m =>
        meterSetcount (hostGetMeter h₁ midStatus).1.lastmodified m 0) = .ok h := by
  obtain ⟨h₁, hping, hs⟩ := Outcome.bind_ok_iff.mp hs
  obtain ⟨ostatus, hread, hs⟩ := Outcome.bind_ok_iff.mp hs
  obtain ⟨h₂, hcount, hs⟩ := Outcome.bind_ok_iff.mp hs
  cases hs
  exact ⟨h₁, hping, rfl, hread, hcount⟩

theorem roundStart_ok {s : Nat} {o : FString} (hs : roundStart r host = .ok (h, s, o)) :
    h.lastmodified = host.lastmodified ∧ h.names[s]? = some (midStatus &&& MMASK_NAME) ∧
      (∃ m, h.meters[s]? = some m ∧ m.Holds MTYPE_STR 128) ∧
      (host.meters = [] → problemIds h.meters = []) := by
  obtain ⟨h₁, hping, rfl, -, hcount⟩ := roundStart_parts hs
  have hhead := (updateMeter_head hcount).trans ((hostGetMeter_head h₁ midStatus).trans (pingMeters_head hping))
  have hname := Host.names_hostGetMeter h₁ midStatus
  have hspares := (hostGetMeter_spares h₁ midStatus midStatus).trans
    (Spares.updateMeter hname (fun _ _ => meterSetcount_mark) hcount)
  have hnames := Host.names_updateMeter (fun _ _ => meterSetcount_name) hcount
  refine ⟨congrArg (fun h => h.lastmodified) hhead, hnames ▸ hname, ?_, fun hempty => ?_⟩
  · obtain ⟨m, m', hm, hm', rfl⟩ := updateMeter_ok hcount
    exact ⟨m', getElem?_set_of_some hm, meterSetcount_holds rfl hm'⟩
  · rw [pingMeters, hempty] at hping
    cases hping
    rw [hspares.ids, hempty]
    rfl

/-- The round behind its start, for a host that is stale. -/
theorem watchthreadHandleHost_end_stale {s : Nat} {o : FString} (hs : roundStart r host = .ok (h, s, o))
    (hstale : 80 < r.tnow - h.lastmodified) :
    ∃ report, watchthreadHandleHost r host =
      (h.updateMeter s fun m => meterSetStr h.lastmodified m 0 (asc "STALE")) >>= fun h' =>
        .ok ⟨if r.dbOpen ∧ ¬ r.hostExists then none else some h', report⟩ := by
  obtain ⟨h₁, hping, rfl, hread, hcount⟩ := roundStart_parts hs
  simp only [watchthreadHandleHost, hping, hread, hcount, Outcome.ok_bind, if_pos hstale]
  refine ⟨if (if o.str = [] then asc "UNSET" else o.str) ≠ asc "STALE" then some ⟨true, asc "STALE"⟩ else none,
    congrArg _ (funext fun h' => ?_)⟩
  by_cases hgone : r.dbOpen = true ∧ ¬ r.hostExists = true
  · simp only [if_pos hgone, Outcome.pure_ok]
  · simp only [if_neg hgone, Outcome.pure_ok]

/-- The round behind its start, for a host that is not. -/
theorem watchthreadHandleHost_end_fresh {s : Nat} {o : FString} (hs : roundStart r host = .ok (h, s, o))
    (hfresh : ¬ 80 < r.tnow - h.lastmodified) :
    ∃ report : Host → Option Report, watchthreadHandleHost r host =
      handleBadness r (host.meters = []) h >>= fun h₁ =>
        (h₁.updateMeter s fun m => meterSetStr h₁.lastmodified m 0 (statusText h₁.badness)) >>= fun h' =>
          .ok ⟨some h', report h₁⟩ := by
  obtain ⟨h₁, hping, rfl, hread, hcount⟩ := roundStart_parts hs
  simp only [watchthreadHandleHost, hping, hread, hcount, Outcome.ok_bind, if_neg hfresh]
  exact ⟨_, rfl⟩

theorem setFracMeter_ok (val : Double) (hm : h.meters[i]? = some m) : ∃ h', setFracMeter h i val = .ok h' := by
  obtain ⟨m₁, hm₁⟩ := meterSetcount_ok h.lastmodified m (Nat.zero_le _)
  obtain ⟨m₂, hm₂, -⟩ := meterSet_ok h.lastmodified 0 (.frac val)
    (meterSetcount_holds (show sizeofType MTYPE_FRAC = some 8 from rfl) hm₁)
  unfold setFracMeter
  rw [updateMeter_eq (f := fun m => meterSetcount h.lastmodified m 0) hm hm₁, Outcome.ok_bind]
  exact ⟨_, updateMeter_eq (f := fun m => meterSetFrac h.lastmodified m 0 val) (getElem?_set_of_some hm) hm₂⟩

/-- The meter for the badness is made, and none of another name is touched. -/
theorem badnessMeter_ok (h : Host) (val : Double) :
    ∃ h', setFracMeter (hostGetMeter h midBadness).1 (hostGetMeter h midBadness).2 val = .ok h' ∧
      Spares midBadness h h' := by
  have hname := Host.names_hostGetMeter h midBadness
  obtain ⟨m, hm, -⟩ : ∃ m, (hostGetMeter h midBadness).1.meters[(hostGetMeter h midBadness).2]? = some m ∧
      m.name = midBadness &&& MMASK_NAME := by
    rw [Host.names, List.getElem?_map, Option.map_eq_some_iff] at hname
    exact hname
  obtain ⟨h', hs⟩ := setFracMeter_ok val hm
  exact ⟨h', hs, (hostGetMeter_spares h midBadness midBadness).trans (setFracMeter_spares hname hs)⟩

theorem names_ne {id id' : MeterId} (hm : m.name = id &&& MMASK_NAME)
    (hne : id &&& MMASK_NAME ≠ id' &&& MMASK_NAME) : m.name ≠ id' &&& MMASK_NAME :=
  hm ▸ hne

/-- Once the meters have their badness: a round ends in the assertion, or it ends well and shows the
problems exactly if they can be listed. -/
theorem watchthreadHandleHost_fresh {s : Nat} {o : FString} {trig : Watchtrigger}
    (hs : roundStart r host = .ok (h, s, o)) (hfresh : ¬ 80 < r.tnow - h.lastmodified)
    (hpass : badnessPass r (host.meters = []) h.meters = .ok (ms, n, total, trig)) :
    SZ_EMPTY_ARRAY < (problemIds ms).length ∧ watchthreadHandleHost r host = .error .assertion ∨
      ∃ w h' p, watchthreadHandleHost r host = .ok w ∧ w.host = some h' ∧
        h'.meters[problemsAt ms]? = some p ∧ (p.ShowsProblems h'.meters ↔ Listable ms) := by
  obtain ⟨report, hend⟩ := watchthreadHandleHost_end_fresh hs hfresh
  obtain ⟨-, hsname, ⟨m, hm, hholds⟩, hempty⟩ := roundStart_ok hs
  obtain ⟨hshapes, hn⟩ := badnessPass_spec (fun he => hempty (of_decide_eq_true he)) hpass
  rw [hend, handleBadness, hpass, Outcome.ok_bind]
  dsimp only
  set g : Host := { h with meters := ms, badness := h.badness + cappedBadness trig h.badness total }
  obtain hmany | hfew := lt_or_ge SZ_EMPTY_ARRAY n
  · exact .inl ⟨hn ▸ hmany, by rw [problemMeter_many hmany]; rfl⟩
  right
  -- the meter for the status, with its new badness
  obtain ⟨m₁, hm₁, hshape⟩ : ∃ m₁, g.meters[s]? = some m₁ ∧ m₁.shape = m.shape := by
    have hget := congrArg (·[s]?) hshapes
    simp only [List.getElem?_map, hm, Option.map_some, Option.map_eq_some_iff] at hget
    exact hget
  have hm₁name : m₁.name = midStatus &&& MMASK_NAME := by
    rw [Host.names, List.getElem?_map, hm] at hsname
    have hname : m.name = midStatus &&& MMASK_NAME := Option.some.inj hsname
    rw [← hname, Meter.name, Meter.name, show m₁.id = m.id from congrArg Prod.fst hshape]
  obtain ⟨h₂, p, hproblem, hspares, hp, hpname, hshows⟩ :=
    problemMeter_shows (cappedBadness trig h.badness total) (h := g) hn hfew
  obtain ⟨h₃, hbadness, hspares'⟩ := badnessMeter_ok h₂
    (.fin (hostGetMeter h₂ midBadness).1.badness)
  have hm₂ := hspares.meter s m₁ hm₁ (names_ne hm₁name (by decide))
  have hm₃ := hspares'.meter s m₁ hm₂ (names_ne hm₁name (by decide))
  obtain ⟨m', hset, -⟩ := meterSet_ok h₃.lastmodified 0
    (.str (FString.strncpy (statusText h₃.badness))) (holds_of_shape hshape hholds)
  have hu := updateMeter_eq (f := fun m => meterSetStr h₃.lastmodified m 0 (statusText h₃.badness)) hm₃ hset
  have hlast : Spares midStatus h₃ _ := .updateMeter
    (by rw [Host.names, List.getElem?_map, hm₃, Option.map_some, hm₁name]) (fun _ _ => meterSet_mark) hu
  refine ⟨⟨some { h₃ with meters := h₃.meters.set s m' }, report h₃⟩, _, p, ?_, rfl, ?_, ?_⟩
  · change (problemMeter n (cappedBadness trig h.badness total) g >>= fun h₂ => setFracMeter
      (hostGetMeter h₂ midBadness).1 (hostGetMeter h₂ midBadness).2
      (.fin (hostGetMeter h₂ midBadness).1.badness)) >>= _ = _
    rw [hproblem, Outcome.ok_bind, hbadness, Outcome.ok_bind, hu, Outcome.ok_bind]
  · exact hlast.meter _ p (hspares'.meter _ p hp (names_ne hpname (by decide)))
      (names_ne hpname (by decide))
  · exact (showsProblems_congr (hlast.ids.trans (hspares'.ids.trans hspares.ids))).trans hshows

/-- The assertion only fails behind the start of a round. -/
theorem watchthreadHandleHost_assertion (hw : watchthreadHandleHost r host = .error .assertion) :
    ∃ h s o, roundStart r host = .ok (h, s, o) := by
  obtain hping | ⟨h₁, hping, hw⟩ := Outcome.bind_error_iff.mp hw
  · exact absurd hping pingMeters_ne_assertion
  unfold roundStart
  rw [hping, Outcome.ok_bind]
  generalize hostGetMeter h₁ midStatus = g at hw ⊢
  obtain ⟨h₁, m_status⟩ := g
  obtain hread | ⟨o, hread, hw⟩ := Outcome.bind_error_iff.mp hw
  · exact absurd hread readStatus_ne_assertion
  obtain hcount | ⟨h₂, hcount, -⟩ := Outcome.bind_error_iff.mp hw
  · refine absurd hcount (updateMeter_ne_assertion fun m => ?_)
    obtain ⟨m', hm'⟩ := meterSetcount_ok h₁.lastmodified m (Nat.zero_le _)
    exact hm' ▸ by simp
  · exact ⟨h₂, m_status, o, by simp [hread, hcount]⟩

theorem problemsAt_name (hp : ms[problemsAt ms]? = some p) : p.name = midProblems &&& MMASK_NAME := by
  have hname := Host.names_hostGetMeter { hostAlloc ⟨0, 0⟩ with meters := ms } midProblems
  have hgrows := (Host.Touched.hostGetMeter { hostAlloc ⟨0, 0⟩ with meters := ms } midProblems).grows
  have hhere : ({ hostAlloc ⟨0, 0⟩ with meters := ms } : Host).names[problemsAt ms]? = some p.name := by
    rw [Host.names, List.getElem?_map, hp, Option.map_some]
  have hlater := Host.names_later hgrows hhere
  rw [problemsAt] at hlater
  exact Option.some.inj (hlater.symm.trans hname)

/-- The status of a stale host is not about its problems. -/
theorem watchthreadHandleHost_stale_problems {s : Nat} {o : FString}
    (hs : roundStart r host = .ok (h, s, o)) (hstale : 80 < r.tnow - h.lastmodified) :
    ∃ w h', watchthreadHandleHost r host = .ok w ∧
      w.host = (if r.dbOpen ∧ ¬ r.hostExists then none else some h') ∧
      h'.meters[problemsAt h.meters]? = h.meters[problemsAt h.meters]? ∧
      problemIds h'.meters = problemIds h.meters := by
  obtain ⟨report, hend⟩ := watchthreadHandleHost_end_stale hs hstale
  obtain ⟨-, hsname, ⟨m, hm, hholds⟩, -⟩ := roundStart_ok hs
  obtain ⟨m', hset, -⟩ := meterSet_ok h.lastmodified 0 (.str (FString.strncpy (asc "STALE"))) hholds
  have hu := updateMeter_eq (f := fun m => meterSetStr h.lastmodified m 0 (asc "STALE")) hm hset
  refine ⟨⟨if r.dbOpen ∧ ¬ r.hostExists then none else some { h with meters := h.meters.set s m' }, report⟩,
    _, ?_, rfl, ?_, (Spares.updateMeter hsname (fun _ _ => meterSet_mark) hu).ids⟩
  · rw [hend, hu, Outcome.ok_bind]
  · apply List.getElem?_set_ne
    rintro rfl
    rw [Host.names, List.getElem?_map, hm] at hsname
    have hname := problemsAt_name hm
    rw [Option.some.inj hsname] at hname
    exact absurd hname (by decide)

/-- A round shows the problems of a host, and does not fail its assertion, exactly if they can be
listed. It does not come to those of a stale host: they are shown before, or the host is removed. -/
theorem problemsRight_iff : ProblemsRight r host ↔ ∀ ms, roundMeters r host = .ok ms →
    if 80 < r.tnow - host.lastmodified then
      Reaped r host ∨ ∃ p, ms[problemsAt ms]? = some p ∧ p.ShowsProblems ms
    else Listable ms := by
  constructor
  · rintro ⟨hassert, hright⟩ ms hms
    obtain ⟨⟨h, s, o⟩, hs, hend⟩ := Outcome.bind_ok_iff.mp hms
    have hlast := (roundStart_ok hs).1
    dsimp only at hend
    split_ifs at hend with hstale
    · cases hend
      rw [← hlast, if_pos hstale]
      obtain ⟨w, h', hw, hhost, hp, hids⟩ := watchthreadHandleHost_stale_problems hs hstale
      by_cases hgone : r.dbOpen = true ∧ ¬ r.hostExists = true
      · exact .inl ⟨hlast ▸ hstale, hgone.1, by simpa using hgone.2⟩
      · rw [if_neg hgone] at hhost
        obtain ⟨p, hp', hshows⟩ := hright _ w h' hms hw hhost
        exact .inr ⟨p, hp ▸ hp', (showsProblems_congr hids).mp hshows⟩
    · obtain ⟨⟨ms', n, total, trig⟩, hpass, hend⟩ := Outcome.bind_ok_iff.mp hend
      cases hend
      rw [← hlast, if_neg hstale]
      obtain ⟨-, hfails⟩ | ⟨w, h', p, hw, hhost, hp, hshows⟩ := watchthreadHandleHost_fresh hs hstale hpass
      · exact absurd hfails hassert
      · obtain ⟨p', hp', hshows'⟩ := hright _ w h' hms hw hhost
        cases hp.symm.trans hp'
        exact hshows.mp hshows'
  · intro hms
    refine ⟨fun hw => ?_, fun ms w h' hms' hw hhost => ?_⟩
    · obtain ⟨h, s, o, hs⟩ := watchthreadHandleHost_assertion hw
      by_cases hstale : 80 < r.tnow - h.lastmodified
      · obtain ⟨w, -, hw', -⟩ := watchthreadHandleHost_stale_problems hs hstale
        cases hw.symm.trans hw'
      · cases hpass : badnessPass r (host.meters = []) h.meters with
        | error e =>
          obtain ⟨report, hend⟩ := watchthreadHandleHost_end_fresh hs hstale
          rw [hend, handleBadness, hpass] at hw
          cases hw
          exact badnessPass_ne_assertion hpass
        | ok res =>
          obtain ⟨ms, n, total, trig⟩ := res
          have hlist := hms ms (by simp [roundMeters, hs, hstale, hpass])
          rw [← (roundStart_ok hs).1, if_neg hstale] at hlist
          obtain ⟨hmany, -⟩ | ⟨w, -, -, hw', -⟩ := watchthreadHandleHost_fresh hs hstale hpass
          · exact absurd (hmany.trans_le hlist.1) (by decide)
          · cases hw.symm.trans hw'
    · have hlist := hms ms hms'
      obtain ⟨⟨h, s, o⟩, hs, hend⟩ := Outcome.bind_ok_iff.mp hms'
      rw [← (roundStart_ok hs).1] at hlist
      dsimp only at hend
      split_ifs at hend hlist with hstale
      · cases hend
        obtain ⟨w', h'', hw', hhost', hp, hids⟩ := watchthreadHandleHost_stale_problems hs hstale
        cases hw.symm.trans hw'
        rw [hhost] at hhost'
        split_ifs at hhost' with hgone
        cases hhost'
        obtain ⟨-, hopen, hno⟩ | ⟨p, hp', hshows⟩ := hlist
        · exact absurd ⟨hopen, by simp [hno]⟩ hgone
        · exact ⟨p, hp.trans hp', (showsProblems_congr hids).mpr hshows⟩
      · obtain ⟨⟨ms', n, total, trig⟩, hpass, hend⟩ := Outcome.bind_ok_iff.mp hend
        cases hend
        obtain ⟨-, hfails⟩ | ⟨w', h'', p, hw', hhost', hp, hshows⟩ :=
          watchthreadHandleHost_fresh hs hstale hpass
        · cases hw.symm.trans hfails
        · cases hw.symm.trans hw'
          cases hhost.symm.trans hhost'
          exact ⟨p, hp, hshows.mpr hlist⟩

/-- The names `a`, `aa`, `ab` and so on. -/
def crowdMeter (k : Nat) : Meter :=
  ⟨0x0200000000000000 ||| BitVec.ofNat 64 k <<< 52, 1, 0, some ⟨8, [.int 5]⟩, 0⟩

def crowdHost (n : Nat) : Host :=
  { hostAlloc ⟨0, 0⟩ with lastmodified := 1, meters := (List.range n).map crowdMeter, mcount := n }

/-- Every meter of the crowd is above its limit. -/
def crowdRound (n : Nat) : Round where
  tnow := 2
  watch := (List.range n).map fun k => ⟨.warn, (crowdMeter k).id, .uintGt 0, 5⟩
  global := []
  adjust := []
  ping _ := (.fin 0, .fin 0)
  dbOpen := false
  hostExists := false

/-- A run that ends in a failed assertion. -/
def asserts (w : Except Fault Watched) : Bool :=
  match w with
  | .error .assertion => true
  | _ => false

theorem crowd_asserts : asserts (watchthreadHandleHost (crowdRound 32) (crowdHost 32)) = true := by
  decide +kernel

/-- Two and thirty problems are more than a count can tell. -/
theorem crowd_not_listed : ¬ ∀ r host, r.tnow - host.lastmodified ≤ 80 → ProblemsRight r host := by
  intro hall
  have hno := (hall (crowdRound 32) (crowdHost 32) (by decide)).1
  have hfails := crowd_asserts
  unfold asserts at hfails
  split at hfails
  · exact hno ‹_›
  · cases hfails

end Opticon
