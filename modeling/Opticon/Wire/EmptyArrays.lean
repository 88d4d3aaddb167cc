import Opticon.Meter.PrefixLaws
import Opticon.Wire.RecordLaws

/-! Records of an empty array, and the meters under their name. -/

namespace Opticon

variable {h h' : Host} {mid pfx id : MeterId} {s s' : DecodeState}

def Meter.emptied (now : Nat) (m : Meter) : Meter :=
  { m with count := SZ_EMPTY_ARRAY, lastmodified := now, d := none }

theorem meterSetEmptyArray_eq (now : Nat) (m : Meter) :
    meterSetEmptyArray now m = .ok (m.emptied now) :=
  meterSetcount_empty (by decide) le_rfl

/-- The host with every meter under a name set to an empty array. -/
def Host.cleared (h : Host) (pfx : MeterId) : Host :=
  { h with meters := h.meters.map fun m => if IsChild pfx m.id then m.emptied h.lastmodified else m }

/-- The host with the meters emptied that are found from a position on. -/
def Host.clearedFrom (h : Host) (pfx : MeterId) (start : Nat) : Host :=
  { h with
    meters := h.meters.mapIdx fun k m =>
      if start ≤ k ∧ isUnder pfx m.id = true then m.emptied h.lastmodified else m }

theorem hostFindPrefix_found {prev : Option Nat} {j : Nat} (hj : hostFindPrefix h pfx prev = some j) :
    ∃ m, h.meters[j]? = some m ∧ isUnder pfx m.id = true ∧ prev.getD 0 + 1 ≤ j ∧
      ∀ k m', prev.getD 0 + 1 ≤ k → k < j → h.meters[k]? = some m' → isUnder pfx m'.id = false := by
  obtain ⟨i, hi, rfl⟩ := Option.map_eq_some_iff.mp hj
  obtain ⟨hlt, hp, hmin⟩ := List.findIdx?_eq_some_iff_getElem.mp hi
  rw [List.getElem_drop] at hp
  rw [List.length_drop] at hlt
  refine ⟨h.meters[prev.getD 0 + 1 + i], ?_, hp, by omega, ?_⟩
  · rw [Nat.add_comm, List.getElem?_eq_getElem]
  · intro k m' hk hlt' hm'
    obtain ⟨hk', rfl⟩ := List.getElem?_eq_some_iff.mp hm'
    have hno := hmin (k - (prev.getD 0 + 1)) (by omega)
    simp only [List.getElem_drop, Nat.add_sub_cancel' hk] at hno
    simpa [isUnder] using hno

theorem hostFindPrefix_passed {prev : Option Nat} (hn : hostFindPrefix h pfx prev = none) {k : Nat} {m : Meter}
    (hk : prev.getD 0 + 1 ≤ k) (hm : h.meters[k]? = some m) : isUnder pfx m.id = false := by
  have hno := List.findIdx?_eq_none_iff.mp (Option.map_eq_none_iff.mp hn)
  have hmem : m ∈ h.meters.drop (prev.getD 0 + 1) := by
    refine List.mem_of_getElem? (i := k - (prev.getD 0 + 1)) ?_
    rw [List.getElem?_drop, Nat.add_sub_cancel' hk, hm]
  exact hno m hmem

theorem emptyPrefixed_eq {n : Nat} (prev : Option Nat) (hn : h.meters.length ≤ prev.getD 0 + 1 + n) :
    emptyPrefixed pfx n (hostFindPrefix h pfx prev) h = .ok (h.clearedFrom pfx (prev.getD 0 + 1)) := by
  have hdone {h : Host} {start : Nat}
      (hno : ∀ k m, start ≤ k → h.meters[k]? = some m → isUnder pfx m.id = false) :
      h.clearedFrom pfx start = h := by
    have hmeters : (h.meters.mapIdx fun k m =>
        if start ≤ k ∧ isUnder pfx m.id = true then m.emptied h.lastmodified else m) = h.meters := by
      apply List.ext_getElem?
      intro k
      rw [List.getElem?_mapIdx]
      cases hm : h.meters[k]? with
      | none => rfl
      | some m =>
        rw [Option.map_some, if_neg]
        rintro ⟨hk, hunder⟩
        exact absurd hunder (by simp [hno k m hk hm])
    rw [Host.clearedFrom, hmeters]
  induction n generalizing h prev with
  | zero =>
    have hout : h.clearedFrom pfx (prev.getD 0 + 1) = h := by
      apply hdone
      intro k m hk hm
      have hlt := (List.getElem?_eq_some_iff.mp hm).1
      omega
    rw [hout]
    cases hostFindPrefix h pfx prev <;> rfl
  | succ n ih =>
    cases hf : hostFindPrefix h pfx prev with
    | none =>
      rw [hdone fun k m hk hm => hostFindPrefix_passed hf hk hm]
      rfl
    | some j =>
      obtain ⟨m, hm, hunder, hj, hmin⟩ := hostFindPrefix_found hf
      have hu : h.updateMeter j (meterSetEmptyArray h.lastmodified) =
          .ok { h with meters := h.meters.set j (m.emptied h.lastmodified) } := by
        simp [Host.updateMeter, hm, meterSetEmptyArray_eq]
      simp only [emptyPrefixed, hu, Outcome.ok_bind]
      rw [ih (some j) (by simp only [List.length_set, Option.getD_some]; omega)]
      refine congrArg Except.ok ?_
      unfold Host.clearedFrom
      dsimp only
      congr 1
      apply List.ext_getElem?
      intro k
      simp only [List.getElem?_mapIdx, Option.getD_some]
      obtain hlt | rfl | hgt := lt_trichotomy k j
      · rw [List.getElem?_set_ne (by omega)]
        cases hm' : h.meters[k]? with
        | none => rfl
        | some m' =>
          have hno : ¬ (prev.getD 0 + 1 ≤ k ∧ isUnder pfx m'.id = true) := by
            rintro ⟨hk, hunder'⟩
            exact absurd hunder' (by simp [hmin k m' hk hlt hm'])
          rw [Option.map_some, Option.map_some, if_neg (by omega), if_neg hno]
      · rw [List.getElem?_set_self (List.getElem?_eq_some_iff.mp hm).1, hm, Option.map_some,
          Option.map_some, if_neg (by omega), if_pos ⟨hj, hunder⟩]
      · rw [List.getElem?_set_ne (by omega)]
        have hk : prev.getD 0 + 1 ≤ k := by omega
        have hk' : j + 1 ≤ k := hgt
        simp only [hk, hk', true_and]

/-- The search of a record with an empty array passes the first meter by. -/
def SearchFinds (h : Host) (mid : MeterId) : Prop :=
  ¬ Unsearchable mid ∧ ∃ m ∈ h.meters.tail, IsChild mid m.id

theorem searchFinds_iff : (hostFindPrefix h mid none).isSome ↔ SearchFinds h mid := by
  have hfind : (hostFindPrefix h mid none).isSome ↔ ∃ m ∈ h.meters.tail, isUnder mid m.id = true := by
    rw [← List.drop_one]
    unfold hostFindPrefix
    simp only [Option.isSome_map, List.findIdx?_isSome, List.any_eq_true]
    rfl
  rw [hfind, SearchFinds]
  constructor
  · rintro ⟨m, hm, hunder⟩
    obtain ⟨hsearch, hchild⟩ := isUnder_iff.mp hunder
    exact ⟨hsearch, m, hm, hchild⟩
  · rintro ⟨hsearch, m, hm, hchild⟩
    exact ⟨m, hm, isUnder_iff.mpr ⟨hsearch, hchild⟩⟩

/-- The children of a name among these meters are empty arrays of this update already. -/
def AlreadyEmpty (now : Nat) (mid : MeterId) (ms : List Meter) : Prop :=
  ∀ m ∈ ms, IsChild mid m.id → m.emptied now = m

theorem map_emptied_iff {now : Nat} {ms : List Meter} :
    (ms.map fun m => if IsChild mid m.id then m.emptied now else m) = ms ↔ AlreadyEmpty now mid ms := by
  have hself : ms = ms.map id := (List.map_id _).symm
  conv_lhs => rhs; rw [hself]
  rw [List.map_inj_left]
  refine forall₂_congr fun m hm => ?_
  by_cases hchild : IsChild mid m.id
  · simp [hchild]
  · simp [hchild]

theorem withMeters_inj {ms ms' : List Meter} :
    ({ h with meters := ms } : Host) = { h with meters := ms' } ↔ ms = ms' :=
  ⟨congrArg Host.meters, fun heq => by rw [heq]⟩

/-- With the children behind the first meter all are emptied, if that one need not be. -/
theorem clearedFrom_eq_iff (hsearch : ¬ Unsearchable mid) :
    h.clearedFrom mid 1 = h.cleared mid ↔ AlreadyEmpty h.lastmodified mid h.meters.head?.toList := by
  unfold Host.clearedFrom Host.cleared
  rw [withMeters_inj]
  cases h.meters with
  | nil => simp [AlreadyEmpty]
  | cons m ms =>
    have htail : (ms.mapIdx fun k m =>
        if 1 ≤ k + 1 ∧ isUnder mid m.id = true then m.emptied h.lastmodified else m) =
        ms.map fun m => if IsChild mid m.id then m.emptied h.lastmodified else m := by
      apply List.ext_getElem?
      simp [isUnder_iff, hsearch]
    rw [List.mapIdx_cons, htail, List.map_cons, if_neg (by omega), List.cons_eq_cons, and_iff_left rfl]
    simp only [AlreadyEmpty, List.head?_cons, Option.toList_some, List.forall_mem_singleton]
    by_cases hchild : IsChild mid m.id
    · simp [hchild, eq_comm]
    · simp [hchild]

/-- The record succeeds; of the host it changes the meters under its name, and those are empty arrays
then. -/
def ClearsChildren (s : DecodeState) (mid : MeterId) : Prop :=
  ∃ s', decodeRecord s mid = .ok (true, s') ∧ s'.host = s.host.cleared mid

theorem clearsChildren_found (hcount : (mid &&& MMASK_COUNT).toNat = SZ_EMPTY_ARRAY)
    (hfinds : SearchFinds s.host mid) :
    ClearsChildren s mid ↔ AlreadyEmpty s.host.lastmodified mid s.host.meters.head?.toList := by
  obtain ⟨crsr, hcrsr⟩ := Option.isSome_iff_exists.mp (searchFinds_iff.mpr hfinds)
  have hempty := @emptyPrefixed_eq s.host mid s.host.meters.length none (by simp)
  rw [hcrsr] at hempty
  have hd : decodeRecord s mid = .ok (true, { s with host := s.host.clearedFrom mid 1 }) := by
    simp [decodeRecord, hcount, decodeEmptyArray, hcrsr, hempty]
  rw [← clearedFrom_eq_iff hfinds.1]
  unfold ClearsChildren
  rw [hd]
  constructor
  · rintro ⟨s', hs', hhost⟩
    cases hs'
    exact hhost
  · intro hhost
    exact ⟨_, rfl, hhost⟩

/-- The record has no meter to displace. -/
def DisplacesNone (s : DecodeState) (mid : MeterId) : Prop :=
  idgetprefix mid = 0 ∨ idgetprefix mid = s.lastpfx ∨ s.host.Displaced mid

theorem remaining_of_displacesNone (h : DisplacesNone s mid) :
    s.host.remaining s.lastpfx mid = s.host := by
  unfold Host.remaining
  split
  · rename_i hp
    obtain hzero | hlast | hdisplaced := h
    · exact absurd hzero hp.1
    · exact absurd hlast hp.2
    · exact without_of_none (hostFindMeterName_none.mpr hdisplaced)
  · rfl

theorem displacesNone_of_names (h : (s.host.remaining s.lastpfx mid).names = s.host.names) :
    DisplacesNone s mid := by
  unfold DisplacesNone
  by_contra hno
  simp only [not_or] at hno
  obtain ⟨hzero, hlast, hdisplaced⟩ := hno
  rw [Host.remaining, if_pos ⟨hzero, hlast⟩, without_names, List.filter_eq_self] at h
  rw [displaced_iff, not_not] at hdisplaced
  simpa using h _ hdisplaced

/-- There is nothing to do about the meter of the record's own name: it is an empty array of this
update and of the record's type, or there is none and the host is full. -/
def OwnSettled (h : Host) (mid : MeterId) : Prop :=
  (∀ m, h.named mid = some m → m.emptied h.lastmodified = m ∧ m.type = mid &&& MMASK_TYPE) ∧
    (h.named mid = none → default_host_max_meters < h.mcount)

theorem cleared_names (h : Host) (pfx : MeterId) : (h.cleared pfx).names = h.names := by
  rw [Host.names, Host.cleared, List.map_map, Host.names]
  apply List.map_congr_left
  intro m _
  simp only [Function.comp]
  split <;> rfl

theorem cleared_eq_iff : h.cleared mid = h ↔ AlreadyEmpty h.lastmodified mid h.meters :=
  withMeters_inj.trans map_emptied_iff

theorem retyped_eq_iff {id : MeterId} :
    id &&& (MMASK_NAME ||| MMASK_COUNT) ||| mid &&& MMASK_TYPE = id ↔
      id &&& MMASK_TYPE = mid &&& MMASK_TYPE := by
  constructor
  · intro h
    conv_lhs => rw [← h]
    exact retyped_type id mid
  · intro h
    rw [← h, ← BitVec.and_or_distrib_left]
    have hall : MMASK_NAME ||| MMASK_COUNT ||| MMASK_TYPE = BitVec.allOnes 64 := by decide
    rw [hall, BitVec.and_allOnes]

theorem hostFindMeterName_names (h : Host) (id : MeterId) :
    hostFindMeterName h id = h.names.findIdx? fun name => name == id &&& MMASK_NAME := by
  rw [hostFindMeterName, Host.names, List.findIdx?_map]
  rfl

theorem named_none : h.named mid = none ↔ hostFindMeterName h mid = none := by
  simp [Host.named, hostFindMeterName]

/-- A record that finds no children and displaces nothing makes an empty array of the meter of its
own name, and gives it its type. -/
theorem decodeRecord_own {i : Nat} {m : Meter} (hcount : (mid &&& MMASK_COUNT).toNat = SZ_EMPTY_ARRAY)
    (hno : hostFindPrefix s.host mid none = none) (hdisplaces : DisplacesNone s mid)
    (hi : hostFindMeterName s.host mid = some i) (hm : s.host.meters[i]? = some m) :
    ∃ s', decodeRecord s mid = .ok (true, s') ∧ s'.host = { s.host with
      meters := s.host.meters.set i { m.emptied s.host.lastmodified with
        id := m.id &&& (MMASK_NAME ||| MMASK_COUNT) ||| mid &&& MMASK_TYPE } } := by
  have hlt := (List.getElem?_eq_some_iff.mp hm).1
  set h₁ : Host := { s.host with meters := s.host.meters.set i (m.emptied s.host.lastmodified) } with hh₁
  have hu : s.host.updateMeter i (meterSetEmptyArray s.host.lastmodified) = .ok h₁ := by
    simp [Host.updateMeter, hm, meterSetEmptyArray_eq, hh₁]
  have hempty : decodeEmptyArray s.host mid = .ok (false, h₁) := by
    simp [decodeEmptyArray, hno, hi, hu]
  have hnames : h₁.names = s.host.names := Host.names_updateMeter (fun m m' => meterSetcount_name) hu
  have hdisplaces₁ : DisplacesNone { s with host := h₁ } mid := by
    unfold DisplacesNone at hdisplaces ⊢
    rw [displaced_iff] at hdisplaces ⊢
    rwa [hnames]
  have hhost := (decodeDisplace_host { s with host := h₁ } mid).trans (remaining_of_displacesNone hdisplaces₁)
  have htarget : decodeTarget h₁ mid = (h₁, some i) := by
    rw [hostFindMeterName_names, ← hnames, ← hostFindMeterName_names] at hi
    rw [decodeTarget, hi]
  have hsetup : h₁.updateMeter i (decodeSetup h₁.lastmodified mid SZ_EMPTY_ARRAY) = .ok { s.host with
      meters := s.host.meters.set i { m.emptied s.host.lastmodified with
        id := m.id &&& (MMASK_NAME ||| MMASK_COUNT) ||| mid &&& MMASK_TYPE } } := by
    have hm₁ : h₁.meters[i]? = some (m.emptied s.host.lastmodified) := by simp [hh₁, hlt]
    have hcount₁ := meterSetEmptyArray_eq h₁.lastmodified (m.emptied s.host.lastmodified)
    rw [meterSetEmptyArray] at hcount₁
    simp [Host.updateMeter, hm₁, decodeSetup, hcount₁]
    simp [hh₁, Meter.emptied]
  refine ⟨{ decodeDisplace { s with host := h₁ } mid with host := _ }, ?_, rfl⟩
  have hge : SZ_EMPTY_VAL ≤ elemCount SZ_EMPTY_ARRAY := by decide
  simp only [decodeRecord, hcount, if_true, hempty, Outcome.ok_bind, Bool.false_eq_true, if_false,
    decodeMeter, hhost, htarget, Host.updateTarget, hsetup, hge, Outcome.pure_ok]

theorem not_isChild_self (hname : id &&& MMASK_NAME = mid &&& MMASK_NAME) : ¬ IsChild mid id := by
  intro hchild
  have hsame : idName id = idName mid := by rw [idName, idChars_of_name_eq hname, idName]
  have hlen := List.IsPrefix.length_le hchild
  rw [hsame, List.length_append, List.length_singleton] at hlen
  omega

/-- A record that clears leaves the names as they are. -/
theorem names_of_clears (hsearch : hostFindPrefix s.host mid none = none)
    (hd : decodeRecord s mid = .ok (true, s')) (hhost : s'.host = s.host.cleared mid) :
    (s.host.remaining s.lastpfx mid).namesAfter mid = s.host.names := by
  obtain ⟨hchildren, -⟩ | ⟨-, hnames, -⟩ := decodeRecord_names hd
  · simp [EmptiesChildren, hsearch] at hchildren
  · rw [← hnames, hhost, cleared_names]

theorem clearsChildren_new (hcount : (mid &&& MMASK_COUNT).toNat = SZ_EMPTY_ARRAY)
    (hsearch : hostFindPrefix s.host mid none = none) (hf : hostFindMeterName s.host mid = none) :
    ClearsChildren s mid ↔ AlreadyEmpty s.host.lastmodified mid s.host.meters ∧
      DisplacesNone s mid ∧ OwnSettled s.host mid := by
  have hempties : ¬ EmptiesChildren s.host mid := fun h => by simp [EmptiesChildren, hsearch] at h
  have hout : mid &&& MMASK_NAME ∉ s.host.names := by simp [mem_names, hf]
  have hskip (hfull : default_host_max_meters < s.host.mcount) (hnone : DisplacesNone s mid) :
      ∃ s', decodeRecord s mid = .ok (true, s') ∧ s'.host = s.host := by
    have hremaining := remaining_of_displacesNone hnone
    obtain ⟨ok, s', hd, hhost⟩ :=
      (skipped hempties (by rwa [hremaining]) (by rwa [hremaining])).host
    have hplace := decodeRecord_place hd
    rw [skipRecord, hcount] at hplace
    obtain ⟨rfl, -⟩ := Prod.mk.inj hplace
    exact ⟨s', hd, hhost.trans hremaining⟩
  have hown : OwnSettled s.host mid ↔ default_host_max_meters < s.host.mcount := by
    simp [OwnSettled, named_none.mpr hf]
  rw [hown]
  constructor
  · rintro ⟨s', hd, hhost⟩
    have hkept := names_of_clears hsearch hd hhost
    have hfull : default_host_max_meters < (s.host.remaining s.lastpfx mid).mcount := by
      by_contra hroom
      rw [namesAfter_new (by rwa [remaining_own]) (not_lt.mp hroom)] at hkept
      exact hout (hkept ▸ List.mem_append_right _ List.mem_cons_self)
    rw [namesAfter_kept (.inr hfull)] at hkept
    have hnone := displacesNone_of_names hkept
    rw [remaining_of_displacesNone hnone] at hfull
    obtain ⟨s'', hd', hhost'⟩ := hskip hfull hnone
    rw [hd] at hd'
    cases hd'
    exact ⟨cleared_eq_iff.mp (hhost.symm.trans hhost'), hnone, hfull⟩
  · rintro ⟨hempty, hnone, hfull⟩
    obtain ⟨s', hd, hhost⟩ := hskip hfull hnone
    exact ⟨s', hd, hhost.trans (cleared_eq_iff.mpr hempty).symm⟩

theorem clearsChildren_own {i : Nat} (hcount : (mid &&& MMASK_COUNT).toNat = SZ_EMPTY_ARRAY)
    (hsearch : hostFindPrefix s.host mid none = none) (hf : hostFindMeterName s.host mid = some i) :
    ClearsChildren s mid ↔ AlreadyEmpty s.host.lastmodified mid s.host.meters ∧
      DisplacesNone s mid ∧ OwnSettled s.host mid := by
  obtain ⟨m, hm, hname, hnamed⟩ := hostFindMeterName_some hf
  have hown : OwnSettled s.host mid ↔
      m.emptied s.host.lastmodified = m ∧ m.type = mid &&& MMASK_TYPE := by
    simp [OwnSettled, Host.named, hnamed]
  have hin : mid &&& MMASK_NAME ∈ (s.host.remaining s.lastpfx mid).names := by
    rw [remaining_own, mem_names, hf]
    simp
  have hchild : ¬ IsChild mid m.id := not_isChild_self hname
  have hlt := (List.getElem?_eq_some_iff.mp hm).1
  rw [hown]
  constructor
  · rintro ⟨s', hd, hhost⟩
    have hkept := names_of_clears hsearch hd hhost
    rw [namesAfter_kept (.inl hin)] at hkept
    have hnone := displacesNone_of_names hkept
    obtain ⟨s'', hd', hhost'⟩ := decodeRecord_own hcount hsearch hnone hf hm
    rw [hd] at hd'
    cases hd'
    have hmeters := withMeters_inj.mp (hhost.symm.trans hhost')
    have hat (k : Nat) := congrArg (·[k]?) hmeters
    have hself := hat i
    rw [List.getElem?_map, hm, Option.map_some, if_neg hchild, List.getElem?_set_self hlt,
      Option.some_inj] at hself
    have hempty : m.emptied s.host.lastmodified = m := by
      calc m.emptied s.host.lastmodified = { { m.emptied s.host.lastmodified with
              id := m.id &&& (MMASK_NAME ||| MMASK_COUNT) ||| mid &&& MMASK_TYPE } with id := m.id } := rfl
        _ = m := by rw [← hself]
    refine ⟨?_, hnone, hempty, retyped_eq_iff.mp (congrArg Meter.id hself).symm⟩
    intro m' hm' hchild'
    obtain ⟨k, hk⟩ := List.mem_iff_getElem?.mp hm'
    have hne : i ≠ k := by
      rintro rfl
      rw [hm, Option.some_inj] at hk
      exact hchild (hk ▸ hchild')
    have hother := hat k
    rw [List.getElem?_map, hk, Option.map_some, if_pos hchild', List.getElem?_set_ne hne, hk,
      Option.some_inj] at hother
    exact hother
  · rintro ⟨hempty, hnone, hm', htype⟩
    obtain ⟨s', hd, hhost⟩ := decodeRecord_own hcount hsearch hnone hf hm
    refine ⟨s', hd, hhost.trans ?_⟩
    rw [hm', retyped_eq_iff.mpr htype, cleared_eq_iff.mpr hempty]
    have hset : s.host.meters.set i m = s.host.meters := by
      obtain ⟨_, rfl⟩ := List.getElem?_eq_some_iff.mp hm
      exact List.set_getElem_self _
    exact withMeters_inj.mpr hset

theorem clearsChildren_unfound (hcount : (mid &&& MMASK_COUNT).toNat = SZ_EMPTY_ARRAY)
    (hno : ¬ SearchFinds s.host mid) :
    ClearsChildren s mid ↔ AlreadyEmpty s.host.lastmodified mid s.host.meters ∧
      DisplacesNone s mid ∧ OwnSettled s.host mid := by
  have hsearch : hostFindPrefix s.host mid none = none := by
    rw [← searchFinds_iff] at hno
    simpa using hno
  cases hf : hostFindMeterName s.host mid with
  | none => exact clearsChildren_new hcount hsearch hf
  | some i => exact clearsChildren_own hcount hsearch hf

/-- A record of an empty array clears what is under its name exactly if the search finds children
behind the first meter and that one is no child or empty already, or the search finds none and all is
as it should be before the record comes. -/
theorem clearsChildren_iff (hcount : (mid &&& MMASK_COUNT).toNat = SZ_EMPTY_ARRAY) :
    ClearsChildren s mid ↔
      (SearchFinds s.host mid ∧ AlreadyEmpty s.host.lastmodified mid s.host.meters.head?.toList) ∨
      (¬ SearchFinds s.host mid ∧ AlreadyEmpty s.host.lastmodified mid s.host.meters ∧
        DisplacesNone s mid ∧ OwnSettled s.host mid) := by
  by_cases hfinds : SearchFinds s.host mid
  · simp [hfinds, clearsChildren_found hcount hfinds]
  · simp [hfinds, clearsChildren_unfound hcount hfinds]

/-- Decoding comes to a host with these integer meters. -/
def stateWith (ids : List MeterId) : DecodeState :=
  ⟨.reader [], { hostAlloc ⟨0, 0⟩ with
    lastmodified := 2
    meters := ids.map fun id => ⟨id, 1, 0, some ⟨8, [.int 5]⟩, 0⟩
    mcount := ids.length }, 0, []⟩

/-- The id word of an empty array under the name `a`. -/
def emptyWord : MeterId := makeid (asc "a") MTYPE_INT ||| 0x1f

instance (pfx : MeterId) : Decidable (Unsearchable pfx) :=
  inferInstanceAs (Decidable (_ ∨ _))

theorem searchFinds_word {id id' : MeterId} (hchild : IsChild emptyWord id') :
    SearchFinds (stateWith [id, id']).host emptyWord := by
  exact ⟨by decide, ⟨id', 1, 0, some ⟨8, [.int 5]⟩, 0⟩, List.mem_cons_self, hchild⟩

theorem clearsChildren_behind :
    ClearsChildren (stateWith [makeid (asc "b") MTYPE_INT, makeid (asc "a/x") MTYPE_INT]) emptyWord := by
  refine (clearsChildren_iff (by decide)).mpr (.inl ⟨searchFinds_word (by decide), ?_⟩)
  intro m hm hchild
  obtain rfl := List.mem_singleton.mp hm
  exact absurd hchild (by decide)

/-- The first meter of the list is a child, and it keeps its value. -/
theorem first_child_kept : ¬ ∀ s mid, (mid &&& MMASK_COUNT).toNat = SZ_EMPTY_ARRAY →
    (∃ m ∈ s.host.meters, IsChild mid m.id) → ClearsChildren s mid := by
  intro hall
  set s := stateWith [makeid (asc "a/x") MTYPE_INT, makeid (asc "a/y") MTYPE_INT]
  have hfinds : SearchFinds s.host emptyWord := searchFinds_word (by decide)
  obtain ⟨m, hm, hchild⟩ := hfinds.2
  have hclears := hall s emptyWord (by decide) ⟨m, List.mem_of_mem_tail hm, hchild⟩
  have hfirst : AlreadyEmpty 2 emptyWord [⟨makeid (asc "a/x") MTYPE_INT, 1, 0, some ⟨8, [.int 5]⟩, 0⟩] :=
    (clearsChildren_found (by decide) hfinds).mp hclears
  have hempty := hfirst _ List.mem_cons_self (by decide)
  exact absurd (congrArg Meter.count hempty) (by decide)

end Opticon
