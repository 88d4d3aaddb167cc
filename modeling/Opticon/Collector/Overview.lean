import Opticon.Collector.Blocks
import Opticon.Collector.Summary
import Opticon.Meter.UuidText
import Opticon.Var.Leaves
import Opticon.Var.Slots

/-! What the hosts of a tenant show of themselves (`watcher.c`). -/

namespace Opticon

open KeyedWrites

/-- One meter of a host, and the dictionary of the host. Only singular values are wanted, except for
loadavg. -/
def overviewMeter (ihash : BitVec 32) (o : Doubles) (res : Option Var) (m : Meter) :
    Except Fault (Option Var) :=
  let set (val : VarValue) : Except Fault (Option Var) :=
    match res with
    | none => .error .nullPointer
    | some res => .ok (some (varSetForkey ihash res (id2str m.id) val))
  if 0 < m.count ∧ id2str m.id ≠ asc "loadavg" then .ok res
  else if m.type = MTYPE_INT then do set (.int (← meterGetUint m 0))
  else if m.type = MTYPE_FRAC then do set (.double (o.dval (← meterGetFrac m 0)))
  else if m.type = MTYPE_STR then do
    m.inBounds 128 0
    set (.str (m.str 0).str)
  else .ok res

/-- Writes host data to an overview dict, keyed by host-uuid. -/
def hostToOverview (ihash : BitVec 32) (o : Doubles) (h : Host) (ovdict : Var) : Except Fault Var := do
  let uuidstr := uuid2str h.uuid
  let res ← h.meters.foldlM (overviewMeter ihash o) (dictSlot ihash uuidstr (some ovdict))
  return (dictPlaced ihash uuidstr (some ovdict) res).getD ovdict

/-- A dictionary of overview data for the tenant, keyed by the uuid of each host. -/
def tenantOverview (ihash : BitVec 32) (o : Doubles) (hosts : List Host) : Except Fault Var := do
  let res := varAlloc .null
  let ov := (dictSlot ihash (asc "overview") (some res)).getD res
  let ov ← hosts.foldlM (fun ov h => hostToOverview ihash o h ov) ov
  return (dictPlaced ihash (asc "overview") (some res) (some ov)).getD res

section Values

/-- The name of a meter, as a key. -/
def Meter.label (m : Meter) : FString := FString.strncpy (id2str m.id)

def loadavg : FString := ⟨asc "loadavg", by decide, by decide⟩

/-- The first value of a meter; one of a type without values has none. -/
def Meter.first (o : Doubles) (m : Meter) : Option VarValue :=
  if m.type = MTYPE_INT then some (.int (m.uint 0))
  else if m.type = MTYPE_FRAC then some (.double (o.dval (m.frac 0)))
  else if m.type = MTYPE_STR then some (.str (m.str 0).str)
  else none

/-- A meter whose first value is to be shown: one that is not an array, or the load average if it is
not empty. -/
def Meter.Shown (m : Meter) : Prop := m.count = 0 ∨ m.count < SZ_EMPTY_VAL ∧ m.label = loadavg

instance (m : Meter) : Decidable m.Shown := inferInstanceAs (Decidable (_ ∨ _))

/-- What is to be shown of a host. -/
def Host.shown (o : Doubles) (h : Host) : List (FString × Option VarValue) :=
  (h.meters.filter fun m => m.Shown).map fun m => (m.label, m.first o)

/-- The meters that are shown under the name of the load average. -/
def Host.loads (h : Host) : List Meter :=
  h.meters.filter fun m => m.label = loadavg ∧ sizeofType m.type ≠ none

def Var.entry : Var → FString × Option VarValue
  | .leaf id _ val => (id, some val)
  | .dict id _ _ | .array id _ _ => (id, none)

/-- In the dictionary of a host is what is to be shown of it, and nothing else. -/
def Shows (ihash : BitVec 32) (o : Doubles) (h : Host) (ov : Var) : Prop :=
  ∃ id hash cs, varChild ihash ov (uuid2str h.uuid) = some (.dict id hash cs) ∧
    (cs.map Var.entry).Perm (h.shown o)

/-- No value is taken from where there is none, and the overview shows the host beside what it has
shown before. -/
def OverviewRight (ihash : BitVec 32) (o : Doubles) (h : Host) (ovdict : Var) : Prop :=
  ∃ ov, hostToOverview ihash o h ovdict = .ok ov ∧ Shows ihash o h ov ∧
    ∀ k, k ≠ uuid2str h.uuid →
      Option.Rel (Var.Rehashed ihash) (varChild ihash ovdict k) (varChild ihash ov k)

/-- One of the load averages is not empty and of the type of the first of them, and those behind it
either are of another type or leave its value as it is. -/
def Prevails (o : Doubles) (loads : List Meter) : Prop :=
  ∃ before d after, loads = before ++ d :: after ∧ d.Shown ∧
    (∀ e ∈ before.head?, e.type = d.type) ∧ ∀ e ∈ after, e.type = d.type → e.first o = d.first o

/-- The meters to show have different names and types with values, a load average that is a text is
not empty, and if there is a load average at all, one that is not empty prevails. -/
structure Presentable (o : Doubles) (h : Host) : Prop where
  apart : ((h.meters.filter fun m => m.Shown).map Meter.label).Nodup
  typed : ∀ m ∈ h.meters, m.Shown → sizeofType m.type ≠ none
  texts : ∀ m ∈ h.loads, m.type = MTYPE_STR → m.count < SZ_EMPTY_VAL
  prevails : h.loads ≠ [] → Prevails o h.loads

end Values

variable {ihash : BitVec 32} {o : Doubles} {h h' : Host} {m d e : Meter} {ms : List Meter}
  {id key : FString} {hash : BitVec 32} {es : List (FString × VarValue)} {ov : Var}

section Writes

theorem label_str (m : Meter) : m.label.str = id2str m.id := by
  obtain ⟨hne, hlen, h0⟩ := id2str_text m.id
  exact (fitsKey_of_short hne (by omega) h0).str

theorem label_eq_iff : m.label = key ↔ id2str m.id = key.str := by
  rw [← label_str]
  exact ⟨fun h => h ▸ rfl, fun h => FString.ext h⟩

/-- The test that lets a meter through. -/
def Meter.Passes (m : Meter) : Prop := m.count = 0 ∨ m.label = loadavg

instance (m : Meter) : Decidable m.Passes := inferInstanceAs (Decidable (_ ∨ _))

/-- A text that is looked for where there is none. -/
def Meter.Dangling (m : Meter) : Prop :=
  m.label = loadavg ∧ m.type = MTYPE_STR ∧ SZ_EMPTY_VAL ≤ m.count

instance (m : Meter) : Decidable m.Dangling := inferInstanceAs (Decidable (_ ∧ _))

/-- What is written of a meter. -/
def Meter.writes (o : Doubles) (m : Meter) : List (FString × VarValue) :=
  if m.Passes then (m.first o).toList.map fun val => (m.label, val) else []

theorem sizeofType_eq_none_iff {type : MeterId} :
    sizeofType type = none ↔ type ≠ MTYPE_INT ∧ type ≠ MTYPE_FRAC ∧ type ≠ MTYPE_STR := by
  unfold sizeofType
  split_ifs <;> simp_all

theorem first_eq_none_iff : m.first o = none ↔ sizeofType m.type = none := by
  rw [sizeofType_eq_none_iff]
  unfold Meter.first
  split_ifs <;> simp_all

theorem first_ne_null {val : VarValue} (hval : m.first o = some val) : val ≠ .null := by
  unfold Meter.first at hval
  split_ifs at hval <;> cases hval <;> simp

/-- A meter without values is read as if its value were zero. -/
theorem first_of_empty (hm : m.Covered) (hempty : SZ_EMPTY_VAL ≤ m.count) (hstr : m.type ≠ MTYPE_STR) :
    m.first o = if m.type = MTYPE_INT then some (.int 0)
      else if m.type = MTYPE_FRAC then some (.double (o.dval (.fin 0))) else none := by
  unfold Meter.first Meter.uint Meter.frac
  rw [hm.empty hempty, if_neg hstr]
  rfl

theorem meterGet_of_covered {α : Type} {type : MeterId} {sz : Nat} {empty : α} {value : Meter → Nat → α}
    (hm : m.Covered) (htype : m.type = type) (hsz : sizeofType type = some sz)
    (hempty : m.d = none → value m 0 = empty) : meterGet type sz empty value m 0 = .ok (value m 0) := by
  unfold meterGet
  by_cases hlt : m.count < SZ_EMPTY_VAL
  · obtain ⟨a, ha, hroom⟩ := hm.holds hsz hlt htype
    have hpos := elemCount_pos m.count
    have hin : (0 + 1) * sz ≤ a.size := (Nat.mul_le_mul_right sz hpos).trans hroom
    rw [if_neg (Nat.not_le.mpr hlt), if_pos ⟨hpos, htype⟩, Meter.inBounds, ha]
    dsimp only
    rw [if_pos hin]
    rfl
  · rw [if_pos (Nat.not_lt.mp hlt), hempty (hm.empty (Nat.not_lt.mp hlt))]

theorem inBounds_of_covered (hm : m.Covered) (htype : m.type = MTYPE_STR) : m.inBounds 128 0 =
    if m.count < SZ_EMPTY_VAL then .ok () else .error .nullPointer := by
  by_cases hlt : m.count < SZ_EMPTY_VAL
  · have hsz : sizeofType MTYPE_STR = some 128 := rfl
    obtain ⟨a, ha, hroom⟩ := hm.holds hsz hlt htype
    have hin : (0 + 1) * 128 ≤ a.size := (Nat.mul_le_mul_right 128 (elemCount_pos m.count)).trans hroom
    rw [if_pos hlt, Meter.inBounds, ha]
    exact if_pos hin
  · rw [if_neg hlt, Meter.inBounds, hm.empty (Nat.not_lt.mp hlt)]

/-- Of each meter that passes the test its first value is written, if it has one. -/
theorem overviewMeter_eq (hm : m.Covered) :
    overviewMeter ihash o (some (.dict id hash (leaves ihash es))) m =
      if m.Dangling then .error .nullPointer
      else .ok (some (.dict id hash (leaves ihash (writeAll VarValue.onto es (m.writes o))))) := by
  have hset (val : VarValue) : varSetForkey ihash (.dict id hash (leaves ihash es)) (id2str m.id) val =
      .dict id hash (leaves ihash (writeAll VarValue.onto es [(m.label, val)])) := by
    rw [← label_str m]
    exact varSetForkey_leaves (by rw [label_str]; exact (id2str_text m.id).1)
  have hskip : 0 < m.count ∧ id2str m.id ≠ asc "loadavg" ↔ ¬ m.Passes := by
    rw [Meter.Passes, label_eq_iff, not_or, Nat.pos_iff_ne_zero]
    exact Iff.rfl
  have hint : MTYPE_INT ≠ MTYPE_STR := by decide
  have hfrac : MTYPE_FRAC ≠ MTYPE_STR := by decide
  unfold overviewMeter Meter.writes
  dsimp only
  by_cases hpass : m.Passes
  · rw [if_neg (mt hskip.mp (not_not.mpr hpass)), if_pos hpass]
    unfold Meter.first Meter.Dangling
    split_ifs with h₁ h₂ h₃ h₄ h₅ h₆ h₇
    · exact absurd (h₁.symm.trans h₂.2.1) hint
    · have hget : meterGetUint m 0 = .ok (m.uint 0) :=
        meterGet_of_covered hm h₁ rfl fun hd => by rw [Meter.uint, hd]; rfl
      rw [hget, Outcome.ok_bind, hset]
      rfl
    · exact absurd (h₃.symm.trans h₄.2.1) hfrac
    · have hget : meterGetFrac m 0 = .ok (m.frac 0) :=
        meterGet_of_covered hm h₃ rfl fun hd => by rw [Meter.frac, hd]; rfl
      rw [hget, Outcome.ok_bind, hset]
      rfl
    · rw [inBounds_of_covered hm h₅, if_neg (Nat.not_lt.mpr h₆.2.2)]
      rfl
    · have hlt : m.count < SZ_EMPTY_VAL := by
        obtain h0 | hload := hpass
        · rw [h0]
          decide
        · exact Nat.not_le.mp fun hge => h₆ ⟨hload, h₅, hge⟩
      rw [inBounds_of_covered hm h₅, if_pos hlt, Outcome.ok_bind, hset]
      rfl
    · exact absurd h₇.2.1 h₅
    · rfl
  · rw [if_pos (hskip.mpr hpass), if_neg hpass, if_neg fun h => hpass (.inr h.1)]
    rfl

theorem overviewMeters_eq (hms : ∀ m ∈ ms, m.Covered) :
    ms.foldlM (overviewMeter ihash o) (some (.dict id hash (leaves ihash es))) =
      if ∃ m ∈ ms, m.Dangling then .error .nullPointer
      else .ok (some (.dict id hash (leaves ihash (writeAll VarValue.onto es (ms.flatMap (Meter.writes o)))))) := by
  induction ms generalizing es with
  | nil =>
    rw [if_neg (by simp)]
    rfl
  | cons m ms ih =>
    obtain ⟨hm, hms⟩ := List.forall_mem_cons.mp hms
    rw [List.foldlM_cons, overviewMeter_eq hm]
    by_cases hd : m.Dangling
    · rw [if_pos hd, if_pos ⟨m, List.mem_cons_self, hd⟩]
      rfl
    · rw [if_neg hd, Outcome.ok_bind, ih hms, List.flatMap_cons, writeAll, writeAll, writeAll,
        List.foldl_append]
      simp only [List.exists_mem_cons_iff, hd, false_or]

/-- What is written of a host. -/
def Host.written (o : Doubles) (h : Host) : List (FString × VarValue) :=
  writeAll VarValue.onto [] (h.meters.flatMap (Meter.writes o))

theorem uuid2str_fits (u : Uuid) : FitsKey (uuid2str u) := by
  refine fitsKey_of_short (fun hnil => ?_) (by rw [length_uuid2str]; omega) (nul_uuid2str u)
  have hlen := length_uuid2str u
  rw [hnil] at hlen
  cases hlen

theorem fresh_slot {cs : List Var} (hnew : varChild ihash (.dict id hash cs) (uuid2str h.uuid) = none) :
    dictSlot ihash (uuid2str h.uuid) (some (.dict id hash cs)) =
      some (.dict (FString.strncpy (uuid2str h.uuid)) (hashToken ihash (uuid2str h.uuid)) (leaves ihash [])) := by
  rw [dictSlot_eq, hnew]
  rfl

/-- Below a key that is new the overview gets what is written of the host. -/
theorem hostToOverview_ok {cs : List Var} (hh : h.Covered)
    (hnew : varChild ihash (.dict id hash cs) (uuid2str h.uuid) = none)
    (hnone : ∀ m ∈ h.meters, ¬ m.Dangling) :
    ∃ ds, hostToOverview ihash o h (.dict id hash cs) = .ok (.dict id hash ds) ∧
      childIn ihash (uuid2str h.uuid) ds = some (.dict (FString.strncpy (uuid2str h.uuid))
        (hashToken ihash (uuid2str h.uuid)) (leaves ihash (h.written o))) ∧
      ∀ k, k ≠ uuid2str h.uuid → Option.Rel (Var.Rehashed ihash) (childIn ihash k cs) (childIn ihash k ds) := by
  have hslot := fresh_slot hnew
  have hsame : SameKey (dictSlot ihash (uuid2str h.uuid) (some (.dict id hash cs)))
      (some (.dict (FString.strncpy (uuid2str h.uuid)) (hashToken ihash (uuid2str h.uuid))
        (leaves ihash (h.written o)))) := by
    intro c c' hc hc'
    rw [hslot] at hc
    cases hc
    cases hc'
    exact ⟨rfl, rfl⟩
  obtain ⟨ds, hplaced, hput⟩ := dictPlaced_dict id hash cs (uuid2str_fits h.uuid) hsame
  have hno : ¬ ∃ m ∈ h.meters, m.Dangling := by
    rintro ⟨m, hm, hd⟩
    exact hnone m hm hd
  refine ⟨ds, ?_, hput.own _ hslot, hput.other⟩
  unfold hostToOverview
  dsimp only
  rw [hslot, overviewMeters_eq hh, if_neg hno, Outcome.ok_bind]
  unfold Host.written at hplaced
  rw [hplaced]
  rfl

theorem hostToOverview_fault {cs : List Var} (hh : h.Covered)
    (hnew : varChild ihash (.dict id hash cs) (uuid2str h.uuid) = none)
    (hd : ∃ m ∈ h.meters, m.Dangling) :
    hostToOverview ihash o h (.dict id hash cs) = .error .nullPointer := by
  unfold hostToOverview
  dsimp only
  rw [fresh_slot hnew, overviewMeters_eq hh, if_pos hd]
  rfl

theorem entries_leaves : (leaves ihash es).map Var.entry = es.map fun e => (e.1, some e.2) := List.map_map

theorem overviewRight_iff_written {cs : List Var} (hh : h.Covered)
    (hnew : varChild ihash (.dict id hash cs) (uuid2str h.uuid) = none) :
    OverviewRight ihash o h (.dict id hash cs) ↔ (∀ m ∈ h.meters, ¬ m.Dangling) ∧
      ((h.written o).map fun e => (e.1, some e.2)).Perm (h.shown o) := by
  by_cases hd : ∃ m ∈ h.meters, m.Dangling
  · have hfault := @hostToOverview_fault ihash o h id hash cs hh hnew hd
    obtain ⟨m, hm, hdangling⟩ := hd
    refine iff_of_false ?_ fun hnone => hnone.1 m hm hdangling
    rintro ⟨ov, hov, -⟩
    cases hfault.symm.trans hov
  · have hnone : ∀ m ∈ h.meters, ¬ m.Dangling := fun m hm hdangling => hd ⟨m, hm, hdangling⟩
    obtain ⟨ds, hok, hown, hother⟩ := @hostToOverview_ok ihash o h id hash cs hh hnew hnone
    constructor
    · rintro ⟨ov, hov, ⟨id', hash', cs', hchild, hperm⟩, -⟩
      cases hok.symm.trans hov
      cases hchild.symm.trans hown
      exact ⟨hnone, @entries_leaves ihash _ ▸ hperm⟩
    · rintro ⟨-, hperm⟩
      refine ⟨_, hok, ⟨_, _, _, hown, ?_⟩, hother⟩
      exact entries_leaves.symm ▸ hperm

end Writes

section Names

variable {k : FString} {before after : List Meter} {v : VarValue}

theorem filter_writes (ms : List Meter) :
    ((ms.flatMap (Meter.writes o)).filter fun w => w.1 = k).map Prod.snd =
      (ms.filter fun m => m.Passes ∧ m.label = k).filterMap (Meter.first o) := by
  induction ms with
  | nil => rfl
  | cons m ms ih =>
    rw [List.flatMap_cons, List.filter_append, List.map_append, ih, Meter.writes]
    by_cases hpass : m.Passes
    · by_cases hk : m.label = k
      · rw [if_pos hpass, List.filter_cons_of_pos (by simp [hpass, hk]), List.filterMap_cons]
        cases m.first o with
        | none => rfl
        | some val => simp [hk]
      · rw [if_pos hpass, List.filter_cons_of_neg (by simp [hk])]
        cases m.first o with
        | none => rfl
        | some val => simp [hk]
    · rw [if_neg hpass, List.filter_cons_of_neg (by simp [hpass])]
      rfl

theorem lookup_written (k : FString) : (h.written o).lookup k = settle VarValue.onto none
    ((h.meters.filter fun m => m.Passes ∧ m.label = k).filterMap (Meter.first o)) := by
  rw [Host.written, lookup_writeAll, filter_writes]
  rfl

theorem lookup_shown (k : FString) : (h.shown o).lookup k =
    (((h.meters.filter fun m => m.Shown).filter fun m => m.label = k).map (Meter.first o)).head? :=
  lookup_map_eq_head? Meter.label (Meter.first o) _

/-- Of elements with different names at most one has a given name. -/
theorem filter_name_cases {α β : Type} [DecidableEq β] {f : α → β} {l : List α} (hl : (l.map f).Nodup)
    (k : β) : (l.filter fun a => f a = k) = [] ∨ ∃ a, (l.filter fun a => f a = k) = [a] := by
  induction l with
  | nil => exact .inl rfl
  | cons a l ih =>
    rw [List.map_cons, List.nodup_cons] at hl
    by_cases ha : f a = k
    · right
      refine ⟨a, ?_⟩
      rw [List.filter_cons_of_pos (by simpa using ha), List.cons.injEq]
      refine ⟨rfl, List.filter_eq_nil_iff.mpr fun b hb => ?_⟩
      rw [decide_eq_true_eq, ← ha]
      exact fun heq => hl.1 (heq ▸ List.mem_map_of_mem hb)
    · rw [List.filter_cons_of_neg (by simpa using ha)]
      exact ih hl.2

theorem filter_passes (hk : k ≠ loadavg) (ms : List Meter) : (ms.filter fun m => m.Passes ∧ m.label = k) =
    (ms.filter fun m => m.Shown).filter fun m => m.label = k := by
  rw [List.filter_filter]
  refine List.filter_congr fun m _ => ?_
  unfold Meter.Passes Meter.Shown
  by_cases hm : m.label = k
  · simp [hm, hk]
  · simp [hm]

/-- Under another name than that of the load average. -/
theorem lookup_plain_iff (hk : k ≠ loadavg)
    (hap : ((h.meters.filter fun m => m.Shown).map Meter.label).Nodup) :
    ((h.written o).lookup k).map some = (h.shown o).lookup k ↔
      ∀ m ∈ h.meters, m.Shown → m.label = k → sizeofType m.type ≠ none := by
  rw [lookup_written, lookup_shown, filter_passes hk]
  have hmem (m : Meter) : m ∈ (h.meters.filter fun m => m.Shown).filter (fun m => m.label = k) ↔
      m ∈ h.meters ∧ m.Shown ∧ m.label = k := by
    rw [List.mem_filter, List.mem_filter, decide_eq_true_eq, decide_eq_true_eq, and_assoc]
  have hall : (∀ m ∈ h.meters, m.Shown → m.label = k → sizeofType m.type ≠ none) ↔
      ∀ m ∈ (h.meters.filter fun m => m.Shown).filter (fun m => m.label = k), sizeofType m.type ≠ none :=
    ⟨fun hm m h => hm m ((hmem m).mp h).1 ((hmem m).mp h).2.1 ((hmem m).mp h).2.2,
      fun hm m h₁ h₂ h₃ => hm m ((hmem m).mpr ⟨h₁, h₂, h₃⟩)⟩
  rw [hall]
  obtain hnone | ⟨d, hd⟩ := filter_name_cases hap k
  · rw [hnone]
    simp [settle]
  · rw [hd]
    cases hfirst : d.first o with
    | none => simp [settle, hfirst, first_eq_none_iff.mp hfirst]
    | some val =>
      have htyped : sizeofType d.type ≠ none := by
        rw [ne_eq, ← first_eq_none_iff (o := o), hfirst]
        simp
      simp [settle, hfirst, htyped]

theorem mem_loads : m ∈ h.loads ↔ m ∈ h.meters ∧ m.label = loadavg ∧ sizeofType m.type ≠ none := by
  simp [Host.loads]

theorem filterMap_loads : (h.meters.filter fun m => m.Passes ∧ m.label = loadavg).filterMap (Meter.first o) =
    h.loads.filterMap (Meter.first o) := by
  unfold Host.loads
  induction h.meters with
  | nil => rfl
  | cons m ms ih =>
    by_cases hm : m.label = loadavg
    · rw [List.filter_cons_of_pos (by simp [Meter.Passes, hm]), List.filterMap_cons, ih]
      by_cases htype : sizeofType m.type = none
      · rw [List.filter_cons_of_neg (by simp [htype]), first_eq_none_iff.mpr htype]
      · rw [List.filter_cons_of_pos (by simp [hm, htype]), List.filterMap_cons]
    · rw [List.filter_cons_of_neg (by simp [hm]), List.filter_cons_of_neg (by simp [hm]), ih]

/-- The kind of a value is the type of its meter. -/
theorem kind_eq_iff {x y : VarValue} (hx : d.first o = some x) (hy : e.first o = some y) :
    x.kind = y.kind ↔ d.type = e.type := by
  have hf : MTYPE_INT ≠ MTYPE_FRAC := by decide
  have hs : MTYPE_INT ≠ MTYPE_STR := by decide
  have hfs : MTYPE_FRAC ≠ MTYPE_STR := by decide
  unfold Meter.first at hx hy
  split_ifs at hx with h₁ h₂ h₃
  all_goals
    split_ifs at hy with h₄ h₅ h₆
    all_goals
      cases hx
      cases hy
      simp_all [VarValue.kind]

/-- What is left under the name of the load average, if one of them is not empty. -/
theorem settle_loads_iff (hh : h.Covered) (hnone : ∀ m ∈ h.meters, ¬ m.Dangling)
    (hsplit : h.loads = before ++ d :: after) (hshown : h.loads.filter (fun m => m.Shown) = [d])
    (hv : d.first o = some v) :
    settle VarValue.onto none (h.loads.filterMap (Meter.first o)) = some v ↔
      (∀ e ∈ before.head?, e.type = d.type) ∧ ∀ e ∈ after, e.type = d.type → e.first o = d.first o := by
  have hvalue : ∀ e ∈ h.loads, ∃ x, e.first o = some x := by
    intro e he
    apply Option.ne_none_iff_exists'.mp
    rw [ne_eq, first_eq_none_iff]
    exact (mem_loads.mp he).2.2
  have hbefore : ∀ e ∈ before, e ∈ h.loads := fun e he => hsplit ▸ List.mem_append_left _ he
  have hafter : ∀ e ∈ after, e ∈ h.loads := fun e he =>
    hsplit ▸ List.mem_append_right _ (List.mem_cons_of_mem d he)
  have hnull (l : List Meter) : ∀ y ∈ l.filterMap (Meter.first o), y ≠ .null := by
    intro y hy
    obtain ⟨e, -, he⟩ := List.mem_filterMap.mp hy
    exact first_ne_null he
  -- behind the one with a value there are empty ones only, and those of one type are alike
  have hempty : ∀ e ∈ after, ¬ e.Shown := by
    intro e he hes
    have hd : d ∈ h.loads.filter fun m => m.Shown := hshown ▸ List.mem_singleton_self d
    rw [hsplit, List.filter_append, List.filter_cons_of_pos (List.of_mem_filter hd)] at hshown
    have hlen := congrArg List.length hshown
    have hpos : 0 < (after.filter fun m => m.Shown).length :=
      List.length_pos_of_mem (List.mem_filter.mpr ⟨he, decide_eq_true hes⟩)
    rw [List.length_append, List.length_cons, List.length_singleton] at hlen
    omega
  have hzero : ∀ y ∈ after.filterMap (Meter.first o), y.kind = v.kind →
      y = if v.kind = 1 then .int 0 else .double (o.dval (.fin 0)) := by
    intro y hy hk
    obtain ⟨e, he, hey⟩ := List.mem_filterMap.mp hy
    obtain ⟨hmem, hlabel, -⟩ := mem_loads.mp (hafter e he)
    have hge : SZ_EMPTY_VAL ≤ e.count := Nat.not_lt.mp fun hlt => hempty e he (.inr ⟨hlt, hlabel⟩)
    have hstr : e.type ≠ MTYPE_STR := fun hstr => hnone e hmem ⟨hlabel, hstr, hge⟩
    rw [first_of_empty (hh e hmem) hge hstr] at hey
    rw [← hk]
    split_ifs at hey
    · cases hey
      rfl
    · cases hey
      rfl
  rw [hsplit, List.filterMap_append, List.filterMap_cons, hv,
    settle_eq_some_iff onto_keepsKind (first_ne_null hv) (hnull before) (hnull after) hzero]
  refine and_congr ?_ ?_
  · cases before with
    | nil => simp
    | cons b bs =>
      obtain ⟨x, hx⟩ := hvalue b (hbefore b List.mem_cons_self)
      rw [List.filterMap_cons, hx]
      simp only [List.head?_cons, Option.mem_def, Option.some.injEq, forall_eq']
      exact kind_eq_iff hx hv
  · constructor
    · intro hall e he htype
      obtain ⟨x, hx⟩ := hvalue e (hafter e he)
      rw [hx, hall x (List.mem_filterMap.mpr ⟨e, he, hx⟩) ((kind_eq_iff hx hv).mpr htype)]
    · intro hall y hy hk
      obtain ⟨e, he, hey⟩ := List.mem_filterMap.mp hy
      have heq := hall e he ((kind_eq_iff hey hv).mp hk)
      rw [hey] at heq
      exact Option.some.inj heq

theorem lookup_loadavg_iff (hh : h.Covered) (hnone : ∀ m ∈ h.meters, ¬ m.Dangling)
    (hap : ((h.meters.filter fun m => m.Shown).map Meter.label).Nodup) :
    ((h.written o).lookup loadavg).map some = (h.shown o).lookup loadavg ↔
      (∀ m ∈ h.meters, m.Shown → m.label = loadavg → sizeofType m.type ≠ none) ∧
        (h.loads ≠ [] → Prevails o h.loads) := by
  rw [lookup_written, lookup_shown, filterMap_loads]
  have hmem (m : Meter) : m ∈ (h.meters.filter fun m => m.Shown).filter (fun m => m.label = loadavg) ↔
      m ∈ h.meters ∧ m.Shown ∧ m.label = loadavg := by
    rw [List.mem_filter, List.mem_filter, decide_eq_true_eq, decide_eq_true_eq, and_assoc]
  have hloads : h.loads.filter (fun m => m.Shown) =
      ((h.meters.filter fun m => m.Shown).filter fun m => m.label = loadavg).filter
        fun m => sizeofType m.type ≠ none := by
    rw [Host.loads, List.filter_filter, List.filter_filter, List.filter_filter]
    refine List.filter_congr fun m _ => ?_
    rw [← Bool.decide_and, ← Bool.decide_and, ← Bool.decide_and, decide_eq_decide]
    tauto
  have hsettled (x : Option VarValue) : x.map some = (none : Option (Option VarValue)) ↔ x = none := by
    cases x <;> simp
  obtain hS | ⟨d, hS⟩ := filter_name_cases hap loadavg
  · have hnoshown : ∀ m ∈ h.meters, m.Shown → m.label ≠ loadavg := by
      intro m hm hs hl
      have hin := (hmem m).mpr ⟨hm, hs, hl⟩
      rw [hS] at hin
      cases hin
    have hprevails : ¬ Prevails o h.loads := by
      rintro ⟨before, d, after, hsplit, hd, -⟩
      have hdl : d ∈ h.loads := hsplit ▸ List.mem_append_right before List.mem_cons_self
      exact hnoshown d (mem_loads.mp hdl).1 hd (mem_loads.mp hdl).2.1
    rw [hS, List.map_nil, List.head?_nil, hsettled]
    constructor
    · intro hnil
      refine ⟨fun m hm hs hl => absurd hl (hnoshown m hm hs), fun hne => ?_⟩
      obtain ⟨e, es, hes⟩ := List.exists_cons_of_ne_nil hne
      have he : e ∈ h.loads := hes ▸ List.mem_cons_self
      obtain ⟨x, hx⟩ := Option.ne_none_iff_exists'.mp
        (mt (first_eq_none_iff (o := o)).mp (mem_loads.mp he).2.2)
      rw [hes, List.filterMap_cons, hx, settle_cons] at hnil
      cases hnil
    · rintro ⟨-, hall⟩
      have hnil : h.loads = [] := by
        by_contra hne
        exact hprevails (hall hne)
      rw [hnil]
      rfl
  · obtain ⟨hdm, hds, hdl⟩ := (hmem d).mp (hS ▸ List.mem_singleton_self d)
    have hone : ∀ m ∈ h.meters, m.Shown → m.label = loadavg → m = d := by
      intro m hm hs hl
      have hin := (hmem m).mpr ⟨hm, hs, hl⟩
      rw [hS] at hin
      exact List.mem_singleton.mp hin
    rw [hS, List.map_singleton, List.head?_singleton]
    cases hv : d.first o with
    | none =>
      refine iff_of_false ?_ fun hr => hr.1 d hdm hds hdl (first_eq_none_iff.mp hv)
      cases settle VarValue.onto none (h.loads.filterMap (Meter.first o)) <;> simp
    | some v =>
      have htyped : sizeofType d.type ≠ none := by
        rw [ne_eq, ← first_eq_none_iff (o := o), hv]
        simp
      have hshown : h.loads.filter (fun m => m.Shown) = [d] := by
        rw [hloads, hS, List.filter_singleton, decide_eq_true htyped]
        rfl
      have hmap (x : Option VarValue) : x.map some = some (some v) ↔ x = some v := by
        cases x <;> simp
      have hdin : d ∈ h.loads := mem_loads.mpr ⟨hdm, hdl, htyped⟩
      rw [hmap]
      constructor
      · intro hsettle
        refine ⟨fun m hm hs hl => hone m hm hs hl ▸ htyped, fun _ => ?_⟩
        obtain ⟨before, after, hsplit⟩ := List.append_of_mem hdin
        exact ⟨before, d, after, hsplit, hds, (settle_loads_iff hh hnone hsplit hshown hv).mp hsettle⟩
      · rintro ⟨-, hall⟩
        obtain ⟨before, d', after, hsplit, hds', hconds⟩ := hall (List.ne_nil_of_mem hdin)
        have hd' : d' ∈ h.loads := hsplit ▸ List.mem_append_right before List.mem_cons_self
        obtain rfl := hone d' (mem_loads.mp hd').1 hds' (mem_loads.mp hd').2.1
        exact (settle_loads_iff hh hnone hsplit hshown hv).mpr hconds

theorem presentable_iff_written (hh : h.Covered) : ((∀ m ∈ h.meters, ¬ m.Dangling) ∧
    ((h.written o).map fun e => (e.1, some e.2)).Perm (h.shown o)) ↔ Presentable o h := by
  have hkeys : ((h.written o).map fun e => (e.1, some e.2)).map Prod.fst = (h.written o).map Prod.fst := by
    rw [List.map_map]
    rfl
  have hnodup : (((h.written o).map fun e => (e.1, some e.2)).map Prod.fst).Nodup := by
    rw [hkeys]
    exact nodup_writeAll List.nodup_nil
  have hshown : (h.shown o).map Prod.fst = (h.meters.filter fun m => m.Shown).map Meter.label := by
    rw [Host.shown, List.map_map]
    rfl
  have hdangling : (∀ m ∈ h.meters, ¬ m.Dangling) ↔
      ∀ m ∈ h.loads, m.type = MTYPE_STR → m.count < SZ_EMPTY_VAL := by
    constructor
    · intro hnone m hm htype
      obtain ⟨hmem, hlabel, -⟩ := mem_loads.mp hm
      exact Nat.not_le.mp fun hge => hnone m hmem ⟨hlabel, htype, hge⟩
    · rintro htexts m hm ⟨hlabel, htype, hge⟩
      have htyped : sizeofType m.type ≠ none := by
        rw [htype]
        decide
      exact Nat.not_lt.mpr hge (htexts m (mem_loads.mpr ⟨hm, hlabel, htyped⟩) htype)
  rw [perm_iff_lookup hnodup, hshown]
  simp only [lookup_map_snd]
  constructor
  · rintro ⟨hnone, hap, hlookup⟩
    have hload := (lookup_loadavg_iff hh hnone hap).mp (hlookup loadavg)
    refine ⟨hap, fun m hm hs => ?_, hdangling.mp hnone, hload.2⟩
    by_cases hk : m.label = loadavg
    · exact hload.1 m hm hs hk
    · exact (lookup_plain_iff hk hap).mp (hlookup m.label) m hm hs rfl
  · rintro ⟨hap, htyped, htexts, hprevails⟩
    have hnone := hdangling.mpr htexts
    refine ⟨hnone, hap, fun k => ?_⟩
    by_cases hk : k = loadavg
    · rw [hk]
      exact (lookup_loadavg_iff hh hnone hap).mpr ⟨fun m hm hs _ => htyped m hm hs, hprevails⟩
    · exact (lookup_plain_iff hk hap).mpr fun m hm hs _ => htyped m hm hs

end Names

/-- The overview of a host, at any point of its life, shows what it is to show, and is made without
taking a value from where there is none, exactly if the host is presentable. -/
theorem overview_right_iff {cs : List Var} (hr : lifetime.Reachable h)
    (hnew : varChild ihash (.dict id hash cs) (uuid2str h.uuid) = none) :
    OverviewRight ihash o h (.dict id hash cs) ↔ Presentable o h :=
  (overviewRight_iff_written (lifetime_covered hr) hnew).trans (presentable_iff_written (lifetime_covered hr))

/-- A packet with a load average as a fraction and a number. -/
def loadavgPacket : List UInt8 :=
  be64 (makeid (asc "loadavg") MTYPE_FRAC) ++ [8, 0] ++ be64 (makeid (asc "users") MTYPE_INT) ++ [5]

theorem overview_right_load : ∃ h, lifetime.step (hostAlloc ⟨0, 3⟩) (.decode (.reader loadavgPacket) []) h ∧
    (OverviewRight 5138 plainDoubles h (.dict FString.empty 0 []) ↔ Presentable plainDoubles h) := by
  have hrun : (do return (← (MeterStep.decode (.reader loadavgPacket) []).apply (hostAlloc ⟨0, 3⟩)).isSome) =
      Except.ok true := by decide
  obtain ⟨host, hdec, hsome⟩ := Outcome.bind_ok_iff.mp hrun
  obtain ⟨h, rfl⟩ := Option.isSome_iff_exists.mp (Except.ok.inj hsome)
  exact ⟨h, hdec, overview_right_iff ((Transition.Reachable.init rfl).step hdec) rfl⟩

/-- A load average that is a text, and empty. -/
def emptyLoadPacket : List UInt8 := be64 (makeid (asc "loadavg") MTYPE_STR ||| 0x1e)

/-- An agent sends an empty load average: the overview looks for its text where there is none. -/
theorem empty_load_followed :
    (∃ h, lifetime.Reachable h ∧
      hostToOverview 5138 plainDoubles h (.dict FString.empty 0 []) = .error .nullPointer) ∧
    ¬ ∀ h, lifetime.Reachable h → OverviewRight 5138 plainDoubles h (.dict FString.empty 0 []) := by
  have hrun : (do
      let h ← (MeterStep.decode (.reader emptyLoadPacket) []).apply (hostAlloc ⟨0, 3⟩)
      return h.map fun h => decide (∃ m ∈ h.meters, m.Dangling)) = Except.ok (some true) := by decide
  obtain ⟨host, hdec, hhost⟩ := Outcome.bind_ok_iff.mp hrun
  obtain ⟨h, rfl, hdangling⟩ := Option.map_eq_some_iff.mp (Except.ok.inj hhost)
  have hr : lifetime.Reachable h := (Transition.Reachable.init rfl).step hdec
  have hfault : hostToOverview 5138 plainDoubles h (.dict FString.empty 0 []) = .error .nullPointer :=
    hostToOverview_fault (lifetime_covered hr) rfl (of_decide_eq_true hdangling)
  refine ⟨⟨h, hr, hfault⟩, fun hall => ?_⟩
  obtain ⟨ov, hov, -⟩ := hall h hr
  cases hfault.symm.trans hov

section Tenant

theorem dict_of_rel {x y : Option Var} {cs : List Var} (hrel : Option.Rel (Var.Rehashed ihash) x y)
    (hx : x = some (.dict id hash cs)) : ∃ hash', y = some (.dict id hash' cs) := by
  subst hx
  cases hrel with
  | some hre =>
    obtain rfl | ⟨-, rfl⟩ := hre
    · exact ⟨hash, rfl⟩
    · exact ⟨_, rfl⟩

/-- Hosts with different uuids are shown beside each other. -/
theorem overviewHosts_show {hosts : List Host} {cs : List Var}
    (hall : ∀ h ∈ hosts, h.Covered ∧ Presentable o h) (hapart : (hosts.map fun h => h.uuid).Nodup)
    (hnew : ∀ h ∈ hosts, childIn ihash (uuid2str h.uuid) cs = none) :
    ∃ ds, hosts.foldlM (fun ov h => hostToOverview ihash o h ov) (.dict id hash cs) = .ok (.dict id hash ds) ∧
      (∀ h ∈ hosts, Shows ihash o h (.dict id hash ds)) ∧
      ∀ k, (∀ h ∈ hosts, k ≠ uuid2str h.uuid) → ∀ id' hash' es, childIn ihash k cs = some (.dict id' hash' es) →
        ∃ hash', childIn ihash k ds = some (.dict id' hash' es) := by
  induction hosts generalizing cs with
  | nil => exact ⟨cs, rfl, fun h hh => absurd hh List.not_mem_nil, fun k _ _ hash' _ hc => ⟨hash', hc⟩⟩
  | cons h hosts ih =>
    rw [List.map_cons, List.nodup_cons] at hapart
    obtain ⟨hh, hall⟩ := List.forall_mem_cons.mp hall
    obtain ⟨hnewh, hnew⟩ := List.forall_mem_cons.mp hnew
    obtain ⟨hnone, hperm⟩ := (presentable_iff_written hh.1).mpr hh.2
    obtain ⟨ds₁, hok, hown, hother⟩ := @hostToOverview_ok ihash o h id hash cs hh.1 hnewh hnone
    have hkey : ∀ h' ∈ hosts, uuid2str h'.uuid ≠ uuid2str h.uuid := fun h' hh' heq =>
      hapart.1 (uuid2str_injective heq ▸ List.mem_map_of_mem hh')
    have hnew₁ : ∀ h' ∈ hosts, childIn ihash (uuid2str h'.uuid) ds₁ = none := by
      intro h' hh'
      have hrel := hother _ (hkey h' hh')
      rw [hnew h' hh'] at hrel
      generalize childIn ihash (uuid2str h'.uuid) ds₁ = c at hrel ⊢
      cases hrel
      rfl
    obtain ⟨ds, hfold, hshow, hrest⟩ := ih hall hapart.2 hnew₁
    refine ⟨ds, ?_, List.forall_mem_cons.mpr ⟨?_, hshow⟩, fun k hk id' hash' es hc => ?_⟩
    · rw [List.foldlM_cons, hok]
      exact hfold
    · obtain ⟨hash', hstays⟩ := hrest _ (fun h' hh' heq => hkey h' hh' heq.symm) _ _ _ hown
      exact ⟨_, hash', _, hstays, entries_leaves.symm ▸ hperm⟩
    · obtain ⟨hkh, hk⟩ := List.forall_mem_cons.mp hk
      obtain ⟨hash₁, hc₁⟩ := dict_of_rel (hother k hkh) hc
      exact hrest k hk _ _ _ hc₁

/-- The overview of a tenant shows all its hosts, if they are presentable. -/
theorem tenantOverview_shows {hosts : List Host} (hr : ∀ h ∈ hosts, lifetime.Reachable h)
    (hall : ∀ h ∈ hosts, Presentable o h) (hapart : (hosts.map fun h => h.uuid).Nodup) :
    ∃ res ov, tenantOverview ihash o hosts = .ok res ∧ varChild ihash res (asc "overview") = some ov ∧
      ∀ h ∈ hosts, Shows ihash o h ov := by
  have hslot := dictSlot_null ihash (asc "overview")
  have hdict : dictSlot ihash (asc "overview") (some (.dict FString.empty 0 [])) =
      some (.dict (FString.strncpy (asc "overview")) (hashToken ihash (asc "overview")) []) := dictSlot_eq _
  obtain ⟨ds, hfold, hshow, -⟩ := @overviewHosts_show ihash o (FString.strncpy (asc "overview"))
    (hashToken ihash (asc "overview")) hosts [] (fun h hh => ⟨lifetime_covered (hr h hh), hall h hh⟩) hapart
    fun _ _ => rfl
  have hkey : FitsKey (asc "overview") := fitsKey_of_short (by decide) (by decide) (by decide)
  have hsame : SameKey (dictSlot ihash (asc "overview") (some (.dict FString.empty 0 [])))
      (some (.dict (FString.strncpy (asc "overview")) (hashToken ihash (asc "overview")) ds)) := by
    intro c c' hc hc'
    rw [hdict] at hc
    rw [← Option.some.inj hc, ← Option.some.inj hc']
    exact ⟨rfl, rfl⟩
  obtain ⟨es, hplaced, hput⟩ := dictPlaced_dict FString.empty 0 [] hkey hsame
  refine ⟨.dict FString.empty 0 es, _, ?_, hput.own _ hdict, hshow⟩
  unfold tenantOverview
  dsimp only
  rw [hslot, Option.getD_some, hfold, Outcome.ok_bind, dictPlaced_null, hplaced]
  rfl

end Tenant

end Opticon
