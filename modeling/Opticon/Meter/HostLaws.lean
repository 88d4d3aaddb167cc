import Opticon.Lib.Outcome
import Opticon.Meter.Host
import Opticon.Meter.IdLaws

/-! Finding meters in the list of a host, and changing them. -/

namespace Opticon

theorem updateMeter_ok {h h' : Host} {i : Nat} {f : Meter → Except Fault Meter}
    (hu : h.updateMeter i f = .ok h') :
    ∃ m m', h.meters[i]? = some m ∧ f m = .ok m' ∧
      h' = { h with meters := h.meters.set i m' } := by
  unfold Host.updateMeter at hu
  split at hu
  · cases hu
  · rename_i m hm
    obtain ⟨m', hf, hu⟩ := Outcome.bind_ok_iff.mp hu
    exact ⟨m, m', hm, hf, (Except.ok.inj hu).symm⟩

theorem updateMeter_eq {h : Host} {i : Nat} {m m' : Meter} {f : Meter → Except Fault Meter}
    (hm : h.meters[i]? = some m) (hf : f m = .ok m') :
    h.updateMeter i f = .ok { h with meters := h.meters.set i m' } := by
  simp [Host.updateMeter, hm, hf]

theorem meterSetcount_id {now count : Nat} {m m' : Meter} (hs : meterSetcount now m count = .ok m') :
    m'.id = m.id := by
  unfold meterSetcount at hs
  dsimp only at hs
  split_ifs at hs
  · cases hs
    rfl
  · split at hs <;> cases hs <;> rfl

theorem meterSetcount_name {now count : Nat} {m m' : Meter}
    (hs : meterSetcount now m count = .ok m') : m'.name = m.name := by
  rw [Meter.name, meterSetcount_id hs, Meter.name]

theorem meterSetcount_ok (now : Nat) (m : Meter) {count : Nat} (hc : count ≤ SZ_EMPTY_ARRAY) :
    ∃ m', meterSetcount now m count = .ok m' := by
  have hle : ¬ SZ_EMPTY_ARRAY < elemCount count := by
    unfold elemCount
    unfold SZ_EMPTY_ARRAY at hc ⊢
    split_ifs <;> omega
  unfold meterSetcount
  dsimp only
  rw [if_neg hle]
  split_ifs
  · exact ⟨_, rfl⟩
  · split <;> exact ⟨_, rfl⟩

/-- What the setters of values leave alone. -/
def Meter.shape (m : Meter) : MeterId × Nat × Option Nat :=
  (m.id, m.count, m.d.map ValueArray.size)

theorem meterSet_shape {type : MeterId} {sz now pos : Nat} {val : Slot} {m m' : Meter}
    (h : meterSet type sz now m pos val = .ok m') : m'.shape = m.shape := by
  unfold meterSet at h
  split at h
  · cases h; rfl
  · split at h
    · cases hd : m.d with
      | none => rw [hd] at h; cases h
      | some a =>
        rw [hd] at h
        simp only at h
        split at h
        · cases h
          simp [Meter.shape, hd]
        · cases h
    · cases h; rfl

theorem meterSet_keeps {type : MeterId} {sz now pos : Nat} {val : Slot} {m m' : Meter}
    (hs : meterSet type sz now m pos val = .ok m') : m'.id = m.id ∧ m'.count = m.count := by
  have hshape := meterSet_shape hs
  simp only [Meter.shape, Prod.mk.injEq] at hshape
  exact ⟨hshape.1, hshape.2.1⟩

theorem meterSet_name {type : MeterId} {sz now pos : Nat} {val : Slot} {m m' : Meter}
    (hs : meterSet type sz now m pos val = .ok m') : m'.name = m.name := by
  rw [Meter.name, (meterSet_keeps hs).1, Meter.name]

/-- The block of a meter that may be written to as one of this type has room for its elements. -/
def Meter.Holds (type : MeterId) (sz : Nat) (m : Meter) : Prop :=
  m.count < SZ_EMPTY_VAL → m.type = type → ∃ a, m.d = some a ∧ elemCount m.count * sz ≤ a.size

section Holds

variable {type : MeterId} {sz now : Nat} {m m' : Meter}

theorem meterSetcount_holds {count : Nat} (hsz : sizeofType type = some sz)
    (hs : meterSetcount now m count = .ok m') : m'.Holds type sz := by
  intro hcount htype
  have hid := meterSetcount_id hs
  have hm : m.type = type := by rw [← htype, Meter.type, Meter.type, hid]
  unfold meterSetcount at hs
  dsimp only at hs
  rw [hm, hsz] at hs
  split_ifs at hs with hmany hempty
  · cases hs
    have hle : SZ_EMPTY_VAL ≤ count := by
      unfold elemCount SZ_EMPTY_VAL at hempty
      unfold SZ_EMPTY_VAL
      split_ifs at hempty
      · omega
      · exact hempty
    exact absurd hcount (not_lt_of_ge hle)
  · cases hs
    exact ⟨_, rfl, le_rfl⟩

theorem meterSet_ok (now pos : Nat) (val : Slot) (hm : m.Holds type sz) :
    ∃ m', meterSet type sz now m pos val = .ok m' ∧ m'.Holds type sz := by
  unfold meterSet
  split_ifs with hempty hfits
  · exact ⟨m, rfl, hm⟩
  · obtain ⟨a, hd, hroom⟩ := hm (not_le.mp hempty) hfits.1
    have hle : (pos + 1) * sz ≤ a.size := (Nat.mul_le_mul_right sz hfits.2).trans hroom
    rw [hd]
    dsimp only
    rw [if_pos hle]
    refine ⟨_, rfl, fun _ _ => ⟨_, rfl, hroom⟩⟩
  · exact ⟨m, rfl, hm⟩

theorem holds_of_shape (hs : m'.shape = m.shape) (hm : m.Holds type sz) : m'.Holds type sz := by
  simp only [Meter.shape, Prod.mk.injEq] at hs
  obtain ⟨hid, hcount, hsize⟩ := hs
  intro hfew htype
  rw [hcount] at hfew ⊢
  obtain ⟨a, hd, hroom⟩ := hm hfew (by rw [← htype, Meter.type, Meter.type, hid])
  rw [hd, Option.map_some, Option.map_eq_some_iff] at hsize
  obtain ⟨a', hd', hsize⟩ := hsize
  exact ⟨a', hd', hsize ▸ hroom⟩

end Holds

theorem hostFindMeterName_some {h : Host} {id : MeterId} {i : Nat}
    (hi : hostFindMeterName h id = some i) :
    ∃ m, h.meters[i]? = some m ∧ m.name = id &&& MMASK_NAME ∧
      h.meters.find? (fun m => m.name == id &&& MMASK_NAME) = some m := by
  obtain ⟨hlt, hp, hmin⟩ := List.findIdx?_eq_some_iff_getElem.mp hi
  refine ⟨h.meters[i], by simp [hlt], by simpa using hp, ?_⟩
  rw [List.find?_eq_some_iff_getElem]
  exact ⟨hp, i, hlt, rfl, fun j hj => by simpa using hmin j hj⟩

theorem hostFindMeterName_none {h : Host} {id : MeterId} :
    hostFindMeterName h id = none ↔ ∀ m ∈ h.meters, m.name ≠ id &&& MMASK_NAME := by
  simp [hostFindMeterName, List.findIdx?_eq_none_iff]

/-- Without a meter of that name, `host_get_meter` links a new one at the end. -/
theorem hostGetMeter_new {h : Host} {id : MeterId} (hn : hostFindMeterName h id = none) :
    hostGetMeter h id =
      ({ h with
          meters := h.meters ++ [meterAlloc (id &&& (MMASK_TYPE ||| MMASK_NAME))]
          mcount := if h.meters = [] then 1 else h.mcount + 1 },
        h.meters.length) := by
  have hnone : (h.meters.findIdx? fun m =>
      m.id == id &&& (MMASK_TYPE ||| MMASK_NAME) ||
        (m.name == id &&& (MMASK_TYPE ||| MMASK_NAME) &&& MMASK_NAME &&
          m.count == SZ_EMPTY_ARRAY)) = none := by
    rw [List.findIdx?_eq_none_iff]
    intro m hm
    have hname := hostFindMeterName_none.mp hn m hm
    have hid : m.id ≠ id &&& (MMASK_TYPE ||| MMASK_NAME) := by
      intro he
      apply hname
      rw [Meter.name, he, requested_name]
    simp [hid, hname]
  simp only [hostGetMeter, hnone]

end Opticon
