import Opticon.Meter.HostLaws

/-! Whether the meters of a host have different names. -/

namespace Opticon

namespace Host

def names (h : Host) : List MeterId := h.meters.map Meter.name

def Distinct (h : Host) : Prop := h.names.Nodup

/-- The host has a meter of this name that a lookup under the id passes by: it has another
id, that is, another type, and it is no empty array. -/
def Clash (h : Host) (id : MeterId) : Prop :=
  ∃ m ∈ h.meters, m.name = id &&& MMASK_NAME ∧ m.id ≠ id &&& (MMASK_TYPE ||| MMASK_NAME) ∧
    m.count ≠ SZ_EMPTY_ARRAY

/-- Names stay, and so does what could clash under other names than these. -/
structure Rewrites (ids : List MeterId) (h h' : Host) : Prop where
  names : h'.names = h.names
  clash : ∀ id', (∀ id ∈ ids, id' &&& MMASK_NAME ≠ id &&& MMASK_NAME) → (h'.Clash id' ↔ h.Clash id')

/-- Meters were looked up under these ids, and created if they were not found. -/
structure Touched (ids : List MeterId) (h h' : Host) : Prop where
  grows : h.names <+: h'.names
  distinct : h.Distinct → (h'.Distinct ↔ ∀ id ∈ ids, ¬ h.Clash id)
  clash : ∀ id', (∀ id ∈ ids, id' &&& MMASK_NAME ≠ id &&& MMASK_NAME) → (h'.Clash id' ↔ h.Clash id')

variable {h h₁ h' : Host} {id : MeterId} {ids ids' : List MeterId} {i : Nat}

theorem Rewrites.refl : Rewrites ids h h := ⟨rfl, fun _ _ => Iff.rfl⟩

theorem Rewrites.trans (r : Rewrites ids h h₁) (r' : Rewrites ids h₁ h') : Rewrites ids h h' :=
  ⟨r'.names.trans r.names, fun id' hid => (r'.clash id' hid).trans (r.clash id' hid)⟩

theorem Rewrites.mono (r : Rewrites ids h h') (hids : ids ⊆ ids') : Rewrites ids' h h' :=
  ⟨r.names, fun id' hid => r.clash id' fun id hmem => hid id (hids hmem)⟩

theorem Touched.trans (t : Touched ids h h₁) (t' : Touched ids' h₁ h')
    (hne : ∀ id ∈ ids, ∀ id' ∈ ids', id' &&& MMASK_NAME ≠ id &&& MMASK_NAME) :
    Touched (ids ++ ids') h h' := by
  refine ⟨t.grows.trans t'.grows, fun hd => ?_, fun id' hid => ?_⟩
  · have hlater : ∀ id' ∈ ids', (h₁.Clash id' ↔ h.Clash id') := fun id' hid' =>
      t.clash id' fun id hid => hne id hid id' hid'
    constructor
    · intro hd' id hid
      have hd₁ : h₁.Distinct := t'.grows.sublist.nodup hd'
      obtain hid | hid := List.mem_append.mp hid
      · exact (t.distinct hd).mp hd₁ id hid
      · rw [← hlater id hid]
        exact (t'.distinct hd₁).mp hd' id hid
    · intro hno
      have hd₁ : h₁.Distinct := (t.distinct hd).mpr fun id hid => hno id (List.mem_append_left _ hid)
      refine (t'.distinct hd₁).mpr fun id' hid' => ?_
      rw [hlater id' hid']
      exact hno id' (List.mem_append_right _ hid')
  · rw [t'.clash id' fun id hmem => hid id (List.mem_append_right _ hmem),
      t.clash id' fun id hmem => hid id (List.mem_append_left _ hmem)]

/-- The looks of a meter, as far as a lookup goes by them. -/
def face (m : Meter) : MeterId × Nat := (m.id, m.count)

theorem meterSet_face {type : MeterId} {sz now pos : Nat} {val : Slot} {m m' : Meter}
    (hs : meterSet type sz now m pos val = .ok m') : face m' = face m := by
  obtain ⟨hid, hcount⟩ := meterSet_keeps hs
  rw [face, face, hid, hcount]

theorem names_updateMeter {f : Meter → Except Fault Meter}
    (hf : ∀ m m', f m = .ok m' → m'.name = m.name) (hu : h.updateMeter i f = .ok h') :
    h'.names = h.names := by
  obtain ⟨m, m', hm, hfm, rfl⟩ := updateMeter_ok hu
  obtain ⟨hlt, rfl⟩ := List.getElem?_eq_some_iff.mp hm
  rw [names, List.map_set, hf _ m' hfm, ← List.map_set, List.set_getElem_self, names]

theorem names_later {name : MeterId} (hg : h.names <+: h'.names) (hi : h.names[i]? = some name) :
    h'.names[i]? = some name := by
  obtain ⟨new, hnew⟩ := hg
  rw [← hnew, List.getElem?_append_left (List.getElem?_eq_some_iff.mp hi).1, hi]

/-- The name of the meter a lookup returns. -/
theorem names_hostGetMeter (h : Host) (id : MeterId) :
    (hostGetMeter h id).1.names[(hostGetMeter h id).2]? = some (id &&& MMASK_NAME) := by
  unfold hostGetMeter
  dsimp only
  split
  · rename_i i hi
    obtain ⟨hlt, hp, -⟩ := List.findIdx?_eq_some_iff_getElem.mp hi
    rw [names, List.getElem?_map, List.getElem?_eq_getElem hlt, Option.map_some, Option.some_inj]
    simp only [Bool.or_eq_true, beq_iff_eq, Bool.and_eq_true, requested_name] at hp
    obtain hid | ⟨hname, -⟩ := hp
    · rw [Meter.name, hid, requested_name]
    · exact hname
  · simp [names, Meter.name, meterAlloc]

/-- A lookup gives a host a second meter of a name exactly where one clashes. -/
theorem Touched.hostGetMeter (h : Host) (id : MeterId) : Touched [id] h (hostGetMeter h id).1 := by
  unfold Opticon.hostGetMeter
  dsimp only
  split
  · rename_i i hi
    refine ⟨List.prefix_rfl, fun hd => ?_, fun _ _ => Iff.rfl⟩
    simp only [hd, List.mem_singleton, forall_eq, true_iff]
    rintro ⟨m, hm, hname, hid, hcount⟩
    obtain ⟨hlt, hp, -⟩ := List.findIdx?_eq_some_iff_getElem.mp hi
    have hfound : h.meters[i].name = id &&& MMASK_NAME := by
      have hget := names_hostGetMeter h id
      unfold Opticon.hostGetMeter at hget
      dsimp only at hget
      rw [hi, names, List.getElem?_map, List.getElem?_eq_getElem hlt] at hget
      exact Option.some.inj hget
    obtain rfl := List.inj_on_of_nodup_map hd (List.getElem_mem hlt) hm (hfound.trans hname.symm)
    simp only [Bool.or_eq_true, beq_iff_eq, Bool.and_eq_true, requested_name] at hp
    obtain hp | ⟨-, hp⟩ := hp
    · exact hid hp
    · exact hcount hp
  · rename_i hnone
    have hpassed : ∀ m ∈ h.meters, m.name = id &&& MMASK_NAME →
        m.id ≠ id &&& (MMASK_TYPE ||| MMASK_NAME) ∧ m.count ≠ SZ_EMPTY_ARRAY := by
      intro m hm hname
      have hno := List.findIdx?_eq_none_iff.mp hnone m hm
      simp only [requested_name, hname, beq_self_eq_true, Bool.true_and, Bool.or_eq_false_iff,
        beq_eq_false_iff_ne, ne_eq] at hno
      exact hno
    have hnew : (meterAlloc (id &&& (MMASK_TYPE ||| MMASK_NAME))).name = id &&& MMASK_NAME :=
      requested_name id
    refine ⟨?_, fun hd => ?_, fun id' hne => ?_⟩
    · simp only [names, List.map_append]
      exact List.prefix_append _ _
    · simp only [Distinct, names, List.map_append, List.map_singleton, hnew, List.mem_singleton,
        forall_eq]
      rw [← List.concat_eq_append, List.nodup_concat]
      constructor
      · rintro ⟨hno, -⟩ ⟨m, hm, hname, -⟩
        exact hno (hname ▸ List.mem_map_of_mem hm)
      · intro hno
        refine ⟨fun hmem => ?_, hd⟩
        obtain ⟨m, hm, hname⟩ := List.mem_map.mp hmem
        exact hno ⟨m, hm, hname, hpassed m hm hname⟩
    · constructor
      · rintro ⟨m, hm, hname, hrest⟩
        obtain hm | hm := List.mem_append.mp hm
        · exact ⟨m, hm, hname, hrest⟩
        · rw [List.mem_singleton.mp hm, hnew] at hname
          exact absurd hname.symm (hne id List.mem_cons_self)
      · rintro ⟨m, hm, hrest⟩
        exact ⟨m, List.mem_append_left _ hm, hrest⟩

end Host

end Opticon
