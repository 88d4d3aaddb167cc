import Opticon.Lib.Outcome
import Opticon.Lib.Transition
import Opticon.Meter.HostLaws
import Opticon.Wire.Packet

/-! The blocks behind the meters of a host while packets are decoded into it. -/

namespace Opticon

def Slot.OfType (type : MeterId) : Slot → Prop
  | .zero => True
  | .int _ => type = MTYPE_INT
  | .frac _ => type = MTYPE_FRAC
  | .str _ => type = MTYPE_STR

/-- The block is an array of `n` elements of the given type. -/
structure ValueArray.Holds (a : ValueArray) (type : MeterId) (n : Nat) : Prop where
  size : (sizeofType type).map (n * ·) = some a.size
  length : a.slots.length = n
  slots : ∀ v ∈ a.slots, v.OfType type

structure Meter.Represented (m : Meter) : Prop where
  count_le : m.count ≤ SZ_EMPTY_ARRAY
  array : m.count < SZ_EMPTY_VAL → ∃ a, m.d = some a ∧ a.Holds m.type (elemCount m.count)
  empty : SZ_EMPTY_VAL ≤ m.count → m.d = none

def Host.Represented (h : Host) : Prop := ∀ m ∈ h.meters, m.Represented

def Host.shapes (h : Host) : List (MeterId × Nat × Option Nat) := h.meters.map Meter.shape

theorem elemCount_pos (count : Nat) : 0 < elemCount count := by
  unfold elemCount
  split <;> omega

theorem elemCount_lt (count : Nat) : elemCount count < SZ_EMPTY_VAL ↔ count < SZ_EMPTY_VAL := by
  unfold elemCount SZ_EMPTY_VAL
  split <;> omega

theorem meterSetcount_empty {now count : Nat} {m : Meter} (h₁ : SZ_EMPTY_VAL ≤ count)
    (h₂ : count ≤ SZ_EMPTY_ARRAY) :
    meterSetcount now m count = .ok { m with count := count, lastmodified := now, d := none } := by
  have hc : elemCount count = count := by
    unfold elemCount SZ_EMPTY_VAL at *
    split <;> omega
  simp only [meterSetcount, hc]
  rw [if_neg (by omega), if_pos h₁]

theorem meterSetcount_array {now count sz : Nat} {m : Meter} (h : count < SZ_EMPTY_VAL)
    (hs : sizeofType m.type = some sz) :
    meterSetcount now m count = .ok { m with
      count := count
      lastmodified := now
      d := some ⟨elemCount count * sz, List.replicate (elemCount count) .zero⟩ } := by
  have hc := (elemCount_lt count).mpr h
  simp only [meterSetcount, hs]
  rw [if_neg (by unfold SZ_EMPTY_VAL SZ_EMPTY_ARRAY at *; omega), if_neg (by omega)]

theorem meterSetcount_unknown {now count : Nat} {m : Meter} (h : count < SZ_EMPTY_VAL)
    (hs : sizeofType m.type = none) :
    meterSetcount now m count =
      .ok { m with count := SZ_EMPTY_VAL, lastmodified := now, d := none } := by
  have hc := (elemCount_lt count).mpr h
  simp only [meterSetcount, hs]
  rw [if_neg (by unfold SZ_EMPTY_VAL SZ_EMPTY_ARRAY at *; omega), if_neg (by omega)]

theorem meterSetEmptyArray_represented (now : Nat) (m : Meter) :
    ∃ m', meterSetEmptyArray now m = .ok m' ∧ m'.Represented ∧ m'.id = m.id := by
  refine ⟨_, meterSetcount_empty (by decide) le_rfl, ⟨le_rfl, ?_, fun _ => rfl⟩, rfl⟩
  intro h
  have hge : SZ_EMPTY_VAL ≤ SZ_EMPTY_ARRAY := by decide
  exact absurd h (Nat.not_lt.mpr hge)

/-- The blocks of both types have the same size, or there is none for the old one. -/
def Retypable (old new : MeterId) : Prop :=
  sizeofType old = none ∨ sizeofType old = sizeofType new

instance (old new : MeterId) : Decidable (Retypable old new) :=
  inferInstanceAs (Decidable (_ ∨ _))

/-- `meter_setcount` followed by the change of type succeeds always; it leaves an array of
the new type behind exactly if the types are compatible, and no write to the elements of
the array makes up for it. -/
theorem decodeSetup_represented (now : Nat) (mid : MeterId) {count : Nat} (m : Meter)
    (hc : count ≤ SZ_EMPTY_ARRAY) :
    ∃ m', decodeSetup now mid count m = .ok m' ∧
      (SZ_EMPTY_VAL ≤ count ∨ Retypable m.type (mid &&& MMASK_TYPE) → m'.Represented) ∧
      ∀ m'' : Meter, m''.Represented → m''.shape = m'.shape →
        SZ_EMPTY_VAL ≤ count ∨ Retypable m.type (mid &&& MMASK_TYPE) := by
  by_cases hlt : SZ_EMPTY_VAL ≤ count
  · refine ⟨_, by rw [decodeSetup, meterSetcount_empty hlt hc]; rfl, ?_, ?_⟩
    · exact fun _ => ⟨hc, fun h => absurd hlt (by simpa using h), fun _ => rfl⟩
    · exact fun _ _ _ => .inl hlt
  · have hlt' : count < SZ_EMPTY_VAL := by omega
    cases hs : sizeofType m.type with
    | none =>
      refine ⟨_, by rw [decodeSetup, meterSetcount_unknown hlt' hs]; rfl, ?_, ?_⟩
      · exact fun _ => ⟨by change SZ_EMPTY_VAL ≤ SZ_EMPTY_ARRAY; decide, fun h => absurd h (by simp), fun _ => rfl⟩
      · exact fun _ _ _ => .inr (.inl hs)
    | some sz =>
      refine ⟨_, by rw [decodeSetup, meterSetcount_array hlt' hs]; rfl, ?_, ?_⟩
      · intro hfit
        have hnew : sizeofType (mid &&& MMASK_TYPE) = some sz := by
          obtain h | h | h := hfit
          · exact absurd h hlt
          · rw [hs] at h; simp at h
          · rw [← h, hs]
        refine ⟨hc, fun _ => ⟨_, rfl, ?_, List.length_replicate, ?_⟩, fun h => absurd h hlt⟩
        · simp only [Meter.type, retyped_type, hnew, Option.map_some]
        · intro v hv
          rw [List.eq_of_mem_replicate hv]
          trivial
      · intro m'' hm hshape
        simp only [Meter.shape, Option.map_some, Prod.mk.injEq] at hshape
        obtain ⟨hid, hcount, hd⟩ := hshape
        obtain ⟨a, ha, hsize, -, -⟩ := hm.array (by rw [hcount]; exact hlt')
        rw [ha, Option.map_some, Option.some.injEq] at hd
        rw [Meter.type, hid, retyped_type, hcount, hd] at hsize
        obtain ⟨sz', hsz', hmul⟩ := Option.map_eq_some_iff.mp hsize
        right; right
        rw [hs, hsz', Nat.eq_of_mul_eq_mul_left (elemCount_pos count) hmul]

/-- A setter succeeds on a represented meter, wherever it is told to write. -/
theorem meterSet_represented {type : MeterId} {sz : Nat} {m : Meter} (now pos : Nat)
    (val : Slot) (hm : m.Represented) (hs : sizeofType type = some sz) (hv : val.OfType type) :
    ∃ m', meterSet type sz now m pos val = .ok m' ∧ m'.Represented ∧ m'.id = m.id := by
  unfold meterSet
  split
  · exact ⟨m, rfl, hm, rfl⟩
  · rename_i hlt
    have hlt' : m.count < SZ_EMPTY_VAL := by omega
    obtain ⟨a, ha, hsize, hlen, hslots⟩ := hm.array hlt'
    split
    · rename_i hpos
      obtain ⟨rfl, hpos⟩ := hpos
      rw [hs] at hsize
      have hsize : elemCount m.count * sz = a.size := by simpa using hsize
      have hin : (pos + 1) * sz ≤ a.size := by
        rw [← hsize]
        exact Nat.mul_le_mul_right _ hpos
      simp only [ha, if_pos hin]
      refine ⟨_, rfl, ⟨hm.count_le, fun _ => ⟨_, rfl, ?_, ?_, ?_⟩, fun h => absurd h hlt⟩, rfl⟩
      · change (sizeofType m.type).map _ = some a.size
        simpa [hs] using hsize
      · simpa using hlen
      · intro v hv'
        obtain h | h := List.mem_or_eq_of_mem_set hv'
        · exact hslots v h
        · rw [h]; exact hv
    · exact ⟨m, rfl, hm, rfl⟩

theorem meterAlloc_represented (id : MeterId) : (meterAlloc id).Represented := by
  refine ⟨?_, fun h => ?_, fun _ => rfl⟩
  · change SZ_EMPTY_VAL ≤ SZ_EMPTY_ARRAY
    decide
  · exact absurd h (Nat.lt_irrefl _)

theorem Host.updateMeter_represented {h : Host} {i : Nat} {f : Meter → Except Fault Meter}
    (hh : h.Represented) (hi : i < h.meters.length)
    (hf : ∀ m, m.Represented → ∃ m', f m = .ok m' ∧ m'.Represented ∧ m'.id = m.id) :
    ∃ h', h.updateMeter i f = .ok h' ∧ h'.Represented ∧
      h'.meters.length = h.meters.length := by
  obtain ⟨m', hm', hr, -⟩ := hf _ (hh _ (List.getElem_mem hi))
  refine ⟨{ h with meters := h.meters.set i m' }, ?_, ?_, by simp⟩
  · simp [Host.updateMeter, List.getElem?_eq_getElem hi, hm']
  · intro m hm
    obtain hm | rfl := List.mem_or_eq_of_mem_set hm
    · exact hh m hm
    · exact hr

theorem Host.updateMeter_shapes {h h' : Host} {i : Nat} {f : Meter → Except Fault Meter}
    (hf : ∀ m m', f m = .ok m' → m'.shape = m.shape) (hu : h.updateMeter i f = .ok h') :
    h'.shapes = h.shapes := by
  obtain ⟨m, m', hm, hm', rfl⟩ := updateMeter_ok hu
  simp only [Host.shapes, List.map_set, hf m m' hm']
  obtain ⟨hi, rfl⟩ := List.getElem?_eq_some_iff.mp hm
  rw [← List.getElem_map Meter.shape (h := by simpa using hi), List.set_getElem_self]

theorem hostFindPrefix_lt {h : Host} {pfx : MeterId} {prev : Option Nat} {i : Nat}
    (hi : hostFindPrefix h pfx prev = some i) : i < h.meters.length := by
  obtain ⟨j, hj, rfl⟩ := Option.map_eq_some_iff.mp hi
  obtain ⟨hlt, -⟩ := List.findIdx?_eq_some_iff_getElem.mp hj
  rw [List.length_drop] at hlt
  omega

theorem hostFindMeterName_lt {h : Host} {id : MeterId} {i : Nat}
    (hi : hostFindMeterName h id = some i) : i < h.meters.length := by
  obtain ⟨m, hm, -⟩ := hostFindMeterName_some hi
  exact (List.getElem?_eq_some_iff.mp hm).1

theorem emptyPrefixed_represented (pfx : MeterId) (n : Nat) (crsr : Option Nat) {h : Host}
    (hh : h.Represented) (hi : ∀ i ∈ crsr, i < h.meters.length) :
    ∃ h', emptyPrefixed pfx n crsr h = .ok h' ∧ h'.Represented := by
  induction n generalizing crsr h with
  | zero => exact ⟨h, rfl, hh⟩
  | succ n ih =>
    cases crsr with
    | none => exact ⟨h, rfl, hh⟩
    | some i =>
      obtain ⟨h', hu, hr, -⟩ := Host.updateMeter_represented hh (hi i rfl)
        fun m _ => meterSetEmptyArray_represented h.lastmodified m
      obtain ⟨h'', hu', hr'⟩ := ih (hostFindPrefix h' pfx (some i)) hr
        fun j hj => hostFindPrefix_lt hj
      exact ⟨h'', by simp [emptyPrefixed, hu, hu'], hr'⟩

theorem decodeEmptyArray_represented {h : Host} (mid : MeterId) (hh : h.Represented) :
    ∃ b h', decodeEmptyArray h mid = .ok (b, h') ∧ h'.Represented := by
  unfold decodeEmptyArray
  cases hp : hostFindPrefix h mid none with
  | some i =>
    obtain ⟨h', he, hr⟩ := emptyPrefixed_represented mid h.meters.length
      (some i) hh fun j hj => by cases hj; exact hostFindPrefix_lt hp
    exact ⟨true, h', by simp [he], hr⟩
  | none =>
    cases hn : hostFindMeterName h mid with
    | none => exact ⟨false, h, rfl, hh⟩
    | some i =>
      obtain ⟨h', hu, hr, -⟩ := Host.updateMeter_represented hh (hostFindMeterName_lt hn)
        fun m _ => meterSetEmptyArray_represented h.lastmodified m
      exact ⟨false, h', by simp [hu], hr⟩

/-- The first meter of the host with the name in an id. -/
def Host.named (h : Host) (id : MeterId) : Option Meter :=
  h.meters.find? fun m => m.name == id &&& MMASK_NAME

theorem find?_eraseIdx {α : Type} {p : α → Bool} {l : List α} {i : Nat} {a : α}
    (hi : l[i]? = some a) (ha : p a = false) : (l.eraseIdx i).find? p = l.find? p := by
  induction l generalizing i with
  | nil => rfl
  | cons b l ih =>
    cases i with
    | zero =>
      cases hi
      simp [ha]
    | succ i => simp only [List.eraseIdx_cons_succ, List.find?_cons, ih hi]

theorem displaceLoop_keeps (pfx : MeterId) (n : Nat) (h : Host) (strbuf : List UInt8) :
    (∀ m ∈ (displaceLoop pfx n h strbuf).1.meters, m ∈ h.meters) ∧
      ∀ mid : MeterId, pfx &&& MMASK_NAME ≠ mid &&& MMASK_NAME →
        (displaceLoop pfx n h strbuf).1.named mid = h.named mid := by
  induction n generalizing h strbuf with
  | zero => exact ⟨fun m hm => hm, fun mid _ => rfl⟩
  | succ n ih =>
    unfold displaceLoop
    cases hf : hostFindMeterName h pfx with
    | none => exact ⟨fun m hm => hm, fun mid _ => rfl⟩
    | some i =>
      obtain ⟨m₀, hm₀, hname, -⟩ := hostFindMeterName_some hf
      obtain ⟨hsub, hnamed⟩ := ih (hostDeleteMeter h i)
        (((overwrite strbuf (idChars ((h.meters[i]?.map Meter.id).getD 0))).set
          (idEnd (idChars ((h.meters[i]?.map Meter.id).getD 0)) + 1) 0))
      constructor
      · intro m hm
        exact List.mem_of_mem_eraseIdx (hsub m hm)
      · intro mid hne
        refine (hnamed mid hne).trans (find?_eraseIdx hm₀ ?_)
        simpa [hname] using hne

theorem decodeDisplace_represented {s : DecodeState} (mid : MeterId)
    (hs : s.host.Represented) :
    (decodeDisplace s mid).host.Represented ∧
      (decodeDisplace s mid).host.named mid = s.host.named mid := by
  by_cases hp : idgetprefix mid ≠ 0 ∧ idgetprefix mid ≠ s.lastpfx
  · simp only [decodeDisplace, if_pos hp]
    obtain ⟨hsub, hnamed⟩ :=
      displaceLoop_keeps ( idgetprefix mid) s.host.meters.length s.host s.strbuf
    exact ⟨fun m hm => hs m (hsub m hm), hnamed mid (idgetprefix_name_ne hp.1)⟩
  · simp only [decodeDisplace, if_neg hp]
    exact ⟨hs, trivial⟩

/-- The record leaves the size of the elements as it was, or leaves no elements. -/
def RecordFits (h : Host) (mid : MeterId) : Prop :=
  SZ_EMPTY_VAL ≤ (mid &&& MMASK_COUNT).toNat ∨
    ∀ m, h.named mid = some m → Retypable m.type (mid &&& MMASK_TYPE)

theorem decodeTarget_cases {h : Host} (mid : MeterId) (hh : h.Represented) :
    (decodeTarget h mid = (h, none) ∧ h.named mid = none) ∨
      ∃ h' i m, decodeTarget h mid = (h', some i) ∧ h'.meters[i]? = some m ∧
        h'.Represented ∧
        (Retypable m.type (mid &&& MMASK_TYPE) ↔
          ∀ m', h.named mid = some m' → Retypable m'.type (mid &&& MMASK_TYPE)) := by
  unfold decodeTarget
  cases hf : hostFindMeterName h mid with
  | some i =>
    obtain ⟨m, hm, -, hnamed⟩ := hostFindMeterName_some hf
    refine .inr ⟨h, i, m, rfl, hm, hh, ?_⟩
    simp [Host.named, hnamed]
  | none =>
    have hnamed : h.named mid = none := by
      rw [Host.named, List.find?_eq_none]
      intro m hm
      simpa using hostFindMeterName_none.mp hf m hm
    by_cases hq : h.mcount ≤ default_host_max_meters
    · right
      simp only [if_pos hq, hostGetMeter_new hf]
      refine ⟨_, _, meterAlloc (mid &&& (MMASK_TYPE ||| MMASK_NAME)), rfl, by simp, ?_, ?_⟩
      · intro m hm
        obtain hm | hm := List.mem_append.mp hm
        · exact hh m hm
        · rw [List.mem_singleton.mp hm]
          exact meterAlloc_represented _
      · refine iff_of_true (.inr ?_) (by simp [hnamed])
        simp [Meter.type, meterAlloc]
    · exact .inl ⟨by simp [hq], hnamed⟩

theorem Host.updateTarget_represented {h : Host} {M : Option Nat}
    {f : Meter → Except Fault Meter} (hh : h.Represented) (hM : ∀ j ∈ M, j < h.meters.length)
    (hf : ∀ m, m.Represented → ∃ m', f m = .ok m' ∧ m'.Represented ∧ m'.id = m.id) :
    ∃ h', h.updateTarget M f = .ok h' ∧ h'.Represented ∧
      h'.meters.length = h.meters.length := by
  cases M with
  | none => exact ⟨h, rfl, hh, rfl⟩
  | some i => exact Host.updateMeter_represented hh (hM i rfl) hf

theorem Host.updateTarget_shapes {h h' : Host} {M : Option Nat}
    {f : Meter → Except Fault Meter} (hf : ∀ m m', f m = .ok m' → m'.shape = m.shape)
    (hu : h.updateTarget M f = .ok h') : h'.shapes = h.shapes := by
  cases M with
  | none => cases hu; rfl
  | some i => exact Host.updateMeter_shapes hf hu

theorem decodeValue_represented {s : DecodeState} (mid : MeterId) {M : Option Nat} (i : Nat)
    (hs : s.host.Represented) (hM : ∀ j ∈ M, j < s.host.meters.length) :
    ∃ r, decodeValue s mid M i = .ok r ∧ ∀ s' ∈ r,
      s'.host.Represented ∧ s'.host.meters.length = s.host.meters.length := by
  unfold decodeValue
  split_ifs
  · obtain ⟨h', hu, hr, hl⟩ := Host.updateTarget_represented hs hM fun m hm =>
      meterSet_represented s.host.lastmodified i
        (.int (ioportReadEncint s.io).1) hm rfl rfl
    exact ⟨_, by simp only [meterSetUint, hu]; rfl, by rintro _ ⟨⟩; exact ⟨hr, hl⟩⟩
  · obtain ⟨h', hu, hr, hl⟩ := Host.updateTarget_represented hs hM fun m hm =>
      meterSet_represented s.host.lastmodified i
        (.frac (ioportReadEncfrac s.io).1) hm rfl rfl
    exact ⟨_, by simp only [meterSetFrac, hu]; rfl, by rintro _ ⟨⟩; exact ⟨hr, hl⟩⟩
  · obtain ⟨h', hu, hr, hl⟩ := Host.updateTarget_represented hs hM fun m hm =>
      meterSet_represented s.host.lastmodified i
        (.str (FString.strncpy (ioportReadEncstring s.io s.strbuf).2.1)) hm rfl rfl
    exact ⟨_, by simp only [meterSetStr, hu]; rfl, by rintro _ ⟨⟩; exact ⟨hr, hl⟩⟩
  · exact ⟨none, rfl, by simp⟩

theorem decodeValues_represented {mid : MeterId} {M : Option Nat} (n i : Nat) {s : DecodeState}
    (hs : s.host.Represented) (hM : ∀ j ∈ M, j < s.host.meters.length) :
    ∃ ok s', decodeValues mid M n i s = .ok (ok, s') ∧ s'.host.Represented := by
  induction n generalizing i s with
  | zero => exact ⟨true, s, rfl, hs⟩
  | succ n ih =>
    obtain ⟨r, hr, hkeep⟩ := decodeValue_represented mid i hs hM
    cases r with
    | none => exact ⟨false, s, by simp [decodeValues, hr], hs⟩
    | some s' =>
      obtain ⟨hs', hlen⟩ := hkeep s' rfl
      obtain ⟨ok, s'', hrest, hs''⟩ := ih (i + 1) hs' (by rw [hlen]; exact hM)
      exact ⟨ok, s'', by simp [decodeValues, hr, hrest], hs''⟩

theorem decodeValue_shapes {s s' : DecodeState} {mid : MeterId} {M : Option Nat} {i : Nat}
    (h : decodeValue s mid M i = .ok (some s')) : s'.host.shapes = s.host.shapes := by
  unfold decodeValue at h
  split_ifs at h
  all_goals
    simp only [Outcome.bind_ok_iff, Outcome.pure_ok, Except.ok.injEq, Option.some.injEq,
      reduceCtorEq] at h
    try
      obtain ⟨h', hu, rfl⟩ := h
      exact Host.updateTarget_shapes (fun _ _ => meterSet_shape) hu

theorem decodeValues_shapes {mid : MeterId} {M : Option Nat} {n i : Nat} {s s' : DecodeState}
    {ok : Bool} (h : decodeValues mid M n i s = .ok (ok, s')) :
    s'.host.shapes = s.host.shapes := by
  induction n generalizing i s with
  | zero => cases h; rfl
  | succ n ih =>
    simp only [decodeValues, Outcome.bind_ok_iff] at h
    obtain ⟨r, hr, h⟩ := h
    cases r with
    | none => cases h; rfl
    | some s₁ => rw [ih h, decodeValue_shapes hr]

theorem decodeMeter_represented {s : DecodeState} (mid : MeterId) (hs : s.host.Represented) :
    (∃ ok s', decodeMeter s mid = .ok (ok, s') ∧ s'.host.Represented) ↔
      RecordFits s.host mid := by
  have hcount : (mid &&& MMASK_COUNT).toNat ≤ SZ_EMPTY_ARRAY := by
    rw [BitVec.toNat_and]
    exact Nat.and_le_right
  obtain ⟨hd, hnamed⟩ := decodeDisplace_represented mid hs
  unfold decodeMeter RecordFits
  simp only [← hnamed]
  generalize (mid &&& MMASK_COUNT).toNat = count at hcount ⊢
  generalize decodeDisplace s mid = s at hd ⊢
  obtain ⟨ht, hnone⟩ | ⟨h', i, m, ht, hm, hr, hfit⟩ := decodeTarget_cases mid hd
  · -- the record is skipped: its values are read and dropped
    simp only [ht, hnone, Host.updateTarget, Outcome.ok_bind]
    refine iff_of_true ?_ (.inr (by simp))
    split
    · exact ⟨true, s, rfl, hd⟩
    · exact decodeValues_represented _ _ hd (by simp)
  · obtain ⟨hi, rfl⟩ := List.getElem?_eq_some_iff.mp hm
    obtain ⟨m', hsetup, hgood, honly⟩ :=
      decodeSetup_represented h'.lastmodified mid h'.meters[i] hcount
    have hu : h'.updateMeter i (decodeSetup h'.lastmodified mid count) =
        .ok { h' with meters := h'.meters.set i m' } := by
      simp [Host.updateMeter, List.getElem?_eq_getElem hi, hsetup]
    simp only [ht, Host.updateTarget, hu, Outcome.ok_bind]
    rw [← hfit]
    constructor
    · rintro ⟨ok, s', hres, hrep⟩
      by_cases hlt : SZ_EMPTY_VAL ≤ elemCount count
      · exact .inl (by have := elemCount_lt count; omega)
      · rw [if_neg hlt] at hres
        have hshape := congrArg (·[i]?) (decodeValues_shapes hres)
        simp only [Host.shapes, List.getElem?_map, List.getElem?_set_self hi] at hshape
        obtain ⟨m'', hm'', hshape⟩ := Option.map_eq_some_iff.mp hshape
        exact honly m'' (hrep m'' (List.mem_of_getElem? hm'')) hshape
    · intro hfits
      have hrep : ({ h' with meters := h'.meters.set i m' } : Host).Represented := by
        intro m hm
        obtain hm | rfl := List.mem_or_eq_of_mem_set hm
        · exact hr m hm
        · exact hgood hfits
      split
      · exact ⟨true, _, rfl, hrep⟩
      · exact decodeValues_represented _ _ hrep (by simpa using hi)

/-- A record succeeds and keeps every array as it should be exactly if it fits. -/
theorem decodeRecord_represented {s : DecodeState} (mid : MeterId) (hs : s.host.Represented) :
    (∃ ok s', decodeRecord s mid = .ok (ok, s') ∧ s'.host.Represented) ↔
      RecordFits s.host mid := by
  unfold decodeRecord
  split
  · rename_i hc
    have hge : SZ_EMPTY_VAL ≤ (mid &&& MMASK_COUNT).toNat := by rw [hc]; decide
    obtain ⟨finished, h', he, hr⟩ := decodeEmptyArray_represented mid hs
    refine iff_of_true ?_ (.inl hge)
    simp only [he, Outcome.ok_bind]
    cases finished with
    | true => exact ⟨true, _, rfl, hr⟩
    | false => exact (decodeMeter_represented mid hr).mpr (.inl hge)
  · exact decodeMeter_represented mid hs

theorem Meter.Represented.inBounds {m : Meter} (hm : m.Represented) {sz pos : Nat}
    (hc : m.count < SZ_EMPTY_VAL) (hs : sizeofType m.type = some sz) :
    m.inBounds sz pos = .ok () ↔ pos < elemCount m.count := by
  obtain ⟨a, ha, hsize, -, -⟩ := hm.array hc
  rw [hs, Option.map_some, Option.some.injEq] at hsize
  have hsz : 0 < sz := by
    unfold sizeofType at hs
    split_ifs at hs <;> cases hs <;> decide
  simp only [Meter.inBounds, ha, ← hsize]
  constructor
  · intro h
    by_contra hge
    rw [if_neg] at h
    · cases h
    · exact Nat.not_le.mpr (Nat.mul_lt_mul_of_pos_right (by omega) hsz)
  · intro h
    rw [if_pos (Nat.mul_le_mul_right _ h)]

/-- A meter with elements has one of the three types that are known. -/
theorem Meter.Represented.type_cases {m : Meter} (hm : m.Represented)
    (hc : m.count < SZ_EMPTY_VAL) :
    m.type = MTYPE_INT ∨ m.type = MTYPE_FRAC ∨ m.type = MTYPE_STR := by
  obtain ⟨a, -, hsize, -, -⟩ := hm.array hc
  obtain ⟨sz, hsz, -⟩ := Option.map_eq_some_iff.mp hsize
  unfold sizeofType at hsz
  split_ifs at hsz with h₁ h₂ h₃
  · exact .inl h₁
  · exact .inr (.inl h₂)
  · exact .inr (.inr h₃)

end Opticon
