import Opticon.Wire.Representation

/-! Whether the values of a host's meters can be read after its packets were decoded. -/

namespace Opticon

/-- A meter with values has a block that is large enough for them, and one without has none. -/
structure Meter.Covered (m : Meter) : Prop where
  array : m.count < SZ_EMPTY_VAL → ∃ a, m.d = some a ∧
    ∀ sz, sizeofType m.type = some sz → elemCount m.count * sz ≤ a.size
  empty : SZ_EMPTY_VAL ≤ m.count → m.d = none

def Host.Covered (h : Host) : Prop := ∀ m ∈ h.meters, m.Covered

variable {h h' : Host} {m m' : Meter} {now count i k n sz : Nat} {mid : MeterId}
  {s s' : DecodeState} {ok : Bool}

section Setters

theorem Meter.Covered.of_shape (hm : m.Covered) (hs : m'.shape = m.shape) : m'.Covered := by
  simp only [Meter.shape, Prod.mk.injEq] at hs
  obtain ⟨hid, hcount, hd⟩ := hs
  refine ⟨fun hlt => ?_, fun hge => ?_⟩
  · rw [hcount] at hlt
    obtain ⟨a, ha, hroom⟩ := hm.array hlt
    rw [ha, Option.map_some] at hd
    obtain ⟨a', ha', hsize⟩ := Option.map_eq_some_iff.mp hd
    refine ⟨a', ha', fun sz hsz => ?_⟩
    rw [hcount, hsize]
    apply hroom
    rw [← hsz, Meter.type, Meter.type, hid]
  · rw [hcount] at hge
    rw [hm.empty hge, Option.map_none] at hd
    exact Option.map_eq_none_iff.mp hd

theorem Host.Covered.of_shapes (hh : h.Covered) (hs : h'.shapes = h.shapes) : h'.Covered := by
  intro m' hm'
  have hmem : m'.shape ∈ h.shapes := hs ▸ List.mem_map_of_mem hm'
  obtain ⟨m, hm, hshape⟩ := List.mem_map.mp hmem
  exact (hh m hm).of_shape hshape.symm

theorem meterAlloc_covered (id : MeterId) : (meterAlloc id).Covered :=
  ⟨fun h => absurd h (Nat.lt_irrefl _), fun _ => rfl⟩

/-- The block is made for the type the meter has. -/
theorem meterSetcount_covered (hs : meterSetcount now m count = .ok m') : m'.Covered := by
  unfold meterSetcount at hs
  dsimp only at hs
  split_ifs at hs with hbig hempty
  · cases hs
    refine ⟨fun hlt => absurd ((elemCount_lt count).mpr hlt) (Nat.not_lt.mpr hempty), fun _ => rfl⟩
  · cases hsz : sizeofType m.type with
    | none =>
      rw [hsz] at hs
      cases hs
      exact ⟨fun h => absurd h (Nat.lt_irrefl _), fun _ => rfl⟩
    | some sz =>
      rw [hsz] at hs
      cases hs
      refine ⟨fun _ => ⟨_, rfl, fun sz' hsz' => ?_⟩, fun hge => absurd ((elemCount_lt count).mp ?_) ?_⟩
      · obtain rfl := Option.some.inj (hsz.symm.trans hsz')
        exact Nat.le_refl _
      · exact Nat.not_le.mp hempty
      · exact Nat.not_lt.mpr hge

theorem meterSetcount_counts (hs : meterSetcount now m count = .ok m') :
    m'.count = count ∨ m'.count = SZ_EMPTY_VAL := by
  unfold meterSetcount at hs
  dsimp only at hs
  split_ifs at hs
  · cases hs
    exact .inl rfl
  · cases hsz : sizeofType m.type with
    | none =>
      rw [hsz] at hs
      cases hs
      exact .inr rfl
    | some sz =>
      rw [hsz] at hs
      cases hs
      exact .inl rfl

theorem updateMeter_covered {f : Meter → Except Fault Meter} (hh : h.Covered)
    (hf : ∀ m m', m.Covered → f m = .ok m' → m'.Covered) (hu : h.updateMeter i f = .ok h') :
    h'.Covered := by
  obtain ⟨m, m', hm, hfm, rfl⟩ := updateMeter_ok hu
  intro x hx
  obtain hx | rfl := List.mem_or_eq_of_mem_set hx
  · exact hh x hx
  · exact hf m _ (hh m (List.mem_of_getElem? hm)) hfm

theorem updateMeter_setcount_covered (hh : h.Covered)
    (hu : h.updateMeter i (fun m => meterSetcount now m count) = .ok h') : h'.Covered :=
  updateMeter_covered hh (fun _ _ _ hs => meterSetcount_covered hs) hu

theorem updateMeter_set_covered {type : MeterId} {val : Slot} (hh : h.Covered)
    (hu : h.updateMeter i (fun m => meterSet type sz now m k val) = .ok h') : h'.Covered :=
  updateMeter_covered hh (fun _ _ hm hs => hm.of_shape (meterSet_shape hs)) hu

theorem hostGetMeter_covered (hh : h.Covered) (id : MeterId) : (hostGetMeter h id).1.Covered := by
  unfold hostGetMeter
  dsimp only
  split
  · exact hh
  · intro m hm
    obtain hm | hm := List.mem_append.mp hm
    · exact hh m hm
    · rw [List.mem_singleton.mp hm]
      exact meterAlloc_covered _

end Setters

section Decoder

theorem emptyPrefixed_covered {pfx : MeterId} {crsr : Option Nat} (hh : h.Covered)
    (he : emptyPrefixed pfx n crsr h = .ok h') : h'.Covered := by
  induction n generalizing crsr h with
  | zero =>
    cases he
    exact hh
  | succ n ih =>
    cases crsr with
    | none =>
      cases he
      exact hh
    | some i =>
      obtain ⟨h₁, hu, he⟩ := Outcome.bind_ok_iff.mp he
      exact ih (updateMeter_setcount_covered hh hu) he

theorem decodeEmptyArray_covered (hh : h.Covered) (he : decodeEmptyArray h mid = .ok (ok, h')) :
    h'.Covered := by
  unfold decodeEmptyArray at he
  split at he
  · obtain ⟨h₁, hloop, he⟩ := Outcome.bind_ok_iff.mp he
    cases he
    exact emptyPrefixed_covered hh hloop
  · split at he
    · obtain ⟨h₁, hu, he⟩ := Outcome.bind_ok_iff.mp he
      cases he
      exact updateMeter_setcount_covered hh hu
    · cases he
      exact hh

theorem decodeDisplace_covered (hh : s.host.Covered) : (decodeDisplace s mid).host.Covered := by
  unfold decodeDisplace
  dsimp only
  split
  · exact fun m hm => hh m ((displaceLoop_keeps _ _ _ _).1 m hm)
  · exact hh

theorem decodeTarget_covered (hh : h.Covered) (mid : MeterId) : (decodeTarget h mid).1.Covered := by
  unfold decodeTarget
  split
  · exact hh
  · split
    · exact hostGetMeter_covered hh mid
    · exact hh

/-- A value can be written only where the block has room for it. -/
theorem meterSet_room {type : MeterId} {val : Slot} (hs : meterSet type sz now m k val = .ok m')
    (hlt : m.count < SZ_EMPTY_VAL) (htype : m.type = type) (hk : k < elemCount m.count) :
    ∃ a, m.d = some a ∧ (k + 1) * sz ≤ a.size := by
  unfold meterSet at hs
  rw [if_neg (Nat.not_le.mpr hlt), if_pos ⟨htype, hk⟩] at hs
  cases hd : m.d with
  | none =>
    rw [hd] at hs
    cases hs
  | some a =>
    rw [hd] at hs
    dsimp only at hs
    split_ifs at hs with hroom
    exact ⟨a, rfl, hroom⟩

theorem updateTarget_room {type : MeterId} {val : Slot} (hm : h.meters[i]? = some m)
    (hlt : m.count < SZ_EMPTY_VAL) (htype : m.type = type) (hk : k < elemCount m.count)
    (hu : h.updateTarget (some i) (fun m => meterSet type sz now m k val) = .ok h') :
    (∃ m', h'.meters[i]? = some m' ∧ m'.shape = m.shape) ∧
      ∃ a, m.d = some a ∧ (k + 1) * sz ≤ a.size := by
  obtain ⟨m₁, m', hm₁, hset, rfl⟩ := updateMeter_ok hu
  obtain rfl := Option.some.inj (hm₁.symm.trans hm)
  refine ⟨⟨m', ?_, meterSet_shape hset⟩, meterSet_room hset hlt htype hk⟩
  exact List.getElem?_set_self (List.getElem?_eq_some_iff.mp hm).1

theorem decodeValue_room {r : Option DecodeState} (hm : s.host.meters[i]? = some m)
    (hsz : sizeofType m.type = some sz) (htype : m.type = mid &&& MMASK_TYPE)
    (hlt : m.count < SZ_EMPTY_VAL) (hk : k < elemCount m.count)
    (hv : decodeValue s mid (some i) k = .ok r) :
    ∃ s', r = some s' ∧ (∃ m', s'.host.meters[i]? = some m' ∧ m'.shape = m.shape) ∧
      ∃ a, m.d = some a ∧ (k + 1) * sz ≤ a.size := by
  unfold decodeValue at hv
  rw [← htype] at hv
  split_ifs at hv with hint hfrac hstr
  · rw [hint] at hsz
    cases hsz
    obtain ⟨h₁, hu, hv⟩ := Outcome.bind_ok_iff.mp hv
    cases hv
    exact ⟨_, rfl, updateTarget_room hm hlt hint hk hu⟩
  · rw [hfrac] at hsz
    cases hsz
    obtain ⟨h₁, hu, hv⟩ := Outcome.bind_ok_iff.mp hv
    cases hv
    exact ⟨_, rfl, updateTarget_room hm hlt hfrac hk hu⟩
  · rw [hstr] at hsz
    cases hsz
    obtain ⟨h₁, hu, hv⟩ := Outcome.bind_ok_iff.mp hv
    cases hv
    exact ⟨_, rfl, updateTarget_room hm hlt hstr hk hu⟩
  · rw [sizeofType, if_neg hint, if_neg hfrac, if_neg hstr] at hsz
    cases hsz

/-- A record of a type with values is read to its end only if the block has room for all of them. -/
theorem decodeValues_room (hm : s.host.meters[i]? = some m) (hsz : sizeofType m.type = some sz)
    (htype : m.type = mid &&& MMASK_TYPE) (hlt : m.count < SZ_EMPTY_VAL)
    (hk : k + (n + 1) ≤ elemCount m.count)
    (hv : decodeValues mid (some i) (n + 1) k s = .ok (ok, s')) :
    ∃ a, m.d = some a ∧ (k + (n + 1)) * sz ≤ a.size := by
  induction n generalizing k s m with
  | zero =>
    obtain ⟨r, hr, -⟩ := Outcome.bind_ok_iff.mp hv
    obtain ⟨-, -, -, hroom⟩ := decodeValue_room hm hsz htype hlt (Nat.lt_of_succ_le hk) hr
    exact hroom
  | succ n ih =>
    obtain ⟨r, hr, hv⟩ := Outcome.bind_ok_iff.mp hv
    obtain ⟨s₁, rfl, ⟨m', hm', hshape⟩, -⟩ := decodeValue_room hm hsz htype hlt (by omega) hr
    simp only [Meter.shape, Prod.mk.injEq] at hshape
    obtain ⟨hid, hcount, hd⟩ := hshape
    have htype' : m'.type = m.type := by rw [Meter.type, Meter.type, hid]
    obtain ⟨a', ha', hroom⟩ := ih hm' (htype' ▸ hsz) (htype'.trans htype) (hcount ▸ hlt)
      (by rw [hcount]; omega) hv
    rw [ha', Option.map_some] at hd
    obtain ⟨a, ha, hsize⟩ := Option.map_eq_some_iff.mp hd.symm
    refine ⟨a, ha, ?_⟩
    rw [hsize]
    have hsum : k + (n + 1 + 1) = k + 1 + (n + 1) := by omega
    rwa [hsum]

/-- The block of the meter of a record was made for the type that the meter had. -/
theorem decodeSetup_parts (hs : decodeSetup now mid count m = .ok m') :
    m'.type = mid &&& MMASK_TYPE ∧ ∃ m₁ : Meter, m₁.Covered ∧
      (m₁.count = count ∨ m₁.count = SZ_EMPTY_VAL) ∧ m'.count = m₁.count ∧ m'.d = m₁.d := by
  obtain ⟨m₁, hcount, hs⟩ := Outcome.bind_ok_iff.mp hs
  cases hs
  exact ⟨retyped_type m₁.id mid, m₁, meterSetcount_covered hcount, meterSetcount_counts hcount, rfl, rfl⟩

theorem decodeMeter_covered (hh : s.host.Covered) (hd : decodeMeter s mid = .ok (ok, s')) :
    s'.host.Covered := by
  have hplain : (decodeTarget (decodeDisplace s mid).host mid).1.Covered :=
    decodeTarget_covered (decodeDisplace_covered hh) mid
  unfold decodeMeter at hd
  dsimp only at hd
  generalize decodeDisplace s mid = s₁ at hd hplain
  generalize decodeTarget s₁.host mid = x at hd hplain
  obtain ⟨h₂, M⟩ := x
  dsimp only at hd hplain
  obtain ⟨h₃, hu, hd⟩ := Outcome.bind_ok_iff.mp hd
  have hkept : s'.host.shapes = h₃.shapes := by
    split_ifs at hd
    · cases hd
      rfl
    · exact decodeValues_shapes hd
  refine Host.Covered.of_shapes ?_ hkept
  cases M with
  | none =>
    cases hu
    exact hplain
  | some i =>
    obtain ⟨m, m', hm, hsetup, rfl⟩ := updateMeter_ok hu
    intro m₀ hm₀
    obtain hm₀ | rfl := List.mem_or_eq_of_mem_set hm₀
    · exact hplain m₀ hm₀
    obtain ⟨htype, m₁, hm₁, hcount, hsame, hblock⟩ := decodeSetup_parts hsetup
    refine ⟨fun hlt => ?_, fun hge => hblock.trans (hm₁.empty (hsame ▸ hge))⟩
    obtain ⟨a, ha, -⟩ := hm₁.array (hsame ▸ hlt)
    refine ⟨a, hblock.trans ha, fun sz hsz => ?_⟩
    -- that all values of the record were written shows that there is room for them
    obtain hcount | hcount := hcount
    · have hn := elemCount_pos (mid &&& MMASK_COUNT).toNat
      have hcounted : m₀.count = (mid &&& MMASK_COUNT).toNat := hsame.trans hcount
      rw [if_neg (Nat.not_le.mpr ((elemCount_lt _).mpr (hcounted ▸ hlt))), ← hcounted] at hd
      rw [← hcounted] at hn
      obtain ⟨n, hn⟩ := Nat.exists_eq_succ_of_ne_zero hn.ne'
      rw [hn] at hd ⊢
      obtain ⟨a', ha', hroom⟩ := decodeValues_room
        (List.getElem?_set_self (List.getElem?_eq_some_iff.mp hm).1) hsz htype hlt
        (by rw [hn, Nat.zero_add]) hd
      obtain rfl := Option.some.inj ((hblock.trans ha).symm.trans ha')
      rwa [Nat.zero_add] at hroom
    · exact absurd hlt (by rw [hsame, hcount]; exact Nat.lt_irrefl _)

theorem decodeRecord_covered (hh : s.host.Covered) (hd : decodeRecord s mid = .ok (ok, s')) :
    s'.host.Covered := by
  unfold decodeRecord at hd
  split at hd
  · obtain ⟨⟨finished, h₁⟩, hempty, hd⟩ := Outcome.bind_ok_iff.mp hd
    have hh₁ := decodeEmptyArray_covered hh hempty
    dsimp only at hd
    split at hd
    · cases hd
      exact hh₁
    · exact decodeMeter_covered hh₁ hd
  · exact decodeMeter_covered hh hd

theorem decodeLoop_covered (hh : s.host.Covered) (hd : decodeLoop n s = .ok (ok, s')) :
    s'.host.Covered := by
  induction n generalizing s with
  | zero =>
    cases hd
    exact hh
  | succ n ih =>
    unfold decodeLoop at hd
    dsimp only at hd
    split at hd
    · cases hd
      exact hh
    · obtain ⟨⟨ok₁, s₁⟩, hrec, hd⟩ := Outcome.bind_ok_iff.mp hd
      have hh₁ := decodeRecord_covered (s := { s with io := (ioportReadU64 s.io).2 }) hh hrec
      dsimp only at hd
      split at hd
      · exact ih hh₁ hd
      · cases hd
        exact hh₁

theorem pktcodecDecodeHost_covered {io : Ioport} {strbuf : List UInt8} (hh : h.Covered)
    (hd : pktcodecDecodeHost io h strbuf = .ok (ok, s)) : s.host.Covered :=
  decodeLoop_covered (s := ⟨io, h, 0, strbuf⟩) hh hd

end Decoder

section Getters

theorem Meter.Covered.holds {type : MeterId} (hm : m.Covered) (hsz : sizeofType type = some sz) :
    m.Holds type sz := by
  intro hlt htype
  obtain ⟨a, ha, hroom⟩ := hm.array hlt
  exact ⟨a, ha, hroom sz (htype ▸ hsz)⟩

end Getters

end Opticon
