import Opticon.Wire.Packets
import Opticon.Wire.ValueCodec

/-! Decoding into a fresh host what was encoded. -/

namespace Opticon

/-- The value that is read, what the string buffer holds then, and the port behind it. -/
def readValue (type : MeterId) (strbuf : List UInt8) (io : Ioport) :
    Slot × List UInt8 × Ioport :=
  if type = MTYPE_INT then (.int (ioportReadEncint io).1, strbuf, (ioportReadEncint io).2)
  else if type = MTYPE_FRAC then
    (.frac (ioportReadEncfrac io).1, strbuf, (ioportReadEncfrac io).2)
  else
    let r := ioportReadEncstring io strbuf
    (.str (FString.strncpy r.2.1), r.2.1, r.2.2)

/-- The value codec alone reads the value of a meter at `pos` back as `v`, from exactly the
bytes it wrote, whatever follows them. -/
def ReadsBack (m : Meter) (pos : Nat) (v : Slot) : Prop :=
  ∃ w, pktcodecWriteValue .writer m pos = .ok (true, w) ∧
    ∀ io rest strbuf, io.unread = w.written ++ rest →
      (readValue m.type strbuf io).1 = v ∧ (readValue m.type strbuf io).2.2.unread = rest

/-- What the value codec makes of a string is always read back. -/
theorem readsBack_str {m : Meter} {pos : Nat} {w : Ioport} (ht : m.type = MTYPE_STR)
    (hw : pktcodecWriteValue .writer m pos = .ok (true, w)) :
    ReadsBack m pos (.str (recoded (m.str pos))) := by
  refine ⟨w, hw, fun io rest strbuf hu => ?_⟩
  have h₁ : MTYPE_STR ≠ MTYPE_INT := by decide
  have h₂ : MTYPE_STR ≠ MTYPE_FRAC := by decide
  simp only [pktcodecWriteValue, ht, if_neg h₁, if_neg h₂, if_true, Outcome.bind_ok_iff] at hw
  obtain ⟨-, -, hw⟩ := hw
  obtain ⟨hval, hunread⟩ := ioportReadEncstring_written hw strbuf hu
  simp only [readValue, ht, if_neg h₁, if_neg h₂]
  exact ⟨congrArg Slot.str hval, hunread⟩

/-- A meter as it comes back: each of its values is what the value codec reads back. -/
structure Meter.RoundTrips (m m' : Meter) : Prop where
  id : m'.id = m.id
  count : m'.count = m.count
  empty : SZ_EMPTY_VAL ≤ m.count → m'.d = none
  values : m.count < SZ_EMPTY_VAL → ∃ a, m'.d = some a ∧ a.slots.length = elemCount m.count ∧
    ∀ pos < elemCount m.count, ∃ v, a.slots[pos]? = some v ∧ ReadsBack m pos v

def Meter.word (m : Meter) : MeterId := m.id ||| BitVec.ofNat 64 m.count

def valueBytes (m : Meter) (pos : Nat) : List UInt8 :=
  match pktcodecWriteValue .writer m pos with
  | .ok (true, io) => io.written
  | _ => []

def valuesBytes (m : Meter) : List UInt8 :=
  if elemCount m.count < SZ_EMPTY_VAL then
    (List.range' 0 (elemCount m.count)).flatMap (valueBytes m)
  else []

def meterBytes (m : Meter) : List UInt8 := be64 m.word ++ valuesBytes m

theorem bigEndian_step {w : Nat} (i : BitVec w) (s : Nat) :
    (i >>> (s + 8)) <<< 8 ||| ((i >>> s).setWidth 8).setWidth w = i >>> s := by
  apply BitVec.eq_of_getLsbD_eq
  intro j hj
  simp only [BitVec.getLsbD_or, BitVec.getLsbD_shiftLeft, BitVec.getLsbD_ushiftRight,
    BitVec.getLsbD_setWidth]
  by_cases h8 : j < 8
  · simp [h8, hj]
  · simp [h8, hj, show s + 8 + (j - 8) = s + j by omega]

theorem ushiftRight_all {w : Nat} (i : BitVec w) {s : Nat} (h : w ≤ s) : i >>> s = 0 := by
  apply BitVec.eq_of_getLsbD_eq
  intro j hj
  rw [BitVec.getLsbD_ushiftRight, BitVec.getLsbD_of_ge i _ (by omega)]
  simp

@[simp] theorem be64toh_be64 (i : BitVec 64) : be64toh (be64 i) = i := by
  simp only [be64toh, be64, List.map_cons, List.map_nil, List.foldl_cons, List.foldl_nil]
  rw [← ushiftRight_all i (show 64 ≤ 56 + 8 by decide), bigEndian_step i 56, bigEndian_step i 48,
    bigEndian_step i 40, bigEndian_step i 32, bigEndian_step i 24, bigEndian_step i 16,
    bigEndian_step i 8, bigEndian_step i 0, BitVec.ushiftRight_zero]

theorem ioportReadU64_be64 {io : Ioport} {i : BitVec 64} {rest : List UInt8}
    (h : io.unread = be64 i ++ rest) :
    ioportReadU64 io = (i, { io with unread := rest, bitpos := 0, bitbuffer := 0 }) := by
  have hread : ioportRead io 8 = _ := ioportRead_enough io (be64 i) rest h
  simp [ioportReadU64, hread]

section Encoding

theorem ReadsBack.write {m : Meter} {pos : Nat} {v : Slot} (h : ReadsBack m pos v)
    (w : List UInt8) :
    pktcodecWriteValue (.port w) m pos = .ok (true, .port (w ++ valueBytes m pos)) := by
  obtain ⟨io, hio, -⟩ := h
  rw [pktcodecWriteValue_port hio, valueBytes, hio]

theorem encodeValues_port {m : Meter} {n i : Nat}
    (h : ∀ pos, i ≤ pos → pos < i + n → ∃ v, ReadsBack m pos v) (w : List UInt8) :
    encodeValues m n i (.port w) =
      .ok (true, .port (w ++ (List.range' i n).flatMap (valueBytes m))) := by
  induction n generalizing i w with
  | zero => simp [encodeValues]
  | succ n ih =>
    obtain ⟨v, hv⟩ := h i le_rfl (by omega)
    simp only [encodeValues, hv.write, Outcome.ok_bind, if_true]
    rw [ih fun pos h₁ h₂ => h pos (by omega) (by omega)]
    simp [List.range'_succ]

theorem encodeMeters_port {ms : List Meter}
    (h : ∀ m ∈ ms, m.count < SZ_EMPTY_VAL → ∀ pos < elemCount m.count, ∃ v, ReadsBack m pos v)
    (w : List UInt8) :
    encodeMeters ms (.port w) = .ok (true, .port (w ++ ms.flatMap meterBytes)) := by
  induction ms generalizing w with
  | nil => simp [encodeMeters]
  | cons m ms ih =>
    have ih := ih fun m' hm' => h m' (List.mem_cons_of_mem _ hm')
    simp only [encodeMeters, ioportWriteU64_port]
    split
    · rename_i hlt
      have hvals := encodeValues_port (m := m) (n := elemCount m.count) (i := 0)
        fun pos _ hpos => h m List.mem_cons_self ((elemCount_lt _).mp hlt) pos (by omega)
      simp only [hvals, Outcome.ok_bind, if_true, ih, List.flatMap_cons, meterBytes, valuesBytes,
        if_pos hlt, Meter.word, List.append_assoc]
    · rename_i hlt
      simp only [ih, List.flatMap_cons, meterBytes, valuesBytes, if_neg hlt, Meter.word,
        List.append_nil, List.append_assoc]

end Encoding

section Decoding

theorem decodeValue_eq {s : DecodeState} {mid : MeterId} {sz : Nat}
    (hs : sizeofType (mid &&& MMASK_TYPE) = some sz) (M : Option Nat) (i : Nat) :
    decodeValue s mid M i =
      (s.host.updateTarget M fun m => meterSet (mid &&& MMASK_TYPE) sz s.host.lastmodified m i
        (readValue (mid &&& MMASK_TYPE) s.strbuf s.io).1) >>= fun host => .ok (some { s with
          io := (readValue (mid &&& MMASK_TYPE) s.strbuf s.io).2.2
          host := host
          strbuf := (readValue (mid &&& MMASK_TYPE) s.strbuf s.io).2.1 }) := by
  unfold sizeofType at hs
  unfold decodeValue readValue
  split_ifs at hs ⊢ with h₁ h₂ h₃ <;> simp only [Option.some.injEq] at hs <;> subst hs
  · simp only [h₁]; rfl
  · simp only [h₂]; rfl
  · simp only [h₃]; rfl

/-- The first `i` values are in. -/
structure Meter.FilledTo (m : Meter) (sz i : Nat) (mm : Meter) : Prop where
  id : mm.id = m.id
  count : mm.count = m.count
  array : ∃ slots, mm.d = some ⟨elemCount m.count * sz, slots⟩ ∧
    slots.length = elemCount m.count ∧
    ∀ pos < i, ∃ v, slots[pos]? = some v ∧ ReadsBack m pos v

theorem Meter.FilledTo.set {m mm : Meter} {sz i : Nat} (h : m.FilledTo sz i mm)
    (hlt : m.count < SZ_EMPTY_VAL) (hi : i < elemCount m.count) {v : Slot}
    (hv : ReadsBack m i v) (now : Nat) :
    ∃ mm', meterSet m.type sz now mm i v = .ok mm' ∧ m.FilledTo sz (i + 1) mm' := by
  obtain ⟨hid, hcount, slots, hd, hlen, hvals⟩ := h
  have htype : mm.type = m.type := by rw [Meter.type, hid, Meter.type]
  have hin : (i + 1) * sz ≤ elemCount m.count * sz := Nat.mul_le_mul_right _ hi
  unfold meterSet
  rw [hcount, if_neg (Nat.not_le.mpr hlt), if_pos ⟨htype, hi⟩, hd]
  simp only [if_pos hin]
  refine ⟨_, rfl, hid, rfl, slots.set i v, rfl, by rw [List.length_set, hlen], ?_⟩
  intro pos hpos
  by_cases hp : pos = i
  · subst hp
    exact ⟨v, List.getElem?_set_self (by omega), hv⟩
  · rw [List.getElem?_set_ne (Ne.symm hp)]
    exact hvals pos (by omega)

theorem updateMeter_last {h : Host} {pre : List Meter} {mm mm' : Meter}
    {f : Meter → Except Fault Meter} (hm : h.meters = pre ++ [mm]) (hf : f mm = .ok mm') :
    h.updateMeter pre.length f = .ok { h with meters := pre ++ [mm'] } := by
  simp [Host.updateMeter, hm, hf]

theorem decodeValues_written (s : DecodeState) (mid : MeterId) (pre : List Meter)
    {m mm : Meter} {sz n i : Nat} {rest : List UInt8} (hs : sizeofType m.type = some sz) (hmid : mid &&& MMASK_TYPE = m.type)
    (hlt : m.count < SZ_EMPTY_VAL) (hm : s.host.meters = pre ++ [mm]) (hf : m.FilledTo sz i mm)
    (hn : i + n = elemCount m.count)
    (hv : ∀ pos, i ≤ pos → pos < elemCount m.count → ∃ v, ReadsBack m pos v)
    (hu : s.io.unread = (List.range' i n).flatMap (valueBytes m) ++ rest) :
    ∃ s' mm', decodeValues mid (some pre.length) n i s = .ok (true, s') ∧
      s'.host = { s.host with meters := pre ++ [mm'] } ∧
      m.FilledTo sz (elemCount m.count) mm' ∧ s'.io.unread = rest := by
  induction n generalizing i s mm with
  | zero =>
    obtain rfl : i = elemCount m.count := by omega
    refine ⟨s, mm, rfl, ?_, hf, by simpa using hu⟩
    rw [← hm]
  | succ n ih =>
    obtain ⟨v, hv₀⟩ := hv i le_rfl (by omega)
    obtain ⟨w, hw, hread⟩ := hv₀
    have hbytes : valueBytes m i = w.written := by rw [valueBytes, hw]
    rw [List.range'_succ, List.flatMap_cons, List.append_assoc, hbytes] at hu
    obtain ⟨hval, hrest⟩ := hread s.io _ s.strbuf hu
    obtain ⟨mm₁, hset, hf₁⟩ := hf.set hlt (by omega) ⟨w, hw, hread⟩ s.host.lastmodified
    obtain ⟨s', mm', hdec, hhost, hf', hu'⟩ := ih (i := i + 1) { s with
      io := (readValue m.type s.strbuf s.io).2.2
      host := { s.host with meters := pre ++ [mm₁] }
      strbuf := (readValue m.type s.strbuf s.io).2.1 } rfl hf₁ (by omega)
      (fun pos h₁ h₂ => hv pos (by omega) h₂) hrest
    refine ⟨s', mm', ?_, hhost, hf', hu'⟩
    rw [← hval] at hset
    have hupd : (s.host.updateMeter pre.length fun mm => meterSet m.type sz s.host.lastmodified
        mm i (readValue m.type s.strbuf s.io).1) = .ok { s.host with meters := pre ++ [mm₁] } :=
      updateMeter_last hm hset
    simp only [decodeValues, decodeValue_eq (hmid.symm ▸ hs), hmid, Host.updateTarget, hupd,
      Outcome.ok_bind]
    exact hdec

theorem hostFindPrefix_some {h : Host} {pfx : MeterId} {prev : Option Nat} {i : Nat}
    (hi : hostFindPrefix h pfx prev = some i) :
    ∃ m, h.meters[i]? = some m ∧ m.id &&& id2mask pfx = pfx &&& MMASK_NAME ∧
      idisprefix pfx m.id ( id2mask pfx) = true := by
  obtain ⟨j, hj, rfl⟩ := Option.map_eq_some_iff.mp hi
  obtain ⟨hlt, hp, -⟩ := List.findIdx?_eq_some_iff_getElem.mp hj
  simp only [Bool.and_eq_true, beq_iff_eq, List.getElem_drop] at hp
  rw [List.length_drop] at hlt
  refine ⟨h.meters[prev.getD 0 + 1 + j], ?_, hp⟩
  rw [Nat.add_comm j, List.getElem?_eq_getElem]

theorem displaceLoop_none {pfx : MeterId} {h : Host} (hn : hostFindMeterName h pfx = none)
    (n : Nat) (strbuf : List UInt8) : displaceLoop pfx n h strbuf = (h, strbuf) := by
  cases n with
  | zero => rfl
  | succ n => simp only [displaceLoop, hn]

/-- No name followed by blanks, or by none, and a slash begins the other name. -/
def Meter.Apart (m m' : Meter) : Prop :=
  ∀ k, ¬ idName m.id ++ List.replicate k 32 ++ [47] <+: idName m'.id

theorem decodeDisplace_apart {s : DecodeState} {mid : MeterId} {m : Meter}
    (hmid : mid &&& MMASK_NAME = m.name) (h : ∀ m' ∈ s.host.meters, m'.Apart m) :
    ∃ lastpfx, decodeDisplace s mid = { s with lastpfx := lastpfx } := by
  unfold decodeDisplace
  simp only
  split
  · rename_i hp
    have hn : hostFindMeterName s.host ( idgetprefix mid) = none := by
      rw [hostFindMeterName_none]
      intro m' hm' hname
      obtain ⟨left, n, hleft, hslash⟩ := idgetprefix_chars hp.1
      rw [← idChars_of_name_eq hname] at hleft
      rw [idChars_of_name_eq (j := m.id) hmid] at hslash
      obtain ⟨k, hk⟩ := idName_isPrefix hleft hslash
      exact h m' hm' k hk
    exact ⟨_, by rw [displaceLoop_none hn]⟩
  · exact ⟨s.lastpfx, rfl⟩

theorem hostFindPrefix_apart {h : Host} {mid : MeterId} {m : Meter}
    (hmid : mid &&& MMASK_NAME = m.name) (ha : ∀ m' ∈ h.meters, m.Apart m') :
    hostFindPrefix h mid none = none := by
  cases hp : hostFindPrefix h mid none with
  | none => rfl
  | some i =>
    obtain ⟨m', hm', hmask, hprefix⟩ := hostFindPrefix_some hp
    obtain ⟨left, n, hleft, hslash⟩ := idisprefix_chars hmask hprefix
    rw [idChars_of_name_eq (j := m.id) hmid] at hleft
    obtain ⟨k, hk⟩ := idName_isPrefix hleft hslash
    exact absurd hk (ha m' (List.mem_of_getElem? hm') k)

theorem decodeSetup_written {m : Meter} {sz : Nat} (hs : sizeofType m.type = some sz)
    (hc : m.count ≤ SZ_EMPTY_ARRAY) (now : Nat) :
    ∃ mm, decodeSetup now m.word m.count (meterAlloc m.id) = .ok mm ∧
      (m.count < SZ_EMPTY_VAL → m.FilledTo sz 0 mm) ∧
      (SZ_EMPTY_VAL ≤ m.count → m.RoundTrips mm) := by
  have hretype : m.id &&& (MMASK_NAME ||| MMASK_COUNT) ||| m.word &&& MMASK_TYPE = m.id :=
    word_retyped hc
  by_cases hlt : m.count < SZ_EMPTY_VAL
  · refine ⟨_, by rw [decodeSetup, meterSetcount_array hlt (by exact hs)]; rfl, ?_, ?_⟩
    · intro _
      exact ⟨hretype, rfl, _, rfl, List.length_replicate,
        fun pos h => absurd h (Nat.not_lt_zero _)⟩
    · intro h
      exact absurd hlt (Nat.not_lt.mpr h)
  · have hge : SZ_EMPTY_VAL ≤ m.count := by omega
    refine ⟨_, by rw [decodeSetup, meterSetcount_empty hge hc]; rfl, ?_, ?_⟩
    · intro h
      exact absurd h hlt
    · intro _
      exact ⟨hretype, rfl, fun _ => rfl, fun h => absurd h hlt⟩

/-- A record written for a meter, decoded into a host that has no meter of that name and
none that is its parent or child, adds the meter to the host. -/
theorem decodeRecord_written {s : DecodeState} {m : Meter} {sz : Nat} {rest : List UInt8}
    (hs : sizeofType m.type = some sz) (hid : m.id &&& MMASK_COUNT = 0)
    (hc : m.count ≤ SZ_EMPTY_ARRAY) (hq : s.host.mcount ≤ default_host_max_meters)
    (hm : s.host.meters = [] → s.host.mcount = 0) (hnew : ∀ m' ∈ s.host.meters, m'.name ≠ m.name)
    (hparent : ∀ m' ∈ s.host.meters, m'.Apart m) (hchild : ∀ m' ∈ s.host.meters, m.Apart m')
    (hv : m.count < SZ_EMPTY_VAL → ∀ pos < elemCount m.count, ∃ v, ReadsBack m pos v)
    (hu : s.io.unread = valuesBytes m ++ rest) :
    ∃ s' mm, decodeRecord s m.word = .ok (true, s') ∧
      s'.host = { s.host with
        meters := s.host.meters ++ [mm], mcount := s.host.mcount + 1 } ∧
      m.RoundTrips mm ∧ s'.io.unread = rest := by
  have hname : m.word &&& MMASK_NAME = m.name := word_name hc
  have hcount : (m.word &&& MMASK_COUNT).toNat = m.count := word_count hid hc
  have hnone : hostFindMeterName s.host m.word = none := by
    rw [hostFindMeterName_none, hname]
    exact hnew
  have hrec : decodeRecord s m.word = decodeMeter s m.word := by
    unfold decodeRecord
    split
    · simp [decodeEmptyArray, hostFindPrefix_apart hname hchild, hnone]
    · rfl
  obtain ⟨lastpfx, hdis⟩ := decodeDisplace_apart hname hparent
  have hmcount : (if s.host.meters = [] then 1 else s.host.mcount + 1) = s.host.mcount + 1 := by
    split
    · rw [hm ‹_›]; rfl
    · rfl
  have hreq : m.word &&& (MMASK_TYPE ||| MMASK_NAME) = m.id := word_requested hid hc
  have htarget : decodeTarget s.host m.word =
      ({ s.host with
          meters := s.host.meters ++ [meterAlloc m.id], mcount := s.host.mcount + 1 },
        some s.host.meters.length) := by
    simp only [decodeTarget, hnone, if_pos hq, hostGetMeter_new hnone, hmcount, hreq]
  -- what the record does to the new meter, once it is set up as `mm`
  have hdec : ∀ mm, decodeSetup s.host.lastmodified m.word m.count (meterAlloc m.id) = .ok mm →
      decodeRecord s m.word =
        let s₁ : DecodeState := { s with
          host := { s.host with
            meters := s.host.meters ++ [mm], mcount := s.host.mcount + 1 }
          lastpfx := lastpfx }
        if SZ_EMPTY_VAL ≤ elemCount m.count then .ok (true, s₁)
        else decodeValues m.word (some s.host.meters.length) (elemCount m.count) 0 s₁ := by
    intro mm hsetup
    have hupd := updateMeter_last (h := { s.host with
      meters := s.host.meters ++ [meterAlloc m.id], mcount := s.host.mcount + 1 }) rfl hsetup
    rw [hrec]
    simp only [decodeMeter, hdis, hcount, htarget, Host.updateTarget, hupd, Outcome.ok_bind,
      Outcome.pure_ok]
  obtain ⟨mm, hsetup, hfilled, hempty⟩ := decodeSetup_written hs hc s.host.lastmodified
  rw [hdec mm hsetup]
  by_cases hlt : m.count < SZ_EMPTY_VAL
  · have helem := (elemCount_lt m.count).mpr hlt
    rw [valuesBytes, if_pos helem] at hu
    simp only [if_neg (Nat.not_le.mpr helem)]
    obtain ⟨s', mm', hvals, hhost, ⟨hid', hcount', slots, hd, hlen, hslots⟩, hu'⟩ :=
      decodeValues_written { s with
        host := { s.host with meters := s.host.meters ++ [mm], mcount := s.host.mcount + 1 }
        lastpfx := lastpfx } m.word s.host.meters hs (word_type hc) hlt rfl (hfilled hlt) (Nat.zero_add _)
        (fun pos _ hpos => hv hlt pos hpos) hu
    refine ⟨s', mm', hvals, hhost, ⟨hid', hcount', fun h => absurd hlt (by omega), ?_⟩, hu'⟩
    exact fun _ => ⟨_, hd, hlen, hslots⟩
  · have helem : ¬ elemCount m.count < SZ_EMPTY_VAL := by rw [elemCount_lt]; exact hlt
    rw [valuesBytes, if_neg helem] at hu
    simp only [if_pos (Nat.not_lt.mp helem)]
    exact ⟨_, _, rfl, rfl, hempty (Nat.not_lt.mp hlt), hu⟩

end Decoding

/-- The hosts whose meters come through the codec. -/
structure Host.Encodable (h : Host) : Prop where
  length_le : h.meters.length ≤ 256
  made : ∀ m ∈ h.meters, ∃ label type, label ≠ [] ∧
    (type = MTYPE_INT ∨ type = MTYPE_FRAC ∨ type = MTYPE_STR) ∧ m.id = makeid label type
  count_le : ∀ m ∈ h.meters, m.count ≤ SZ_EMPTY_ARRAY
  word_ne : ∀ m ∈ h.meters, m.word ≠ 0
  distinct : h.meters.Pairwise fun m m' => idName m.id ≠ idName m'.id
  apart : ∀ m ∈ h.meters, ∀ m' ∈ h.meters, idName m.id ≠ idName m'.id → m.Apart m'
  values : ∀ m ∈ h.meters, m.count < SZ_EMPTY_VAL →
    ∀ pos < elemCount m.count, ∃ v, ReadsBack m pos v

theorem Host.Encodable.type {h : Host} (hh : h.Encodable) {m : Meter} (hm : m ∈ h.meters) :
    (∃ sz, sizeofType m.type = some sz) ∧ m.id &&& MMASK_COUNT = 0 := by
  obtain ⟨label, type, -, htype, hid⟩ := hh.made m hm
  rw [Meter.type, hid]
  obtain rfl | rfl | rfl := htype
  · exact ⟨⟨8, by rw [makeid_type label (by decide)]; rfl⟩, makeid_count label (by decide)⟩
  · exact ⟨⟨8, by rw [makeid_type label (by decide)]; rfl⟩, makeid_count label (by decide)⟩
  · exact ⟨⟨128, by rw [makeid_type label (by decide)]; rfl⟩, makeid_count label (by decide)⟩

/-- What ends the meters: the zero word of the next record, or the end of the bytes. -/
def EndsMeters (tail : List UInt8) : Prop :=
  ∀ io : Ioport, io.unread = tail → (ioportReadU64 io).1 = 0

theorem endsMeters_nil : EndsMeters [] := by
  intro io hu
  simp only [ioportReadU64, ioportRead, hu]
  cases io.file <;> rfl

theorem endsMeters_zero (rest : List UInt8) : EndsMeters (be64 0 ++ rest) := by
  intro io hu
  rw [ioportReadU64_be64 hu]

/-- The cursor invariant: the meters before the cursor are in the host, the bytes of the
others are to be read. -/
theorem decodeLoop_written {h : Host} (hh : h.Encodable) (done ms pre : List Meter)
    (hsplit : h.meters = done ++ ms) (hpre : List.Forall₂ Meter.RoundTrips done pre) {n : Nat}
    (hn : ms.length < n) {s : DecodeState} (hs : s.host.meters = pre)
    (hmcount : s.host.mcount = pre.length) {tail : List UInt8} (htail : EndsMeters tail)
    (hu : s.io.unread = ms.flatMap meterBytes ++ tail) :
    ∃ s', decodeLoop n s = .ok (true, s') ∧
      List.Forall₂ Meter.RoundTrips h.meters s'.host.meters := by
  induction ms generalizing done pre n s with
  | nil =>
    obtain ⟨n, rfl⟩ : ∃ k, n = k + 1 := ⟨n - 1, by omega⟩
    have hzero : (ioportReadU64 s.io).1 = 0 := htail s.io (by simpa using hu)
    refine ⟨{ s with io := (ioportReadU64 s.io).2 }, ?_, ?_⟩
    · simp only [decodeLoop, if_pos hzero]
      rfl
    · rw [hsplit, List.append_nil, hs]
      exact hpre
  | cons m ms ih =>
    obtain ⟨n, rfl⟩ : ∃ k, n = k + 1 := ⟨n - 1, by omega⟩
    have hmem : m ∈ h.meters := by simp [hsplit]
    obtain ⟨⟨sz, hsz⟩, hid⟩ := hh.type hmem
    -- the meters in the host are earlier ones, so they differ in name and are apart
    have hearlier : ∀ m' ∈ s.host.meters, m'.name ≠ m.name ∧ m'.Apart m ∧ m.Apart m' := by
      intro m' hm'
      rw [hs] at hm'
      obtain ⟨m₀, hm₀, hround⟩ : ∃ m₀ ∈ done, m₀.RoundTrips m' := by
        obtain ⟨i, hi, rfl⟩ := List.getElem_of_mem hm'
        obtain ⟨hlen, hget⟩ := List.forall₂_iff_get.mp hpre
        exact ⟨done.get ⟨i, by omega⟩, List.get_mem _ _, hget i (by omega) hi⟩
      have hmem₀ : m₀ ∈ h.meters := by simp [hsplit, hm₀]
      have hne : idName m₀.id ≠ idName m.id := by
        have hpair := hh.distinct
        rw [hsplit, List.pairwise_append] at hpair
        exact hpair.2.2 m₀ hm₀ m List.mem_cons_self
      unfold Meter.Apart Meter.name
      rw [hround.id]
      refine ⟨fun hname => hne ?_, hh.apart m₀ hmem₀ m hmem hne, hh.apart m hmem m₀ hmem₀ hne.symm⟩
      rw [idName, idName, idChars_of_name_eq hname]
    have hlen : done.length + (ms.length + 1) ≤ 256 := by
      have := hh.length_le
      rw [hsplit] at this
      simpa using this
    have hdone := hpre.length_eq
    rw [List.flatMap_cons, meterBytes, List.append_assoc, List.append_assoc] at hu
    obtain ⟨s', mm, hrec, hhost, hround, hu'⟩ := decodeRecord_written (s := { s with
        io := { s.io with
          unread := valuesBytes m ++ (ms.flatMap meterBytes ++ tail)
          bitpos := 0
          bitbuffer := 0 } })
      hsz hid (hh.count_le m hmem) (by simp only [hmcount, default_host_max_meters]; omega)
      (fun h0 => by simp only at h0; rw [hmcount, ← hs, h0]; rfl)
      (fun m' hm' => (hearlier m' hm').1) (fun m' hm' => (hearlier m' hm').2.1)
      (fun m' hm' => (hearlier m' hm').2.2) (hh.values m hmem) rfl
    obtain ⟨s'', hloop, hall⟩ := ih (done ++ [m]) (pre ++ [mm]) (n := n) (s := s')
      (by rw [hsplit]; simp) (List.rel_append hpre (.cons hround .nil)) (by simpa using hn)
      (by rw [hhost]; simp [hs]) (by rw [hhost]; simp [hmcount]) hu'
    refine ⟨s'', ?_, hall⟩
    simp only [decodeLoop, ioportReadU64_be64 hu, if_neg (hh.word_ne m hmem), hrec,
      Outcome.ok_bind, if_true, hloop]

theorem length_meterBytes (m : Meter) : 8 ≤ (meterBytes m).length := by
  simp [meterBytes, be64]

/-- The bytes of an encodable host, and what ends them, are decoded into a fresh host. -/
theorem decodeHost_written {h : Host} (hh : h.Encodable) (uuid : Uuid) (now : Nat)
    (strbuf : List UInt8) {tail : List UInt8} (htail : EndsMeters tail) (io : Ioport)
    (hu : io.unread = h.meters.flatMap meterBytes ++ tail) :
    ∃ s, pktcodecDecodeHost io { hostAlloc uuid with lastmodified := now } strbuf = .ok (true, s) ∧
      List.Forall₂ Meter.RoundTrips h.meters s.host.meters := by
  have hfuel : ∀ ms : List Meter, ms.length < (ms.flatMap meterBytes ++ tail).length + 1 := by
    intro ms
    induction ms with
    | nil => simp
    | cons m ms ih =>
      have := length_meterBytes m
      simp only [List.flatMap_cons, List.length_append, List.length_cons] at ih ⊢
      omega
  have hn : h.meters.length < io.unread.length + 1 := hu ▸ hfuel h.meters
  exact decodeLoop_written hh [] h.meters [] rfl .nil hn
    (s := ⟨io, { hostAlloc uuid with lastmodified := now }, 0, strbuf⟩) rfl rfl htail hu

/-- Every encodable host comes back from its bytes, in a fresh host. -/
theorem decode_encode {h : Host} (hh : h.Encodable) (uuid : Uuid) (now : Nat)
    (strbuf : List UInt8) :
    ∃ io s, pktcodecEncodeHost .writer h = .ok (true, io) ∧
      pktcodecDecodeHost (.reader io.written) { hostAlloc uuid with lastmodified := now } strbuf =
        .ok (true, s) ∧
      List.Forall₂ Meter.RoundTrips h.meters s.host.meters := by
  have henc := encodeMeters_port hh.values []
  obtain ⟨s, hdec, hall⟩ := decodeHost_written hh uuid now strbuf endsMeters_nil
    (.reader (h.meters.flatMap meterBytes)) (by simp [Ioport.reader])
  exact ⟨_, s, henc, hdec, hall⟩

theorem Meter.apart_of_length {m m' : Meter} (h : (idName m'.id).length ≤ (idName m.id).length) :
    m.Apart m' := by
  intro k hk
  have hle := hk.length_le
  simp only [List.length_append, List.length_replicate, List.length_singleton] at hle
  omega

def intMeter (label : List UInt8) (v : BitVec 64) : Meter where
  id := makeid label MTYPE_INT
  lastmodified := 1
  count := 0
  d := some ⟨8, [.int v]⟩
  badness := 0

def strMeter (label : List UInt8) (v : FString) : Meter where
  id := makeid label MTYPE_STR
  lastmodified := 1
  count := 0
  d := some ⟨128, [.str v]⟩
  badness := 0

theorem readsBack_seven (label : List UInt8) : ReadsBack (intMeter label 7) 0 (.int 7) := by
  have ht : (intMeter label 7).type = MTYPE_INT := makeid_type label (by decide)
  have hw : ioportWriteEncint .writer 7 = .port [7] := by decide
  have hin : (intMeter label 7).inBounds 8 0 = .ok () := rfl
  have hv : (intMeter label 7).uint 0 = 7 := rfl
  refine ⟨.port [7], ?_, fun io rest strbuf hu => ?_⟩
  · simp only [pktcodecWriteValue, ht, if_true, hin, hv, hw, Outcome.ok_bind, Outcome.pure_ok]
  · have hu : io.unread = 7 :: rest := hu
    simp only [readValue, ht, if_true, ioportReadEncint, hu]
    exact ⟨rfl, rfl⟩

def hostWith (meters : List Meter) : Host :=
  { hostAlloc ⟨0, 0⟩ with meters := meters, mcount := meters.length }

/-- A host with an integer, a string and an empty array. -/
theorem decode_encode_three :
    let h := hostWith [intMeter (asc "a") 7, strMeter (asc "b") (FString.strncpy (asc "ok")),
      { intMeter (asc "c") 7 with count := SZ_EMPTY_ARRAY, d := none }]
    ∃ io s, pktcodecEncodeHost .writer h = .ok (true, io) ∧
      pktcodecDecodeHost (.reader io.written) { hostAlloc ⟨0, 0⟩ with lastmodified := 1 } [] =
        .ok (true, s) ∧
      List.Forall₂ Meter.RoundTrips h.meters s.host.meters := by
  intro h
  have hmeters : h.meters = [_, _, _] := rfl
  refine decode_encode (h := h) ⟨?_, ?_, ?_, ?_, ?_, ?_, ?_⟩ ⟨0, 0⟩ 1 []
  · decide
  · simp only [hmeters, List.forall_mem_cons, List.not_mem_nil, false_implies, implies_true,
      and_true]
    exact ⟨⟨asc "a", _, by decide, .inl rfl, rfl⟩,
      ⟨asc "b", _, by decide, .inr (.inr rfl), rfl⟩, asc "c", _, by decide, .inl rfl, rfl⟩
  · decide
  · decide
  · decide
  · intro m hm m' hm' _
    apply Meter.apart_of_length
    revert m m'
    decide
  · simp only [hmeters, List.forall_mem_cons, List.not_mem_nil, false_implies, implies_true,
      and_true]
    refine ⟨fun _ pos hpos => ?_, fun _ pos hpos => ?_, fun hc => absurd hc (by decide)⟩
    · obtain rfl : pos = 0 := Nat.lt_one_iff.mp hpos
      exact ⟨_, readsBack_seven _⟩
    · obtain rfl : pos = 0 := Nat.lt_one_iff.mp hpos
      exact ⟨_, readsBack_str (by decide) rfl⟩

def decodedCount (bytes : List UInt8) : Except Fault Nat :=
  (pktcodecDecodeHost (.reader bytes) (hostAlloc ⟨0, 0⟩) []).map fun r => r.2.host.meters.length

/-- A label without a character of the id alphabet makes the id word that ends a packet; and
a blank in front of a slash belongs to the label but not to the prefix that is displaced. -/
theorem decode_encode_lost :
    (∃ bytes, pktcodecEncodeHost .writer (hostWith [intMeter (asc "5") 7]) =
        .ok (true, .port bytes) ∧ decodedCount bytes = .ok 0) ∧
    ∃ bytes, pktcodecEncodeHost .writer
        (hostWith [intMeter (asc "a") 7, intMeter (asc "a /x") 7]) =
        .ok (true, .port bytes) ∧ decodedCount bytes = .ok 1 := by
  refine ⟨⟨be64 0 ++ [7], ?_, ?_⟩,
    be64 (makeid (asc "a") MTYPE_INT) ++ [7] ++ be64 (makeid (asc "a /x") MTYPE_INT) ++ [7], ?_, ?_⟩
  all_goals decide

end Opticon
