import Opticon.Wire.JsonCodec

/-! Sequences of packets decoded into a host that starts empty. -/

namespace Opticon

section Reads

theorem ioportRead_unread (io : Ioport) (sz : Nat) :
    (ioportRead io sz).2.2.unread.length ≤ io.unread.length := by
  simp only [ioportRead]
  split_ifs <;> simp

theorem ioportReadByte_unread (io : Ioport) :
    (ioportReadByte io).2.unread.length ≤ io.unread.length :=
  ioportRead_unread io 1

theorem ioportReadU64_unread {io : Ioport} (h : (ioportReadU64 io).1 ≠ 0) :
    (ioportReadU64 io).2.unread.length < io.unread.length := by
  simp only [ioportReadU64, ioportRead] at h ⊢
  by_cases h₁ : 8 ≤ io.unread.length
  · simp only [if_pos h₁, List.length_drop]
    omega
  · cases hf : io.file <;> simp [h₁, hf] at h

theorem readEncintLoop_unread (bytes : List UInt8) (res : BitVec 64) :
    (readEncintLoop bytes res).2.length ≤ bytes.length := by
  induction bytes generalizing res with
  | nil => simp [readEncintLoop]
  | cons d rest ih =>
    simp only [readEncintLoop, List.length_cons]
    split_ifs
    all_goals first | exact (ih _).trans (Nat.le_succ _) | exact Nat.le_succ _

theorem ioportReadEncint_unread (io : Ioport) :
    (ioportReadEncint io).2.unread.length ≤ io.unread.length :=
  readEncintLoop_unread _ _

theorem ioportReadEncfrac_unread (io : Ioport) :
    (ioportReadEncfrac io).2.unread.length ≤ io.unread.length := by
  have h := (ioportReadByte_unread (ioportReadByte io).2).trans (ioportReadByte_unread io)
  unfold ioportReadEncfrac
  simp only
  split_ifs <;> exact h

theorem ioportReadBits_unread (io : Ioport) (numbits : Nat) :
    (ioportReadBits io numbits).2.unread.length ≤ io.unread.length := by
  unfold ioportReadBits
  simp only
  split_ifs
  · rfl
  · rfl
  all_goals
    first
    | rfl
    | exact ioportReadByte_unread io
    | exact (ioportReadByte_unread _).trans (ioportReadByte_unread io)

theorem readCodes_unread (n : Nat) (io : Ioport) :
    (readCodes n io).2.unread.length ≤ io.unread.length := by
  induction n generalizing io with
  | zero => rfl
  | succ n ih => exact (ih _).trans (ioportReadBits_unread io 6)

theorem ioportReadEncstring_unread (io : Ioport) (into : List UInt8) :
    (ioportReadEncstring io into).2.2.unread.length ≤ io.unread.length := by
  have h := ioportReadByte_unread io
  unfold ioportReadEncstring
  simp only
  split_ifs
  · exact h
  · exact (ioportRead_unread _ _).trans h
  · exact (ioportRead_unread _ _).trans h
  · exact (readCodes_unread _ _).trans h

end Reads

theorem decodeValue_unread {s s' : DecodeState} {mid : MeterId} {M : Option Nat} {i : Nat}
    (h : decodeValue s mid M i = .ok (some s')) :
    s'.io.unread.length ≤ s.io.unread.length := by
  unfold decodeValue at h
  split_ifs at h
  all_goals
    simp only [Outcome.bind_ok_iff, Outcome.pure_ok, Except.ok.injEq, Option.some.injEq,
      reduceCtorEq] at h
  · obtain ⟨h', -, rfl⟩ := h
    exact ioportReadEncint_unread _
  · obtain ⟨h', -, rfl⟩ := h
    exact ioportReadEncfrac_unread _
  · obtain ⟨h', -, rfl⟩ := h
    exact ioportReadEncstring_unread _ _

theorem decodeValues_unread {mid : MeterId} {M : Option Nat} {n i : Nat} {s s' : DecodeState}
    {ok : Bool} (h : decodeValues mid M n i s = .ok (ok, s')) :
    s'.io.unread.length ≤ s.io.unread.length := by
  induction n generalizing i s with
  | zero => cases h; rfl
  | succ n ih =>
    simp only [decodeValues, Outcome.bind_ok_iff] at h
    obtain ⟨r, hr, h⟩ := h
    cases r with
    | none => cases h; rfl
    | some s₁ => exact (ih h).trans (decodeValue_unread hr)

theorem decodeDisplace_io (s : DecodeState) (mid : MeterId) :
    (decodeDisplace s mid).io = s.io := by
  unfold decodeDisplace
  simp only
  split <;> rfl

theorem decodeMeter_unread {s s' : DecodeState} {mid : MeterId} {ok : Bool}
    (h : decodeMeter s mid = .ok (ok, s')) : s'.io.unread.length ≤ s.io.unread.length := by
  simp only [decodeMeter, Outcome.bind_ok_iff] at h
  obtain ⟨host, -, h⟩ := h
  have hio := decodeDisplace_io s mid
  split at h
  · cases h
    exact (congrArg (·.unread.length) hio).le
  · exact (decodeValues_unread h).trans (congrArg (·.unread.length) hio).le

theorem decodeRecord_unread {s s' : DecodeState} {mid : MeterId} {ok : Bool}
    (h : decodeRecord s mid = .ok (ok, s')) : s'.io.unread.length ≤ s.io.unread.length := by
  unfold decodeRecord at h
  split at h
  · simp only [Outcome.bind_ok_iff] at h
    obtain ⟨⟨finished, host⟩, -, h⟩ := h
    cases finished with
    | true => cases h; rfl
    | false => exact decodeMeter_unread (s := { s with host := host }) h
  · exact decodeMeter_unread h

/-- The rounds `pktcodecDecodeHost` allows are enough: more of them change nothing. -/
theorem decodeLoop_fuel {n n' : Nat} {s : DecodeState} (hn : s.io.unread.length < n)
    (hn' : s.io.unread.length < n') : decodeLoop n s = decodeLoop n' s := by
  induction n generalizing n' s with
  | zero => omega
  | succ n ih =>
    obtain ⟨n', rfl⟩ : ∃ k, n' = k + 1 := ⟨n' - 1, by omega⟩
    simp only [decodeLoop]
    by_cases hmid : (ioportReadU64 s.io).1 = 0
    · simp only [if_pos hmid]
    · simp only [if_neg hmid]
      cases hr : decodeRecord { s with io := (ioportReadU64 s.io).2 } (ioportReadU64 s.io).1 with
      | error e => rfl
      | ok r =>
        obtain ⟨ok, s'⟩ := r
        cases ok with
        | false => rfl
        | true =>
          have hlt := ioportReadU64_unread hmid
          have hle := decodeRecord_unread hr
          have hlt' : s'.io.unread.length < s.io.unread.length := lt_of_le_of_lt hle hlt
          exact ih (s := s') (by omega) (by omega)

/-- What a packet brings along: the time it is handled at, its bytes, and what the string
buffer of the decoder holds. -/
structure Packet where
  now : Nat
  bytes : List UInt8
  strbuf : List UInt8

def Packet.start (p : Packet) (h : Host) : DecodeState :=
  ⟨.reader p.bytes, { h with lastmodified := p.now }, 0, p.strbuf⟩

def decodePacket (h : Host) (p : Packet) : Except Fault (Bool × DecodeState) :=
  pktcodecDecodeHost (p.start h).io (p.start h).host p.strbuf

/-- Every record the loop comes to fits. -/
def RecordsFit : Nat → DecodeState → Prop
  | 0, _ => True
  | n + 1, s =>
    let (mid, io) := ioportReadU64 s.io
    mid ≠ 0 → RecordFits s.host mid ∧
      ∀ s', decodeRecord { s with io := io } mid = .ok (true, s') → RecordsFit n s'

/-- No record faults, and all meters are represented behind every one of them. -/
def RecordsRepresented : Nat → DecodeState → Prop
  | 0, _ => True
  | n + 1, s =>
    let (mid, io) := ioportReadU64 s.io
    mid ≠ 0 → ∃ ok s', decodeRecord { s with io := io } mid = .ok (ok, s') ∧
      s'.host.Represented ∧ (ok = true → RecordsRepresented n s')

def PacketFits (h : Host) (p : Packet) : Prop :=
  RecordsFit (p.bytes.length + 1) (p.start h)

def PacketRepresented (h : Host) (p : Packet) : Prop :=
  RecordsRepresented (p.bytes.length + 1) (p.start h)

theorem recordsRepresented_iff (n : Nat) {s : DecodeState} (hs : s.host.Represented) :
    RecordsRepresented n s ↔ RecordsFit n s := by
  induction n generalizing s with
  | zero => rfl
  | succ n ih =>
    unfold RecordsRepresented RecordsFit
    refine forall_congr' fun hmid => ?_
    have hrec := decodeRecord_represented (s := { s with io := (ioportReadU64 s.io).2 })
      (ioportReadU64 s.io).1 hs
    constructor
    · rintro ⟨ok, s', hr, hrep, hrest⟩
      refine ⟨hrec.mp ⟨ok, s', hr, hrep⟩, fun s'' hr' => ?_⟩
      rw [hr, Except.ok.injEq, Prod.mk.injEq] at hr'
      obtain ⟨rfl, rfl⟩ := hr'
      exact (ih hrep).mp (hrest rfl)
    · rintro ⟨hfit, hrest⟩
      obtain ⟨ok, s', hr, hrep⟩ := hrec.mpr hfit
      refine ⟨ok, s', hr, hrep, fun hok => ?_⟩
      subst hok
      exact (ih hrep).mpr (hrest s' hr)

theorem decodeLoop_represented (n : Nat) {s : DecodeState} (hs : s.host.Represented)
    (h : RecordsRepresented n s) :
    ∃ ok s', decodeLoop n s = .ok (ok, s') ∧ s'.host.Represented := by
  induction n generalizing s with
  | zero => exact ⟨true, s, rfl, hs⟩
  | succ n ih =>
    simp only [RecordsRepresented] at h
    simp only [decodeLoop]
    by_cases hmid : (ioportReadU64 s.io).1 = 0
    · rw [if_pos hmid]
      exact ⟨true, _, rfl, hs⟩
    · obtain ⟨ok, s', hr, hrep, hrest⟩ := h hmid
      simp only [if_neg hmid, hr, Outcome.ok_bind]
      cases ok with
      | false => exact ⟨false, s', rfl, hrep⟩
      | true => exact ih hrep (hrest rfl)

theorem decodePacket_represented {h : Host} {p : Packet} (hh : h.Represented)
    (hp : PacketFits h p) : ∃ ok s, decodePacket h p = .ok (ok, s) ∧ s.host.Represented :=
  decodeLoop_represented _ hh ((recordsRepresented_iff _ (s := p.start h) hh).mpr hp)

/-- Packets decoded one after the other, from an empty host on. -/
def packets (uuid : Uuid) : Transition Host Packet where
  init h := h = hostAlloc uuid
  step h p h' := ∃ ok s, decodePacket h p = .ok (ok, s) ∧ s.host = h'

theorem hostAlloc_represented (uuid : Uuid) : (hostAlloc uuid).Represented := by
  intro m hm
  cases hm

theorem packets_represented {uuid : Uuid} {ps : List Packet} {h : Host}
    (hist : ((packets uuid).guard PacketFits).History ps h) : h.Represented := by
  apply hist.reachable.induction
  · rintro h rfl
    exact hostAlloc_represented uuid
  · rintro h p h' hh ⟨hfit, ok, s, hdec, rfl⟩
    obtain ⟨ok', s', hdec', hrep⟩ := decodePacket_represented hh hfit
    rw [hdec, Except.ok.injEq, Prod.mk.injEq] at hdec'
    rw [hdec'.2]
    exact hrep

/-- The setters stay inside of the array, whatever meter and position they are called for. -/
def SettersSafe (h : Host) : Prop :=
  ∀ m ∈ h.meters, ∀ now pos,
    (∀ val, ∃ m', meterSetUint now m pos val = .ok m') ∧
    (∀ val, ∃ m', meterSetFrac now m pos val = .ok m') ∧
    ∀ val, ∃ m', meterSetStr now m pos val = .ok m'

/-- The packet encoder stays inside of the arrays. What can go wrong is the table of the
six bit codes, which has no entry for a byte that is not ASCII. -/
def PktEncoderSafe (h : Host) : Prop :=
  ∀ io e, pktcodecEncodeHost io h = .error e → e = .tableIndex

theorem settersSafe {h : Host} (hh : h.Represented) : SettersSafe h := by
  intro m hm now pos
  refine ⟨fun val => ?_, fun val => ?_, fun val => ?_⟩
  · obtain ⟨m', h', -⟩ := meterSet_represented now pos (.int val) (hh m hm) rfl rfl
    exact ⟨m', h'⟩
  · obtain ⟨m', h', -⟩ := meterSet_represented now pos (.frac val) (hh m hm) rfl rfl
    exact ⟨m', h'⟩
  · obtain ⟨m', h', -⟩ := meterSet_represented now pos (.str (FString.strncpy val))
      (hh m hm) rfl rfl
    exact ⟨m', h'⟩

theorem encodable_error {cs : List UInt8} {e : Fault} (h : encodable cs = .error e) :
    e = .tableIndex := by
  induction cs with
  | nil => cases h
  | cons c cs ih =>
    unfold encodable at h
    split_ifs at h
    · cases h; rfl
    · exact ih h

theorem ioportWriteEncstring_error {io : Ioport} {str : List UInt8} {e : Fault}
    (h : ioportWriteEncstring io str = .error e) : e = .tableIndex := by
  simp only [ioportWriteEncstring] at h
  split at h
  · cases h
  · cases he : encodable str with
    | error e' =>
      rw [he] at h
      cases h
      exact encodable_error he
    | ok b =>
      rw [he] at h
      cases b <;> cases h

theorem pktcodecWriteValue_error {m : Meter} (hm : m.Represented) {pos : Nat}
    (hc : m.count < SZ_EMPTY_VAL) (hpos : pos < elemCount m.count) {io : Ioport} {e : Fault}
    (h : pktcodecWriteValue io m pos = .error e) : e = .tableIndex := by
  have hin {sz : Nat} (hs : sizeofType m.type = some sz) : m.inBounds sz pos = .ok () :=
    (hm.inBounds hc hs).mpr hpos
  unfold pktcodecWriteValue at h
  split_ifs at h with h₁ h₂ h₃
  · rw [hin (by rw [h₁]; rfl)] at h
    cases h
  · rw [hin (by rw [h₂]; rfl)] at h
    cases h
  · rw [hin (by rw [h₃]; rfl)] at h
    exact ioportWriteEncstring_error h

theorem encodeValues_error {m : Meter} (hm : m.Represented) (hc : m.count < SZ_EMPTY_VAL)
    {n i : Nat} (hi : i + n ≤ elemCount m.count) {io : Ioport} {e : Fault}
    (h : encodeValues m n i io = .error e) : e = .tableIndex := by
  induction n generalizing i io with
  | zero => cases h
  | succ n ih =>
    unfold encodeValues at h
    cases hw : pktcodecWriteValue io m i with
    | error e' =>
      rw [hw] at h
      cases h
      exact pktcodecWriteValue_error hm hc (by omega) hw
    | ok r =>
      obtain ⟨ok, io'⟩ := r
      rw [hw] at h
      cases ok with
      | false => cases h
      | true => exact ih (i := i + 1) (by omega) h

theorem pktEncoderSafe {h : Host} (hh : h.Represented) : PktEncoderSafe h := by
  unfold PktEncoderSafe pktcodecEncodeHost
  unfold Host.Represented at hh
  generalize h.meters = ms at hh
  induction ms with
  | nil =>
    intro io e he
    cases he
  | cons m ms ih =>
    intro io e he
    have ih := ih fun m hm => hh m (List.mem_cons_of_mem _ hm)
    simp only [encodeMeters] at he
    split at he
    · rename_i hc
      cases hv : encodeValues m (elemCount m.count) 0
          (ioportWriteU64 io (m.id ||| BitVec.ofNat 64 m.count)) with
      | error e' =>
        rw [hv] at he
        cases he
        exact encodeValues_error (hh m List.mem_cons_self) ((elemCount_lt _).mp hc) (by omega) hv
      | ok r =>
        obtain ⟨ok, io'⟩ := r
        rw [hv] at he
        cases ok with
        | false => cases he
        | true => exact ih io' e he
    · exact ih _ e he

/-- In every run of packets whose records fit, all meters are represented and the setters
and the packet encoder stay inside of the arrays; the JSON encoder does so exactly if no
array is shorter than the one of its leader; and the next packet is decoded without a fault
and with all meters represented throughout exactly if its records fit. -/
theorem packets_keep_arrays {uuid : Uuid} {ps : List Packet} {h : Host}
    (hist : ((packets uuid).guard PacketFits).History ps h) :
    h.Represented ∧ SettersSafe h ∧ PktEncoderSafe h ∧
      (∀ io, (∃ r, jsoncodecEncodeHost io h = .ok r) ↔ JsonFits h) ∧
      ∀ p, (PacketRepresented h p ↔ PacketFits h p) ∧
        (PacketFits h p → ∃ ok s, decodePacket h p = .ok (ok, s) ∧ s.host.Represented) := by
  have hh := packets_represented hist
  refine ⟨hh, settersSafe hh, pktEncoderSafe hh, jsoncodecEncodeHost_ok hh, fun p => ?_⟩
  exact ⟨recordsRepresented_iff _ (s := p.start h) hh, decodePacket_represented hh⟩

def loadPacket : Packet where
  now := 1
  bytes := be64 (makeid (asc "a") MTYPE_INT) ++ [5]
  strbuf := []

def loadedHost : Host :=
  { hostAlloc ⟨0, 0⟩ with
    lastmodified := 1
    meters := [⟨makeid (asc "a") MTYPE_INT, 1, 0, some ⟨8, [.int 5]⟩, 0⟩]
    mcount := 1 }

/-- The run of one packet with one integer meter. -/
theorem packets_keep_arrays_load : loadedHost.Represented ∧
    SettersSafe loadedHost ∧ PktEncoderSafe loadedHost ∧
    (∀ io, (∃ r, jsoncodecEncodeHost io loadedHost = .ok r) ↔ JsonFits loadedHost) ∧
    ∀ p, (PacketRepresented loadedHost p ↔ PacketFits loadedHost p) ∧
      (PacketFits loadedHost p →
        ∃ ok s, decodePacket loadedHost p = .ok (ok, s) ∧ s.host.Represented) := by
  let s₀ := loadPacket.start (hostAlloc ⟨0, 0⟩)
  let s₁ : DecodeState := ⟨.reader [], loadedHost, 0, []⟩
  have hrec : decodeRecord { s₀ with io := (ioportReadU64 s₀.io).2 } (ioportReadU64 s₀.io).1 =
      .ok (true, s₁) := by decide
  have hfit : PacketFits (hostAlloc ⟨0, 0⟩) loadPacket := by
    intro _
    refine ⟨.inr (fun m hm => nomatch hm), fun s' hs' => ?_⟩
    cases hrec.symm.trans hs'
    exact fun hmid => absurd rfl hmid
  have hdec : decodePacket (hostAlloc ⟨0, 0⟩) loadPacket = .ok (true, s₁) := by decide
  exact packets_keep_arrays ((Transition.History.init rfl).step ⟨hfit, true, s₁, hdec, rfl⟩)

/-- An integer meter, and behind it a string meter of the same name. -/
def retypingPacket : Packet where
  now := 1
  bytes := be64 (makeid (asc "a") MTYPE_INT) ++ [5] ++ be64 (makeid (asc "a") MTYPE_STR) ++
    [1, 120]
  strbuf := []

/-- The string of 128 bytes is written to a block of eight. -/
theorem retypingPacket_outOfBounds :
    decodePacket (hostAlloc ⟨0, 0⟩) retypingPacket = .error .outOfBounds := rfl

end Opticon
