import Opticon.Lib.Outcome
import Opticon.Wire.BitPort
import Opticon.Wire.Packet

/-! The codecs of single values: what they write is appended to what was written before, and
strings are read back from where they were written. -/

namespace Opticon

open BitStream

@[simp] theorem ioportWriteByte_port (w : List UInt8) (b : UInt8) :
    ioportWriteByte (.port w) b = .port (w ++ [b]) := rfl

@[simp] theorem ioportWriteU64_port (w : List UInt8) (i : BitVec 64) :
    ioportWriteU64 (.port w) i = .port (w ++ be64 i) := rfl

theorem encintLoop_port (i : BitVec 64) (ps : List Nat) (started : Bool) :
    ∃ bs, ∀ w, encintLoop i ps started (.port w) = .port (w ++ bs) := by
  induction ps generalizing started with
  | nil => exact ⟨[], fun w => by simp [encintLoop]⟩
  | cons p ps ih =>
    simp only [encintLoop, ioportWriteByte_port]
    split
    · obtain ⟨bs, hbs⟩ := ih true
      exact ⟨_ :: bs, fun w => by rw [hbs, List.append_assoc]; rfl⟩
    · exact ih false

theorem ioportWriteEncint_port (i : BitVec 64) :
    ∃ bs, ∀ w, ioportWriteEncint (.port w) i = .port (w ++ bs) := by
  unfold ioportWriteEncint
  split
  · exact ⟨[0], fun w => rfl⟩
  · exact encintLoop_port i _ false

theorem ioportWriteEncfrac_port (d : Double) :
    ∃ bs, ∀ w, ioportWriteEncfrac (.port w) d = .port (w ++ bs) := by
  cases d with
  | inf => exact ⟨[255, 255], fun w => by simp [ioportWriteEncfrac]⟩
  | fin d =>
    simp only [ioportWriteEncfrac, ioportWriteByte_port, ioportWrite_port, List.append_assoc]
    split
    · exact ⟨_, fun w => rfl⟩
    · split
      · split
        · exact ⟨_, fun w => rfl⟩
        · exact ⟨_, fun w => rfl⟩
      · exact ⟨_, fun w => rfl⟩

def code (c : UInt8) : BitVec 8 := DECSET.getD c.toNat 255

def codeBits (str : List UInt8) : List Bool := str.flatMap fun c => low 6 (code c)

theorem encodable_cons {c : UInt8} {cs : List UInt8} (h : encodable (c :: cs) = .ok true) :
    (code c).toNat < 64 ∧ encodable cs = .ok true := by
  have hall : ∀ n ∈ DECSET.map BitVec.toNat, n = 255 ∨ n < 64 := by decide +kernel
  simp only [encodable] at h
  split_ifs at h with hc h255
  · cases h
  · refine ⟨?_, h⟩
    have h255 : (code c).toNat ≠ 255 := fun h => h255 (BitVec.eq_of_toNat_eq h)
    have hlt : c.toNat < DECSET.length := by
      have : c < 128 := by simpa using hc
      exact UInt8.lt_iff_toNat_lt.mp this
    have hmem : code c ∈ DECSET := by
      rw [code, List.getD_eq_getElem?_getD, List.getElem?_eq_getElem hlt]
      exact List.getElem_mem hlt
    exact (hall _ (List.mem_map_of_mem hmem)).resolve_left h255

theorem writeCodes_spec {io : Ioport} (hw : io.Writable) (str : List UInt8) :
    (writeCodes io str).Writable ∧
      (writeCodes io str).bitsWritten = io.bitsWritten ++ codeBits str ∧
      (writeCodes io str).unread = io.unread ∧ (writeCodes io str).file = io.file := by
  induction str generalizing io with
  | nil => exact ⟨hw, by simp [writeCodes, codeBits], rfl, rfl⟩
  | cons c cs ih =>
    obtain ⟨hw', hbits, -, hunread, hfile⟩ :=
      ioportWriteBits_spec hw (code c) (n := 6) (by decide)
    obtain ⟨hw'', hbits', hunread', hfile'⟩ := ih hw'
    refine ⟨hw'', ?_, hunread'.trans hunread, hfile'.trans hfile⟩
    change (writeCodes (ioportWriteBits io (code c) 6).2 cs).bitsWritten = _
    rw [hbits', hbits, List.append_assoc]
    rfl

theorem ioportFlushBits_spec {io : Ioport} (hw : io.Writable) (hu : io.unread = [])
    (hf : io.file = false) :
    ∃ w pad, ioportFlushBits io = .port w ∧ pad < 8 ∧
      bytes w = io.bitsWritten ++ List.replicate pad false := by
  obtain ⟨hlt, hz⟩ := hw
  unfold ioportFlushBits
  split
  · rename_i h0
    have hbuf : io.bitbuffer = 0 := by
      apply BitVec.eq_of_getLsbD_eq
      intro j hj
      rw [hz j (by omega)]
      simp
    refine ⟨io.written, 0, ?_, by decide, by simp [Ioport.bitsWritten, Ioport.pending, h0]⟩
    cases io
    simp only at hu hf h0 hbuf
    subst hu hf h0 hbuf
    rfl
  · refine ⟨io.written ++ [UInt8.ofBitVec io.bitbuffer], 8 - io.bitpos, ?_, by omega, ?_⟩
    · cases io
      simp only at hu hf
      subst hu hf
      rfl
    · rw [bytes_append, Ioport.bitsWritten, Ioport.pending, List.append_assoc]
      congr 1
      apply List.ext_getElem
      · simp; omega
      intro i h₁ h₂
      have hi : i < 8 := by simpa using h₁
      have hbyte : bytes [UInt8.ofBitVec io.bitbuffer] = low 8 io.bitbuffer := by simp
      simp only [hbyte]
      rw [List.getElem_append]
      split
      · rw [List.getElem_take]
      · rename_i hge
        rw [getElem_low, List.getElem_replicate, hz _ (by simp at hge; omega)]

/-- What is flushed behind bytes that are there already. -/
theorem ioportFlushBits_behind {io : Ioport} (hw : io.Writable) (hu : io.unread = []) (hf : io.file = false)
    {w : List UInt8} {bits : List Bool} (hbits : io.bitsWritten = bytes w ++ bits) :
    ∃ cs pad, ioportFlushBits io = .port (w ++ cs) ∧ pad < 8 ∧ bytes cs = bits ++ List.replicate pad false := by
  obtain ⟨v, pad, hv, hpad, hbytes⟩ := ioportFlushBits_spec hw hu hf
  rw [hbits, List.append_assoc] at hbytes
  obtain ⟨cs, rfl, hcs⟩ := exists_bytes_append hbytes
  exact ⟨cs, pad, hv, hpad, hcs⟩

theorem bitsWritten_port (w : List UInt8) : (Ioport.port w).bitsWritten = bytes w := List.append_nil _

theorem writable_port (w : List UInt8) : (Ioport.port w).Writable :=
  ⟨Nat.zero_lt_succ 7, fun j _ => by simp [Ioport.port, Ioport.writer]⟩

theorem writeCodes_port (str : List UInt8) :
    ∃ cs pad, pad < 8 ∧ bytes cs = codeBits str ++ List.replicate pad false ∧
      ∀ w, ioportFlushBits (writeCodes (.port w) str) = .port (w ++ cs) := by
  have hflush : ∀ w, ∃ cs pad, ioportFlushBits (writeCodes (.port w) str) = .port (w ++ cs) ∧ pad < 8 ∧
      bytes cs = codeBits str ++ List.replicate pad false := by
    intro w
    obtain ⟨hw, hbits, hunread, hfile⟩ := writeCodes_spec (writable_port w) str
    rw [bitsWritten_port] at hbits
    exact ioportFlushBits_behind hw hunread hfile hbits
  obtain ⟨cs, pad, -, hpad, hcs⟩ := hflush []
  refine ⟨cs, pad, hpad, hcs, fun w => ?_⟩
  obtain ⟨cs', pad', hv, hpad', hcs'⟩ := hflush w
  have hl := congrArg List.length hcs
  have hl' := congrArg List.length hcs'
  simp only [length_bytes, List.length_append, List.length_replicate] at hl hl'
  have hpads : pad' = pad := by omega
  have hsame : cs' = cs := bytes_inj (by rw [hcs', hcs, hpads])
  rw [hv, hsame]

/-- Writing somewhere does the same as writing anywhere else, behind the bytes that are
there. -/
def Appends (f : Ioport → Except Fault (Bool × Ioport)) : Prop :=
  (∃ e, ∀ w, f (.port w) = .error e) ∨ ∃ ok bs, ∀ w, f (.port w) = .ok (ok, .port (w ++ bs))

theorem Appends.writer {f : Ioport → Except Fault (Bool × Ioport)} (hf : Appends f) {ok : Bool}
    {io : Ioport} (h : f .writer = .ok (ok, io)) (w : List UInt8) :
    f (.port w) = .ok (ok, .port (w ++ io.written)) := by
  have hport : Ioport.writer = .port [] := rfl
  rw [hport] at h
  obtain ⟨e, he⟩ | ⟨ok', bs, hbs⟩ := hf
  · rw [he] at h
    cases h
  · rw [hbs] at h
    obtain ⟨rfl, rfl⟩ := Prod.mk.inj (Except.ok.inj h)
    exact hbs w

theorem ioportWriteEncstring_appends (str : List UInt8) :
    Appends fun io => ioportWriteEncstring io str := by
  simp only [Appends, ioportWriteEncstring]
  split
  · exact .inr ⟨false, [], fun w => by simp⟩
  · cases encodable str with
    | error e => exact .inl ⟨e, fun w => rfl⟩
    | ok b =>
      cases b with
      | false => exact .inr ⟨true, UInt8.ofNat str.length :: str, fun w => by simp⟩
      | true =>
        obtain ⟨cs, -, -, -, hcs⟩ := writeCodes_port str
        exact .inr ⟨true, (UInt8.ofNat str.length ||| 0x80) :: cs, fun w => by simp [hcs]⟩

theorem pktcodecWriteValue_appends (m : Meter) (pos : Nat) :
    Appends fun io => pktcodecWriteValue io m pos := by
  have hbounds {sz : Nat} {f : Ioport → Except Fault (Bool × Ioport)} (hf : Appends f) :
      Appends (fun io => m.inBounds sz pos >>= fun _ => f io) := by
    cases hb : m.inBounds sz pos with
    | error e => exact .inl ⟨e, fun w => rfl⟩
    | ok u => exact hf
  unfold pktcodecWriteValue
  split_ifs
  · obtain ⟨bs, hbs⟩ := ioportWriteEncint_port (m.uint pos)
    exact hbounds (.inr ⟨true, bs, fun w => by simp [hbs]⟩)
  · obtain ⟨bs, hbs⟩ := ioportWriteEncfrac_port (m.frac pos)
    exact hbounds (.inr ⟨true, bs, fun w => by simp [hbs]⟩)
  · exact hbounds (ioportWriteEncstring_appends _)
  · exact .inr ⟨false, [], fun w => by simp⟩

/-- A value is written in the same bytes wherever it is written. -/
theorem pktcodecWriteValue_port {m : Meter} {pos : Nat} {io : Ioport}
    (h : pktcodecWriteValue .writer m pos = .ok (true, io)) (w : List UInt8) :
    pktcodecWriteValue (.port w) m pos = .ok (true, .port (w ++ io.written)) :=
  (pktcodecWriteValue_appends m pos).writer h w

/-- The character a character comes back as: itself, but for `DEL`, which shares the code
of the letter `a`. -/
def recode (c : UInt8) : UInt8 := ENCSET.getD (code c).toNat 0

theorem recode_ne_zero {c : UInt8} (h : (code c).toNat < 64) : recode c ≠ 0 := by
  have hall : ∀ d ∈ ENCSET, d ≠ 0 := by decide +kernel
  have hlen : ENCSET.length = 64 := rfl
  rw [recode, List.getD_eq_getElem?_getD, List.getElem?_eq_getElem (by omega)]
  exact hall _ (List.getElem_mem _)

theorem readCodes_spec {str : List UInt8} (henc : encodable str = .ok true) {io : Ioport}
    (hp : io.bitpos ≤ 8) {rest : List Bool} (hrem : io.remaining = codeBits str ++ rest) :
    (readCodes str.length io).1 = str.map recode ∧
      (readCodes str.length io).2.remaining = rest ∧
      (readCodes str.length io).2.bitpos ≤ 8 ∧
      (readCodes str.length io).2.unread <:+ io.unread := by
  induction str generalizing io with
  | nil => exact ⟨rfl, by simpa [codeBits, readCodes] using hrem, hp, List.suffix_refl _⟩
  | cons c cs ih =>
    obtain ⟨hc, hcs⟩ := encodable_cons henc
    have hrem : io.remaining = low 6 (code c) ++ (codeBits cs ++ rest) := by
      rw [hrem]
      simp [codeBits]
    obtain ⟨hlow, hzero, hdrop, hpos, hsuf, -, -⟩ := ioportReadBits_spec hp (n := 6) (by decide)
      (by decide) (by simp [hrem])
    rw [hrem, List.take_left' (length_low 6 _)] at hlow
    rw [hrem, List.drop_left' (length_low 6 _)] at hdrop
    have hval : (ioportReadBits io 6).1 = code c :=
      low_inj hlow (toNat_lt_of_getLsbD hzero) hc
    obtain ⟨hstr, hrest, hpos', hsuf'⟩ := ih hcs hpos.2 hdrop
    refine ⟨?_, hrest, hpos', hsuf'.trans hsuf⟩
    change ENCSET.getD (ioportReadBits io 6).1.toNat 0 ::
      (readCodes cs.length (ioportReadBits io 6).2).1 = _
    rw [hval, hstr]
    rfl

/-- Reading the codes of a string ends behind the byte its last code is in. -/
theorem readCodes_written (io : Ioport) {str cs rest : List UInt8} (henc : encodable str = .ok true)
    {pad : Nat} (hpad : pad < 8) (hcs : bytes cs = codeBits str ++ List.replicate pad false)
    (hp : io.bitpos = 0) (hu : io.unread = cs ++ rest) :
    (readCodes str.length io).1 = str.map recode ∧
      (readCodes str.length io).2.unread = rest := by
  have hrem : io.remaining = codeBits str ++ (List.replicate pad false ++ bytes rest) := by
    simp [Ioport.remaining, hp, hu, hcs]
  obtain ⟨hstr, hrest, hpos, hsuf⟩ := readCodes_spec henc (by omega) hrem
  refine ⟨hstr, ?_⟩
  have hlen := congrArg List.length hrest
  rw [Ioport.remaining] at hlen
  rw [hu] at hsuf
  have hrest_suf : rest <:+ cs ++ rest := List.suffix_append _ _
  have hle : (readCodes str.length io).2.unread.length = rest.length := by
    split at hlen
    · simp only [List.nil_append, length_bytes, List.length_append, List.length_replicate] at hlen
      omega
    · simp only [length_bytes, List.length_append, List.length_replicate, List.length_drop,
        length_low] at hlen
      omega
  exact (List.suffix_of_suffix_length_le hsuf hrest_suf hle.le).eq_of_length hle

theorem strncpy_overwrite (into : List UInt8) (s : FString) :
    FString.strncpy (overwrite into (s.str ++ [0])) = s := by
  apply FString.ext
  have hz : ∀ c ∈ s.str, (c != 0) = true := by
    intro c hc
    have h0 : c ≠ 0 := fun h0 => s.nonul (h0 ▸ hc)
    simpa using h0
  change ((overwrite into (s.str ++ [0])).take 127).takeWhile (· != 0) = s.str
  rw [overwrite, List.append_assoc, List.take_append, List.take_of_length_le s.length_le,
    List.takeWhile_append_of_pos hz]
  cases 127 - s.str.length <;> simp

/-- The string a string is read back as. -/
def recoded (s : FString) : FString :=
  if h : encodable s.str = .ok true then
    { str := s.str.map recode
      length_le := by simpa using s.length_le
      nonul := by
        have hcode : ∀ {cs : List UInt8}, encodable cs = .ok true → ∀ c ∈ cs, recode c ≠ 0 := by
          intro cs hcs
          induction cs with
          | nil => simp
          | cons c cs ih =>
            obtain ⟨hc, hcs⟩ := encodable_cons hcs
            simp only [List.forall_mem_cons]
            exact ⟨recode_ne_zero hc, ih hcs⟩
        intro h0
        obtain ⟨c, hc, hr⟩ := List.mem_map.mp h0
        exact hcode h c hc hr }
  else s

theorem length_byte {n : Nat} (h : n ≤ 127) :
    UInt8.ofNat n < 0x80 ∧ (UInt8.ofNat n = 0 → n = 0) ∧ (UInt8.ofNat n).toNat = n ∧
      ¬ UInt8.ofNat n ||| 0x80 < 0x80 ∧ UInt8.ofNat n ||| 0x80 ≠ 0 ∧
      ((UInt8.ofNat n ||| 0x80) &&& 0x7f).toNat = n := by
  revert n
  decide

/-- Whatever follows, the bytes a string was written in are read as the string it is read back
as, with a terminator behind it. -/
theorem ioportReadEncstring_eq {s : FString} {w : Ioport}
    (h : ioportWriteEncstring .writer s.str = .ok (true, w)) {io : Ioport}
    {rest : List UInt8} (into : List UInt8) (hu : io.unread = w.written ++ rest) :
    ∃ io', ioportReadEncstring io into = (true, overwrite into ((recoded s).str ++ [0]), io') ∧
      io'.unread = rest := by
  obtain ⟨hlt, hzero, htoNat, hge, hne, hlow⟩ := length_byte s.length_le
  have hport : Ioport.writer = .port [] := rfl
  simp only [ioportWriteEncstring, if_neg (Nat.not_lt.mpr s.length_le)] at h
  cases he : encodable s.str with
  | error e =>
    rw [he] at h
    cases h
  | ok b =>
    rw [he] at h
    cases b with
    | false =>
      have hlen : UInt8.ofNat s.str.length ≠ 0 := by
        intro h0
        rw [List.eq_nil_of_length_eq_zero (hzero h0)] at he
        cases he
      simp only [hport, Outcome.ok_bind, Outcome.pure_ok, Bool.false_eq_true, if_false,
        ioportWriteByte_port, ioportWrite_port, Except.ok.injEq, Prod.mk.injEq] at h
      obtain ⟨-, rfl⟩ := h
      have hread := ioportRead_enough { io with
        unread := s.str ++ rest, bitpos := 0, bitbuffer := 0 } s.str rest rfl
      have hbyte := ioportReadByte_cons io (UInt8.ofNat s.str.length)
        (s.str ++ rest) (by simpa [Ioport.port] using hu)
      have hrec : recoded s = s := by rw [recoded, dif_neg (by rw [he]; simp)]
      simp only [ioportReadEncstring, hbyte, if_neg hlen, if_pos hlt, htoNat, hread, if_true, hrec]
      exact ⟨_, rfl, rfl⟩
    | true =>
      obtain ⟨cs, pad, hpad, hcs, hw⟩ := writeCodes_port s.str
      simp only [hport, Outcome.ok_bind, Outcome.pure_ok, if_true, ioportWriteByte_port, hw,
        Except.ok.injEq, Prod.mk.injEq] at h
      obtain ⟨-, rfl⟩ := h
      have hbyte := ioportReadByte_cons io (UInt8.ofNat s.str.length ||| 0x80)
        (cs ++ rest) (by simpa [Ioport.port] using hu)
      obtain ⟨hstr, hunread⟩ := readCodes_written { io with
        unread := cs ++ rest, bitpos := 0, bitbuffer := 0 } he hpad hcs rfl rfl
      have hrec : (recoded s).str = s.str.map recode := by rw [recoded, dif_pos he]
      simp only [ioportReadEncstring, hbyte, if_neg hne, if_neg hge, hlow, hstr, hrec]
      exact ⟨_, rfl, hunread⟩

theorem ioportReadEncstring_written {s : FString} {w : Ioport}
    (h : ioportWriteEncstring .writer s.str = .ok (true, w)) {io : Ioport}
    {rest : List UInt8} (into : List UInt8) (hu : io.unread = w.written ++ rest) :
    FString.strncpy (ioportReadEncstring io into).2.1 = recoded s ∧
      (ioportReadEncstring io into).2.2.unread = rest := by
  obtain ⟨io', hread, hunread⟩ := ioportReadEncstring_eq h into hu
  rw [hread]
  exact ⟨strncpy_overwrite into (recoded s), hunread⟩

end Opticon
