import Opticon.Wire.ValueCodec

/-! Strings in codes of six bits. -/

namespace Opticon

/-- The character is below 128, and the table has a code for it. -/
def hasCode (c : UInt8) : Bool := c < 128 && DECSET.getD c.toNat 255 != 255

theorem encodable_eq (str : List UInt8) :
    encodable str = match str.dropWhile hasCode with
      | [] => .ok true
      | c :: _ => if c < 128 then .ok false else .error .tableIndex := by
  induction str with
  | nil => rfl
  | cons c cs ih =>
    by_cases hc : c < 128
    · by_cases hcode : DECSET.getD c.toNat 255 = 255
      · have hno : hasCode c = false := by
          rw [hasCode, bne_eq_false_iff_eq.mpr hcode, Bool.and_false]
        simp only [encodable, List.dropWhile_cons, hno, if_pos hcode, if_pos hc,
          if_neg (UInt8.not_le.mpr hc), Bool.false_eq_true, if_false]
      · have hyes : hasCode c = true := by
          simp only [hasCode, hc, decide_true, Bool.true_and]
          exact bne_iff_ne.mpr hcode
        simp only [encodable, List.dropWhile_cons, hyes, if_neg hcode,
          if_neg (UInt8.not_le.mpr hc), if_true, ih]
    · have hno : hasCode c = false := by simp [hasCode, hc]
      simp only [encodable, List.dropWhile_cons, hno, if_neg hc, if_pos (UInt8.not_lt.mp hc),
        Bool.false_eq_true, if_false]

/-- `DEL` shares the code of the letter `a`; every other code is of one character. -/
theorem recode_eq_iff {c : UInt8} (hc : hasCode c = true) : recode c = c ↔ c ≠ 127 := by
  have hall : ∀ c : BitVec 8, hasCode (UInt8.ofBitVec c) = true →
      (recode (UInt8.ofBitVec c) = UInt8.ofBitVec c ↔ UInt8.ofBitVec c ≠ 127) := by
    decide
  exact hall c.toBitVec hc

/-- Before the first character without a code there is none from 128 on, and a string in which
every character has a code has no `DEL`. -/
def Codable (str : List UInt8) : Prop :=
  match str.dropWhile hasCode with
  | [] => 127 ∉ str
  | c :: _ => c < 128

/-- The string is written, wherever this is, and whatever follows, its bytes are read back as the
string and no others are read. The buffer has room for 128 bytes. -/
def EncstringRoundTrips (str : List UInt8) : Prop :=
  ∀ w, ∃ bs, ioportWriteEncstring (.port w) str = .ok (true, .port (w ++ bs)) ∧
    ∀ io into rest, io.unread = bs ++ rest → ∃ buf io',
      ioportReadEncstring io into = (true, buf, io') ∧ buf.takeWhile (· != 0) = str ∧
        io'.unread = rest

theorem takeWhile_overwrite (into : List UInt8) (s : FString) :
    (overwrite into (s.str ++ [0])).takeWhile (· != 0) = s.str := by
  have hz : ∀ c ∈ s.str, (c != 0) = true := by
    intro c hc
    exact bne_iff_ne.mpr fun h0 => s.nonul (h0 ▸ hc)
  rw [overwrite, List.append_assoc, List.takeWhile_append_of_pos hz]
  simp

/-- What is read back is the string itself, but for `DEL`. -/
theorem recoded_eq_iff {s : FString} (h : s.str.dropWhile hasCode = []) :
    recoded s = s ↔ 127 ∉ s.str := by
  have henc : encodable s.str = .ok true := by rw [encodable_eq, h]
  have hcode := List.dropWhile_eq_nil_iff.mp h
  have hmap : s.str.map recode = s.str ↔ ∀ c ∈ s.str, recode c = c := by
    conv_lhs => rhs; rw [← List.map_id s.str]
    exact List.map_inj_left
  rw [FString.ext_iff, recoded, dif_pos henc, hmap]
  constructor
  · intro hall hdel
    exact (recode_eq_iff (hcode 127 hdel)).mp (hall 127 hdel) rfl
  · intro hdel c hc
    refine (recode_eq_iff (hcode c hc)).mpr fun h127 => hdel (h127 ▸ hc)

/-- What is written is read, wherever it is written, if the table can be indexed. -/
theorem ioportWriteEncstring_read {s : FString} {b : Bool} (h : encodable s.str = .ok b)
    (w : List UInt8) :
    ∃ bs, ioportWriteEncstring (.port w) s.str = .ok (true, .port (w ++ bs)) ∧
      ∀ io into rest, io.unread = bs ++ rest → ∃ io',
        ioportReadEncstring io into = (true, overwrite into ((recoded s).str ++ [0]), io') ∧
          io'.unread = rest := by
  obtain ⟨io, hio⟩ : ∃ io, ioportWriteEncstring .writer s.str = .ok (true, io) := by
    simp only [ioportWriteEncstring, if_neg (Nat.not_lt.mpr s.length_le), h, Outcome.ok_bind]
    cases b <;> exact ⟨_, rfl⟩
  exact ⟨io.written, (ioportWriteEncstring_appends s.str).writer hio w,
    fun io into rest hu => ioportReadEncstring_eq hio into hu⟩

theorem encstringRoundTrips_iff_recoded (s : FString) :
    EncstringRoundTrips s.str ↔ (∃ b, encodable s.str = .ok b) ∧ recoded s = s := by
  constructor
  · intro h
    obtain ⟨bs, hwrite, hread⟩ := h []
    cases henc : encodable s.str with
    | error e =>
      simp only [ioportWriteEncstring, if_neg (Nat.not_lt.mpr s.length_le), henc] at hwrite
      cases hwrite
    | ok b =>
      refine ⟨⟨b, rfl⟩, FString.ext ?_⟩
      obtain ⟨bs', hwrite', hread'⟩ := ioportWriteEncstring_read henc []
      rw [hwrite'] at hwrite
      obtain rfl : bs' = bs := congrArg (fun r => (Ioport.written r.2)) (Except.ok.inj hwrite)
      obtain ⟨buf, io, hio, hbuf, -⟩ := hread (.reader bs') [] [] (List.append_nil bs').symm
      obtain ⟨io', hio', -⟩ := hread' (.reader bs') [] [] (List.append_nil bs').symm
      rw [hio'] at hio
      cases hio
      rwa [takeWhile_overwrite] at hbuf
  · intro h w
    obtain ⟨⟨b, henc⟩, hrec⟩ := h
    obtain ⟨bs, hwrite, hread⟩ := ioportWriteEncstring_read henc w
    refine ⟨bs, hwrite, fun io into rest hu => ?_⟩
    obtain ⟨io', hio', hrest⟩ := hread io into rest hu
    exact ⟨_, io', hio', by rw [takeWhile_overwrite, hrec], hrest⟩

/-- A string without a terminator comes back if and only if it is codable. -/
theorem encstringRoundTrips_iff (s : FString) : EncstringRoundTrips s.str ↔ Codable s.str := by
  have henc := encodable_eq s.str
  rw [encstringRoundTrips_iff_recoded, Codable]
  cases hdrop : s.str.dropWhile hasCode with
  | nil =>
    rw [hdrop] at henc
    rw [recoded_eq_iff hdrop, henc]
    simp
  | cons c cs =>
    rw [hdrop] at henc
    rw [henc]
    by_cases hc : c < 128
    · have hrec : recoded s = s := by
        rw [recoded, dif_neg]
        rw [henc]
        simp [hc]
      simp [hc, hrec]
    · simp [hc]

/-- The letter `µ` in UTF-8: its first byte indexes the table before its first entry. And `DEL`
is read back as an `a`. -/
theorem utf8_tableIndex : ¬ EncstringRoundTrips [0xc2, 0xb5] ∧
    ioportWriteEncstring .writer [0xc2, 0xb5] = .error .tableIndex ∧
    ¬ EncstringRoundTrips [127] := by
  have herror : ioportWriteEncstring .writer [0xc2, 0xb5] = .error .tableIndex := by decide
  have hdel : ioportWriteEncstring .writer [127] = .ok (true, .port [0x81, 0]) := by decide
  refine ⟨fun h => ?_, herror, fun h => ?_⟩
  · obtain ⟨bs, hwrite, -⟩ := h []
    have hwrite : ioportWriteEncstring .writer [0xc2, 0xb5] = .ok (true, .port bs) := hwrite
    rw [herror] at hwrite
    cases hwrite
  · obtain ⟨bs, hwrite, hread⟩ := h []
    have hwrite : ioportWriteEncstring .writer [127] = .ok (true, .port bs) := hwrite
    rw [hdel] at hwrite
    obtain rfl : [0x81, 0] = bs := congrArg (fun r => (Ioport.written r.2)) (Except.ok.inj hwrite)
    obtain ⟨buf, io, hio, hbuf, -⟩ := hread (.reader [0x81, 0]) [] [] rfl
    have ha : ((ioportReadEncstring (.reader [0x81, 0]) []).2.1).takeWhile (· != 0) = [97] := by
      decide
    rw [hio, hbuf] at ha
    cases ha

end Opticon
