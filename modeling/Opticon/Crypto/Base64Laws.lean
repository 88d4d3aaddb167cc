import Opticon.Crypto.AesLaws
import Opticon.Crypto.Base64

/-! What is encoded is decoded, and neither direction leaves its buffer. -/

namespace Opticon

/-- What `base64_encode` allocates for a number of bytes. -/
def base64Olen (len : Nat) : Nat :=
  let olen := len * 4 / 3 + 4
  olen + olen / 72 + 1

/-- The characters of a text, without the ends of its lines. -/
def base64Groups : List UInt8 → List UInt8
  | [] => []
  | [a] => [base64Char (a >>> 2), base64Char ((a &&& 0x03) <<< 4), 61, 61]
  | [a, b] =>
    [base64Char (a >>> 2), base64Char ((a &&& 0x03) <<< 4 ||| b >>> 4),
      base64Char ((b &&& 0x0f) <<< 2), 61]
  | a :: b :: c :: rest =>
    [base64Char (a >>> 2), base64Char ((a &&& 0x03) <<< 4 ||| b >>> 4),
      base64Char ((b &&& 0x0f) <<< 2 ||| c >>> 6), base64Char (c &&& 0x3f)] ++ base64Groups rest

theorem base64Value_char (six : UInt8) : base64Value (base64Char six) = some (six &&& 63) := by
  have h := forall_uint8 (p := fun six => base64Value (base64Char six) == some (six &&& 63))
    (by decide +kernel) six
  simpa using h

theorem base64Char_ne_pad (six : UInt8) : base64Char six ≠ 61 := by
  have h := forall_uint8 (p := fun six => base64Char six != 61) (by decide +kernel) six
  simpa using h

@[simp] theorem base64Value_pad : base64Value 61 = some 0 := rfl

@[simp] theorem base64Value_newline : base64Value 10 = none := by decide

/-! ## Six bits and eight -/

theorem first_of_sextets (a b : UInt8) :
    (a >>> 2 &&& 63) <<< 2 ||| (((a &&& 0x03) <<< 4 ||| b >>> 4) &&& 63) >>> 4 = a := by
  rw [← UInt8.toBitVec_inj]
  apply BitVec.eq_of_getLsbD_eq
  intro i hi
  interval_cases i <;> simp

theorem second_of_sextets (a b c : UInt8) :
    (((a &&& 0x03) <<< 4 ||| b >>> 4) &&& 63) <<< 4 |||
      (((b &&& 0x0f) <<< 2 ||| c >>> 6) &&& 63) >>> 2 = b := by
  rw [← UInt8.toBitVec_inj]
  apply BitVec.eq_of_getLsbD_eq
  intro i hi
  interval_cases i <;> simp

theorem third_of_sextets (b c : UInt8) :
    (((b &&& 0x0f) <<< 2 ||| c >>> 6) &&& 63) <<< 6 ||| (c &&& 0x3f &&& 63) = c := by
  rw [← UInt8.toBitVec_inj]
  apply BitVec.eq_of_getLsbD_eq
  intro i hi
  interval_cases i <;> simp

/-! ## The characters -/

theorem filter_base64Encode (line_len : Nat) (src : List UInt8) :
    (base64Encode line_len src).filter (fun c => (base64Value c).isSome) = base64Groups src := by
  fun_induction base64Encode line_len src with
  | case1 => rfl
  | case2 a => simp [base64Groups, base64Value_char]
  | case3 a b => simp [base64Groups, base64Value_char]
  | case4 line_len a b c rest ih₀ ih =>
    rw [base64Groups]
    split
    · simp [base64Value_char, ih₀]
    · simp [base64Value_char, ih]

theorem length_base64Groups (src : List UInt8) :
    (base64Groups src).length = 4 * ((src.length + 2) / 3) := by
  fun_induction base64Groups src with
  | case1 => rfl
  | case2 a => simp
  | case3 a b => simp
  | case4 a b c rest ih =>
    simp only [List.length_append, List.length_cons, List.length_nil, ih]
    omega

/-- What `base64_decode` takes off the end, which the padding stands for. -/
def base64Trim (chars out : List UInt8) : List UInt8 :=
  let last := chars.drop (chars.length - 4)
  if last.getD 2 0 = 61 then out.dropLast.dropLast
  else if last.getD 3 0 = 61 then out.dropLast else out

/-- Only the last four characters decide, and only the last bytes go. -/
theorem base64Trim_append {front chars out : List UInt8} (lead : List UInt8)
    (hchars : 4 ≤ chars.length) (hout : 2 ≤ out.length) :
    base64Trim (front ++ chars) (lead ++ out) = lead ++ base64Trim chars out := by
  have hlast : (front ++ chars).drop ((front ++ chars).length - 4) =
      chars.drop (chars.length - 4) := by
    rw [List.length_append, Nat.add_sub_assoc hchars, List.drop_append,
      List.drop_of_length_le (Nat.le_add_right _ _), List.nil_append, Nat.add_sub_cancel_left]
  have hne : out ≠ [] := List.ne_nil_of_length_pos (by omega)
  have hne' : out.dropLast ≠ [] :=
    List.ne_nil_of_length_pos (by rw [List.length_dropLast]; omega)
  unfold base64Trim
  simp only [hlast, List.dropLast_append_of_ne_nil hne, List.dropLast_append_of_ne_nil hne']
  split
  · rfl
  · split <;> rfl

theorem base64Blocks_length (src : List UInt8) (h : src ≠ []) :
    2 ≤ (base64Blocks ((base64Groups src).filterMap base64Value)).length ∧
      4 ≤ (base64Groups src).length := by
  refine ⟨?_, ?_⟩
  · match src, h with
    | [a], _ => simp [base64Groups, base64Value_char, base64Blocks]
    | [a, b], _ => simp [base64Groups, base64Value_char, base64Blocks]
    | a :: b :: c :: rest, _ => simp [base64Groups, base64Value_char, base64Blocks]
  · rw [length_base64Groups]
    have := List.length_pos_iff.mpr h
    omega

theorem base64_trimmed (src : List UInt8) :
    base64Trim (base64Groups src) (base64Blocks ((base64Groups src).filterMap base64Value)) =
      src := by
  fun_induction base64Groups src with
  | case1 => rfl
  | case2 a =>
    have hfirst := first_of_sextets a 0
    simp only [UInt8.zero_shiftRight, UInt8.or_zero] at hfirst
    simp [base64Value_char, base64Blocks, base64Trim, hfirst]
  | case3 a b =>
    have hsecond := second_of_sextets a b 0
    simp only [UInt8.zero_shiftRight, UInt8.or_zero] at hsecond
    simp [base64Value_char, base64Blocks, base64Trim, first_of_sextets, hsecond,
      base64Char_ne_pad]
  | case4 a b c rest ih =>
    have hblock : base64Blocks (([base64Char (a >>> 2), base64Char ((a &&& 0x03) <<< 4 ||| b >>> 4),
        base64Char ((b &&& 0x0f) <<< 2 ||| c >>> 6), base64Char (c &&& 0x3f)] ++
          base64Groups rest).filterMap base64Value) =
        [a, b, c] ++ base64Blocks ((base64Groups rest).filterMap base64Value) := by
      rw [List.filterMap_append]
      simp only [List.filterMap_cons, List.filterMap_nil, base64Value_char, List.cons_append,
        List.nil_append, base64Blocks, first_of_sextets, second_of_sextets, third_of_sextets]
    rw [hblock]
    by_cases hrest : rest = []
    · subst hrest
      simp [base64Groups, base64Blocks, base64Trim, base64Char_ne_pad]
    · obtain ⟨hout, hchars⟩ := base64Blocks_length rest hrest
      rw [base64Trim_append [a, b, c] hchars hout, ih]
      rfl

theorem base64Decode_eq (src : List UInt8) : base64Decode src =
    let chars := src.filter fun c => (base64Value c).isSome
    if chars.length % 4 ≠ 0 then none
    else some (base64Trim chars (base64Blocks (chars.filterMap base64Value))) := rfl

theorem base64Decode_encode (line_len : Nat) (src : List UInt8) :
    base64Decode (base64Encode line_len src) = some src := by
  rw [base64Decode_eq]
  simp only [filter_base64Encode, length_base64Groups, Nat.mul_mod_right, ne_eq, not_true_eq_false,
    if_false, base64_trimmed]

/-! ## The buffers -/

/-- A line has 72 characters and its end. -/
theorem length_base64Encode (line_len : Nat) (src : List UInt8) (hline : line_len % 4 = 0)
    (hlt : line_len < 72) : (base64Encode line_len src).length =
      4 * ((src.length + 2) / 3) + (line_len / 4 + src.length / 3) / 18 := by
  fun_induction base64Encode line_len src with
  | case1 => simp; omega
  | case2 line_len a => simp; omega
  | case3 line_len a b => simp; omega
  | case4 line_len a b c rest ih₀ ih =>
    split
    · rename_i hfull
      simp only [List.length_append, List.length_cons, List.length_nil, ih₀ rfl (by decide)]
      omega
    · rename_i hroom
      simp only [List.length_append, List.length_cons, List.length_nil,
        ih (by omega) (by omega)]
      omega

theorem length_base64Blocks_le (vals : List UInt8) : (base64Blocks vals).length ≤ vals.length := by
  fun_induction base64Blocks vals with
  | case1 a b c d rest ih =>
    simp only [List.length_append, List.length_cons, List.length_nil]
    omega
  | case2 => exact Nat.zero_le _

/-- Every text decodes to what was encoded; the encoder writes it and its terminator into what
it allocated, and the decoder writes at most as many bytes as it counted characters. -/
theorem base64_round_trip (src : List UInt8) :
    base64Decode (base64Encode 0 src) = some src ∧
      (base64Encode 0 src).length + 1 ≤ base64Olen src.length ∧
      ∀ text : List UInt8, (base64Blocks (text.filterMap base64Value)).length ≤
        (text.filter fun c => (base64Value c).isSome).length := by
  refine ⟨base64Decode_encode 0 src, ?_, fun text => ?_⟩
  · rw [length_base64Encode 0 src rfl (by decide), base64Olen]
    omega
  · refine (length_base64Blocks_le _).trans (le_of_eq ?_)
    rw [List.length_filterMap_eq_countP, List.countP_eq_length_filter]

theorem aeskey_text (key res : AesKey) : aeskeyFromBase64 (aeskeyToBase64 key) res = key := by
  rw [aeskeyFromBase64, aeskeyToBase64, base64Decode_encode]
  exact dif_pos key.length_eq

end Opticon
