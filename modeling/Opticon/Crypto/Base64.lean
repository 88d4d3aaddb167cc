import Opticon.Crypto.Aes
import Opticon.Lib.Decimal

/-! Keys as text (`base64.c`). -/

namespace Opticon

def base64Table : List UInt8 :=
  asc "ABCDEFGHIJKLMNOPQRSTUVWXYZabcdefghijklmnopqrstuvwxyz0123456789+/"

/-- The character for six bits. -/
def base64Char (six : UInt8) : UInt8 := base64Table.getD (six.toNat % 64) 65

/-- The rest of a text, of whose line some characters are written. -/
def base64Encode (line_len : Nat) : List UInt8 → List UInt8
  | [] => []
  | [a] => [base64Char (a >>> 2), base64Char ((a &&& 0x03) <<< 4), 61, 61]
  | [a, b] =>
    [base64Char (a >>> 2), base64Char ((a &&& 0x03) <<< 4 ||| b >>> 4),
      base64Char ((b &&& 0x0f) <<< 2), 61]
  | a :: b :: c :: rest =>
    [base64Char (a >>> 2), base64Char ((a &&& 0x03) <<< 4 ||| b >>> 4),
      base64Char ((b &&& 0x0f) <<< 2 ||| c >>> 6), base64Char (c &&& 0x3f)] ++
      if 72 ≤ line_len + 4 then 10 :: base64Encode 0 rest else base64Encode (line_len + 4) rest

/-- The entry of the decoding table, which is missing for the characters that are skipped. -/
def base64Value (c : UInt8) : Option UInt8 :=
  if c = 61 then some 0 else (base64Table.findIdx? (· = c)).map UInt8.ofNat

def base64Blocks : List UInt8 → List UInt8
  | a :: b :: c :: d :: rest =>
    [a <<< 2 ||| b >>> 4, b <<< 4 ||| c >>> 2, c <<< 6 ||| d] ++ base64Blocks rest
  | _ => []

def base64Decode (src : List UInt8) : Option (List UInt8) :=
  let chars := src.filter fun c => (base64Value c).isSome
  if chars.length % 4 ≠ 0 then none
  else
    let out := base64Blocks (chars.filterMap base64Value)
    let last := chars.drop (chars.length - 4)
    some (if last.getD 2 0 = 61 then out.dropLast.dropLast
      else if last.getD 3 0 = 61 then out.dropLast else out)

/-- What does not decode to a key leaves the memory of the result as it was. -/
def aeskeyFromBase64 (b64 : List UInt8) (res : AesKey) : AesKey :=
  match base64Decode b64 with
  | none => res
  | some buf => if h : buf.length = 32 then ⟨buf, h⟩ else res

def aeskeyToBase64 (key : AesKey) : List UInt8 := base64Encode 0 key.data

theorem base64Char_ne_zero (six : UInt8) : base64Char six ≠ 0 := by
  have h : ∀ i < 64, base64Table.getD i 65 ≠ 0 := by decide +kernel
  exact h _ (Nat.mod_lt _ (by decide))

theorem base64Encode_spec (line_len : Nat) (src : List UInt8) :
    0 ∉ base64Encode line_len src ∧ (base64Encode line_len src).length ≤ 2 * src.length + 4 := by
  fun_induction base64Encode line_len src with
  | case1 => simp
  | case2 => simp [(base64Char_ne_zero _).symm]
  | case3 => simp [(base64Char_ne_zero _).symm]
  | case4 line_len a b c rest ih₀ ih =>
    split
    · refine ⟨by simp [(base64Char_ne_zero _).symm, ih₀.1], ?_⟩
      simp only [List.length_append, List.length_cons, List.length_nil]
      omega
    · refine ⟨by simp [(base64Char_ne_zero _).symm, ih.1], ?_⟩
      simp only [List.length_append, List.length_cons, List.length_nil]
      omega

theorem aeskeyToBase64_spec (key : AesKey) :
    0 ∉ aeskeyToBase64 key ∧ (aeskeyToBase64 key).length ≤ 68 := by
  have h := base64Encode_spec 0 key.data
  rwa [key.length_eq] at h

example : base64Decode (aeskeyToBase64 ⟨List.replicate 32 7, rfl⟩) = some (List.replicate 32 7) := by
  decide

end Opticon
