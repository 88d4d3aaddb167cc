import Opticon.Meter.Host

/-! The texts of uuids (`util.c`). -/

namespace Opticon

def hexDigit (c : UInt8) : Option Nat :=
  if 48 ≤ c ∧ c ≤ 57 then some (c.toNat - 48)
  else if 97 ≤ c ∧ c ≤ 102 then some (c.toNat - 97 + 10)
  else if 65 ≤ c ∧ c ≤ 70 then some (c.toNat - 65 + 10)
  else none

/-- Sixteen digits at most, the first one on top. -/
def hexWord (digits : List Nat) : BitVec 64 :=
  digits.zipIdx.foldl (fun res d => res ||| BitVec.ofNat 64 d.1 <<< (4 * (15 - d.2))) 0

/-- What is no digit is skipped. -/
def mkuuid (str : List UInt8) : Uuid :=
  let digits := str.filterMap hexDigit
  ⟨hexWord (digits.take 16), hexWord ((digits.drop 16).take 16)⟩

def uuidnil : Uuid := ⟨0, 0⟩

def hexByte (w : BitVec 64) (pos : Nat) : List UInt8 :=
  let b := (w >>> (56 - 8 * pos)).toNat % 256
  [b / 16, b % 16].map fun d => UInt8.ofNat (if d < 10 then 48 + d else 87 + d)

def uuid2str (u : Uuid) : List UInt8 :=
  let bytes (w : BitVec 64) (poss : List Nat) := poss.flatMap (hexByte w)
  bytes u.msb [0, 1, 2, 3] ++ [45] ++ bytes u.msb [4, 5] ++ [45] ++ bytes u.msb [6, 7] ++ [45] ++
    bytes u.lsb [0, 1] ++ [45] ++ bytes u.lsb [2, 3, 4, 5, 6, 7]

/-- The top digits of a word, with one more. -/
theorem hexDigits_step (w : BitVec 64) (s : Nat) :
    (w >>> (s + 4)) <<< (s + 4) ||| BitVec.ofNat 64 ((w >>> s).toNat % 16) <<< s =
      (w >>> s) <<< s := by
  apply BitVec.eq_of_getLsbD_eq
  intro i hi
  simp only [BitVec.getLsbD_or, BitVec.getLsbD_shiftLeft, BitVec.getLsbD_ushiftRight,
    BitVec.getLsbD_ofNat, show (16 : Nat) = 2 ^ 4 from rfl, Nat.testBit_mod_two_pow,
    BitVec.testBit_toNat]
  by_cases hlow : i < s
  · simp [hi, hlow, show i < s + 4 by omega]
  by_cases hdigit : i < s + 4
  · simp [hi, hlow, hdigit, show i - s < 4 by omega, show i - s < 64 by omega]
  · simp [hi, hlow, hdigit, show ¬ i - s < 4 by omega,
      show s + 4 + (i - (s + 4)) = s + (i - s) by omega]

def wordDigits (w : BitVec 64) : List Nat :=
  [60, 56, 52, 48, 44, 40, 36, 32, 28, 24, 20, 16, 12, 8, 4, 0].map fun s => (w >>> s).toNat % 16

theorem hexWord_wordDigits (w : BitVec 64) : hexWord (wordDigits w) = w := by
  have hnone : (0 : BitVec 64) = (w >>> 64) <<< 64 := by simp
  unfold hexWord wordDigits
  simp only [List.map_cons, List.map_nil, List.zipIdx_cons, List.zipIdx_nil, List.foldl_cons,
    List.foldl_nil]
  rw [hnone, hexDigits_step w 60, hexDigits_step w 56, hexDigits_step w 52, hexDigits_step w 48,
    hexDigits_step w 44, hexDigits_step w 40, hexDigits_step w 36, hexDigits_step w 32,
    hexDigits_step w 28, hexDigits_step w 24, hexDigits_step w 20, hexDigits_step w 16,
    hexDigits_step w 12, hexDigits_step w 8, hexDigits_step w 4, hexDigits_step w 0]
  simp

theorem hexDigit_digit : ∀ d < 16,
    hexDigit (UInt8.ofNat (if d < 10 then 48 + d else 87 + d)) = some d := by
  decide

theorem filterMap_hexByte (w : BitVec 64) {pos : Nat} (hpos : pos < 8) :
    (hexByte w pos).filterMap hexDigit =
      [(w >>> (60 - 8 * pos)).toNat % 16, (w >>> (56 - 8 * pos)).toNat % 16] := by
  have hhigh : (w >>> (56 - 8 * pos)).toNat % 256 / 16 = (w >>> (60 - 8 * pos)).toNat % 16 := by
    simp only [BitVec.toNat_ushiftRight, Nat.shiftRight_eq_div_pow]
    rw [show 60 - 8 * pos = 56 - 8 * pos + 4 by omega, Nat.pow_add, ← Nat.div_div_eq_div_mul]
    omega
  have hlow : (w >>> (56 - 8 * pos)).toNat % 256 % 16 = (w >>> (56 - 8 * pos)).toNat % 16 := by
    omega
  simp only [hexByte, List.map_cons, List.map_nil, hhigh, hlow]
  simp only [List.filterMap_cons, List.filterMap_nil, hexDigit_digit _ (Nat.mod_lt _ (by decide))]

theorem filterMap_uuid2str (u : Uuid) :
    (uuid2str u).filterMap hexDigit = wordDigits u.msb ++ wordDigits u.lsb := by
  have hdash : [(45 : UInt8)].filterMap hexDigit = [] := by decide
  simp only [uuid2str, List.filterMap_append, hdash, List.flatMap_cons, List.flatMap_nil]
  simp [filterMap_hexByte, wordDigits]

theorem mkuuid_uuid2str (u : Uuid) : mkuuid (uuid2str u) = u := by
  have hlen (w : BitVec 64) : (wordDigits w).length = 16 := rfl
  have htake : (wordDigits u.msb ++ wordDigits u.lsb).take 16 = wordDigits u.msb :=
    List.take_left' (hlen _)
  have hdrop : (wordDigits u.msb ++ wordDigits u.lsb).drop 16 = wordDigits u.lsb :=
    List.drop_left' (hlen _)
  rw [mkuuid, filterMap_uuid2str]
  simp only [htake, hdrop]
  rw [List.take_of_length_le (hlen _).le, hexWord_wordDigits, hexWord_wordDigits]

theorem length_uuid2str (u : Uuid) : (uuid2str u).length = 36 := rfl

theorem nul_uuid2str (u : Uuid) : 0 ∉ uuid2str u := by
  have hdigit : ∀ d < 16, UInt8.ofNat (if d < 10 then 48 + d else 87 + d) ≠ 0 := by decide
  have hbyte (w : BitVec 64) (pos : Nat) : 0 ∉ hexByte w pos := by
    simp only [hexByte, List.map_cons, List.map_nil, List.mem_cons, List.not_mem_nil, or_false,
      not_or]
    exact ⟨(hdigit _ (by omega)).symm, (hdigit _ (by omega)).symm⟩
  simp [uuid2str, hbyte]

theorem uuid2str_injective : Function.Injective uuid2str :=
  Function.LeftInverse.injective mkuuid_uuid2str

end Opticon
