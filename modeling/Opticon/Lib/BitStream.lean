import Mathlib.Algebra.Ring.Nat
import Mathlib.Data.List.Basic
import Mathlib.Data.List.Infix

/-! Bits in the order in which they stand in a byte, the most significant one first. -/

namespace BitStream

/-- The `n` low bits of a word, the highest of them first. -/
def low (n : Nat) (x : BitVec w) : List Bool := List.ofFn fun i : Fin n => x.getLsbD (n - 1 - i)

def bytes (bs : List UInt8) : List Bool := bs.flatMap fun b => low 8 b.toBitVec

@[simp] theorem length_low (n : Nat) (x : BitVec w) : (low n x).length = n := by
  simp [low]

theorem getElem_low {n : Nat} {x : BitVec w} {i : Nat} (h : i < (low n x).length) :
    (low n x)[i] = x.getLsbD (n - 1 - i) := by
  simp [low]

@[simp] theorem low_zero (x : BitVec w) : low 0 x = [] := rfl

theorem low_append (a b : Nat) (x : BitVec w) : low (a + b) x = low a (x >>> b) ++ low b x := by
  apply List.ext_getElem
  · simp
  intro i h₁ h₂
  rw [length_low] at h₁
  rw [getElem_low, List.getElem_append]
  split
  · rename_i hi
    rw [length_low] at hi
    rw [getElem_low, BitVec.getLsbD_ushiftRight]
    congr 1
    omega
  · rename_i hi
    rw [length_low] at hi
    rw [getElem_low, length_low]
    congr 1
    omega

theorem low_mod {n : Nat} {x y : BitVec w} (h : low n x = low n y) :
    x.toNat % 2 ^ n = y.toNat % 2 ^ n := by
  apply Nat.eq_of_testBit_eq
  intro i
  rw [Nat.testBit_mod_two_pow, Nat.testBit_mod_two_pow]
  by_cases hn : i < n
  · have hxi : n - 1 - i < (low n x).length := by rw [length_low]; omega
    have hyi : n - 1 - i < (low n y).length := by rw [length_low]; omega
    have hget : (low n x)[n - 1 - i] = (low n y)[n - 1 - i] := by simp only [h]
    rw [getElem_low, getElem_low] at hget
    have hidx : n - 1 - (n - 1 - i) = i := by omega
    rw [hidx] at hget
    exact congrArg _ hget
  · simp [hn]

theorem low_inj {n : Nat} {x y : BitVec w} (h : low n x = low n y) (hx : x.toNat < 2 ^ n)
    (hy : y.toNat < 2 ^ n) : x = y := by
  have hmod := low_mod h
  rw [Nat.mod_eq_of_lt hx, Nat.mod_eq_of_lt hy] at hmod
  exact BitVec.eq_of_toNat_eq hmod

@[simp] theorem bytes_nil : bytes [] = [] := rfl

@[simp] theorem bytes_cons (b : UInt8) (bs : List UInt8) :
    bytes (b :: bs) = low 8 b.toBitVec ++ bytes bs := rfl

@[simp] theorem bytes_append (as bs : List UInt8) : bytes (as ++ bs) = bytes as ++ bytes bs := by
  simp [bytes]

@[simp] theorem length_bytes (bs : List UInt8) : (bytes bs).length = 8 * bs.length := by
  induction bs with
  | nil => rfl
  | cons b bs ih => simp [ih]; omega

/-- Bytes that start with the bits of others start with these bytes. -/
theorem exists_bytes_append {as cs : List UInt8} {bits : List Bool} (h : bytes cs = bytes as ++ bits) :
    ∃ bs, cs = as ++ bs ∧ bytes bs = bits := by
  induction as generalizing cs with
  | nil => exact ⟨cs, rfl, h⟩
  | cons a as ih =>
    cases cs with
    | nil =>
      have hl := congrArg List.length h
      simp only [length_bytes, List.length_append, List.length_cons, List.length_nil] at hl
      omega
    | cons c cs =>
      rw [bytes_cons, bytes_cons, List.append_assoc] at h
      obtain ⟨hc, hcs⟩ := List.append_inj h (by rw [length_low, length_low])
      obtain ⟨bs, rfl, hbs⟩ := ih hcs
      have hca : c.toBitVec = a.toBitVec := low_inj hc c.toBitVec.isLt a.toBitVec.isLt
      exact ⟨bs, by rw [UInt8.toBitVec_inj.mp hca, List.cons_append], hbs⟩

theorem bytes_inj {as bs : List UInt8} (h : bytes as = bytes bs) : as = bs := by
  obtain ⟨rest, rfl, hrest⟩ := exists_bytes_append (h.trans (List.append_nil _).symm)
  have hl := congrArg List.length hrest
  rw [length_bytes, List.length_nil] at hl
  have hnil : rest = [] := List.length_eq_zero_iff.mp (by omega)
  rw [hnil, List.append_nil]

end BitStream
