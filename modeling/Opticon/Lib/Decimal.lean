import Mathlib.Data.Nat.Digits.Lemmas
import Mathlib.Data.Rat.Floor

/-! Decimal texts of naturals and of rationals with a fixed number of decimals, in bytes. -/

/-- The bytes of an ASCII string. -/
def asc (s : String) : List UInt8 := s.toList.map fun c => UInt8.ofNat c.toNat

namespace Decimal

def digit (d : Nat) : UInt8 := UInt8.ofNat (48 + d)

def write (n : Nat) : List UInt8 :=
  if n = 0 then [48] else (Nat.digits 10 n).reverse.map digit

def pad (k : Nat) (cs : List UInt8) : List UInt8 := List.replicate (k - cs.length) 48 ++ cs

/-- The nearest integer, the even one of two. -/
def roundEven (q : ℚ) : ℤ :=
  let f := ⌊q⌋
  let r := q - f
  if r < 1 / 2 then f else if 1 / 2 < r then f + 1 else if f % 2 = 0 then f else f + 1

/-- A nonnegative rational with `k` decimals. -/
def writeFixed (k : Nat) (q : ℚ) : List UInt8 :=
  let n := (roundEven (q * 10 ^ k)).toNat
  write (n / 10 ^ k) ++ [46] ++ pad k (write (n % 10 ^ k))

/-- The number a row of digits spells. -/
def read (cs : List UInt8) : Nat := cs.foldl (fun n c => 10 * n + (c.toNat - 48)) 0

theorem toNat_digit {d : Nat} (h : d < 10) : (digit d).toNat = 48 + d := by
  rw [digit, UInt8.toNat_ofNat']
  omega

theorem read_append (as bs : List UInt8) :
    read (as ++ bs) = bs.foldl (fun n c => 10 * n + (c.toNat - 48)) (read as) := by
  simp [read]

theorem read_reverse_digits {ds : List Nat} (h : ∀ d ∈ ds, d < 10) :
    read (ds.reverse.map digit) = Nat.ofDigits 10 ds := by
  induction ds with
  | nil => rfl
  | cons d ds ih =>
    have hd : d < 10 := h d List.mem_cons_self
    have ih := ih fun d hd => h d (List.mem_cons_of_mem _ hd)
    rw [List.reverse_cons, List.map_append, read_append, ih, Nat.ofDigits_cons]
    simp only [List.map_cons, List.map_nil, List.foldl_cons, List.foldl_nil, toNat_digit hd]
    omega

theorem read_write (n : Nat) : read (write n) = n := by
  unfold write
  split
  · rename_i h
    rw [h]
    rfl
  · rw [read_reverse_digits fun d hd => Nat.digits_lt_base (by decide) hd, Nat.ofDigits_digits]

theorem read_pad (k : Nat) (cs : List UInt8) : read (pad k cs) = read cs := by
  have hz (n : Nat) : read (List.replicate n 48) = 0 := by
    induction n with
    | zero => rfl
    | succ n ih => rw [List.replicate_succ', read_append, ih]; rfl
  rw [pad, read_append, hz]
  rfl

theorem length_write_le {n k : Nat} (hk : 0 < k) (h : n < 10 ^ k) : (write n).length ≤ k := by
  unfold write
  split
  · exact hk
  · rw [List.length_map, List.length_reverse]
    exact (Nat.digits_length_le_iff (by decide) n).mpr h

theorem length_write {n k : Nat} (hlow : 10 ^ k ≤ n) (h : n < 10 ^ (k + 1)) :
    (write n).length = k + 1 := by
  refine Nat.le_antisymm (length_write_le (Nat.succ_pos k) h) ?_
  have hpos : n ≠ 0 := (Nat.lt_of_lt_of_le (Nat.pow_pos (by decide)) hlow).ne'
  rw [write, if_neg hpos, List.length_map, List.length_reverse]
  exact (Nat.lt_digits_length_iff (by decide) n).mpr hlow

theorem length_pad {k : Nat} {cs : List UInt8} (h : cs.length ≤ k) : (pad k cs).length = k := by
  simp only [pad, List.length_append, List.length_replicate]
  omega

theorem mem_write {n : Nat} {c : UInt8} (h : c ∈ write n) : c ∈ asc "0123456789" := by
  have hdigit : ∀ d < 10, digit d ∈ asc "0123456789" := by decide
  unfold write at h
  split at h
  · rw [List.mem_singleton] at h
    subst h
    decide
  · obtain ⟨d, hd, rfl⟩ := List.mem_map.mp h
    exact hdigit d (Nat.digits_lt_base (by decide) (List.mem_reverse.mp hd))

theorem mem_pad {k : Nat} {cs : List UInt8} (hcs : ∀ c ∈ cs, c ∈ asc "0123456789") {c : UInt8}
    (h : c ∈ pad k cs) : c ∈ asc "0123456789" := by
  obtain h | h := List.mem_append.mp h
  · rw [(List.mem_replicate.mp h).2]
    decide
  · exact hcs c h

theorem write_ne_nil (n : Nat) : write n ≠ [] := by
  unfold write
  split
  · simp
  · rename_i h
    simp [Nat.digits_ne_nil_iff_ne_zero.mpr h]

theorem roundEven_intCast (z : ℤ) : roundEven (z : ℚ) = z := by
  simp [roundEven]

end Decimal
