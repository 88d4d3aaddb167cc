import Mathlib.Data.List.Basic

/-! Messages that come in pieces and are taken in blocks. -/

universe u v

namespace BlockStream

variable {α : Type u} {σ : Type v} {n : ℕ} {f : σ → List α → σ} {s : σ} {l r : List α}

/-- So many blocks of a message, one after another. -/
def takeBlocks (n : ℕ) (f : σ → List α → σ) : ℕ → σ → List α → σ
  | 0, s, _ => s
  | k + 1, s, l => takeBlocks n f k (f s (l.take n)) (l.drop n)

/-- The whole blocks of a message. -/
def whole (n : ℕ) (f : σ → List α → σ) (s : σ) (l : List α) : σ :=
  takeBlocks n f (l.length / n) s l

/-- What is left of a message after its whole blocks. -/
def rest (n : ℕ) (l : List α) : List α := l.drop (n * (l.length / n))

theorem takeBlocks_add (j k : ℕ) (s : σ) (l : List α) :
    takeBlocks n f (j + k) s l = takeBlocks n f k (takeBlocks n f j s l) (l.drop (n * j)) := by
  induction j generalizing s l with
  | zero => simp [takeBlocks]
  | succ j ih =>
    rw [Nat.add_right_comm, takeBlocks, takeBlocks, ih, List.drop_drop, Nat.mul_succ, Nat.add_comm n]

theorem takeBlocks_append {k : ℕ} (h : n * k ≤ l.length) (s : σ) (r : List α) :
    takeBlocks n f k s (l ++ r) = takeBlocks n f k s l := by
  induction k generalizing s l with
  | zero => rfl
  | succ k ih =>
    rw [Nat.mul_succ] at h
    rw [takeBlocks, takeBlocks, List.take_append_of_le_length (by omega),
      List.drop_append_of_le_length (by omega), ih (by rw [List.length_drop]; omega)]

theorem length_rest (n : ℕ) (l : List α) : (rest n l).length = l.length % n := by
  have := Nat.mod_add_div l.length n
  rw [rest, List.length_drop]
  omega

theorem length_div_append (hn : 0 < n) (l r : List α) :
    (l ++ r).length / n = l.length / n + (rest n l ++ r).length / n := by
  have h : (l ++ r).length = (rest n l ++ r).length + n * (l.length / n) := by
    rw [List.length_append, List.length_append, length_rest]
    have := Nat.mod_add_div l.length n
    omega
  rw [h, Nat.add_mul_div_left _ _ hn, Nat.add_comm]

theorem drop_whole (n : ℕ) (l r : List α) : (l ++ r).drop (n * (l.length / n)) = rest n l ++ r :=
  List.drop_append_of_le_length (Nat.mul_div_le l.length n)

/-- A message that goes on. -/
theorem whole_append (hn : 0 < n) (s : σ) (l r : List α) :
    whole n f s (l ++ r) = whole n f (whole n f s l) (rest n l ++ r) := by
  rw [whole, length_div_append hn, takeBlocks_add, drop_whole,
    takeBlocks_append (Nat.mul_div_le l.length n)]
  rfl

theorem rest_append (hn : 0 < n) (l r : List α) : rest n (l ++ r) = rest n (rest n l ++ r) := by
  rw [rest, length_div_append hn, Nat.mul_add, ← List.drop_drop, drop_whole]
  rfl

theorem whole_of_lt (h : l.length < n) : whole n f s l = s := by
  rw [whole, Nat.div_eq_of_lt h, takeBlocks]

theorem rest_of_lt (h : l.length < n) : rest n l = l := by
  rw [rest, Nat.div_eq_of_lt h, Nat.mul_zero, List.drop_zero]

theorem whole_block (hn : 0 < n) (h : l.length = n) : whole n f s (l ++ r) = whole n f (f s l) r := by
  have hlen : (l ++ r).length / n = r.length / n + 1 := by
    rw [List.length_append, h, Nat.add_comm, Nat.add_div_right _ hn]
  rw [whole, hlen, takeBlocks, ← h, List.take_left, List.drop_left, h]
  rfl

theorem rest_block (hn : 0 < n) (h : l.length = n) : rest n (l ++ r) = rest n r := by
  have hnone : rest n l = [] := by rw [rest, h, Nat.div_self hn, Nat.mul_one, ← h, List.drop_length]
  rw [rest_append hn, hnone, List.nil_append]

/-- A map of the states that the blocks agree with. -/
theorem map_whole {τ : Type*} {g : τ → List α → τ} {m : σ → τ}
    (h : ∀ s b, b.length = n → m (f s b) = g (m s) b) (s : σ) (l : List α) :
    m (whole n f s l) = whole n g (m s) l := by
  have hblocks : ∀ k s (l : List α), n * k ≤ l.length →
      m (takeBlocks n f k s l) = takeBlocks n g k (m s) l := by
    intro k
    induction k with
    | zero => exact fun _ _ _ => rfl
    | succ k ih =>
      intro s l hl
      rw [Nat.mul_succ] at hl
      rw [takeBlocks, takeBlocks, ih _ _ (by rw [List.length_drop]; omega),
        h _ _ (by rw [List.length_take]; omega)]
  exact hblocks _ s l (Nat.mul_div_le l.length n)

end BlockStream
