import Mathlib.Algebra.Group.Fin.Basic
import Mathlib.Algebra.Ring.Nat
import Mathlib.Data.List.OfFn
import Mathlib.Data.List.DropRight
import Mathlib.Data.List.FinRange

/-! A ring of places, each write into the next one of them. -/

universe u

structure Ring.Buffer (α : Type u) (n : ℕ) where
  pos : Fin n
  data : Fin n → α

namespace Ring.Buffer

variable {α : Type u} {n : ℕ} [NeZero n] {r : Buffer α n}

def push (r : Buffer α n) (a : α) : Buffer α n := ⟨r.pos + 1, Function.update r.data r.pos a⟩

/-- What is in the ring, from the oldest value to the one that was written last. -/
def contents (r : Buffer α n) : List α := List.ofFn fun i => r.data (r.pos + i)

omit [NeZero n] in
@[simp] theorem length_contents : r.contents.length = n := List.length_ofFn

omit [NeZero n] in
theorem getElem_contents {i : ℕ} (hi : i < r.contents.length) :
    r.contents[i] = r.data (r.pos + ⟨i, length_contents (r := r) ▸ hi⟩) := List.getElem_ofFn _

theorem pos_wraps {i : Fin n} : r.pos + 1 + i = r.pos ↔ i.val + 1 = n := by
  have hn := Nat.pos_of_neZero n
  have hi := i.isLt
  have hzero : r.pos + 1 + i = r.pos ↔ 1 + i = 0 := by
    rw [add_assoc]
    exact add_eq_left
  have hval : (1 + i : Fin n).val = (1 + i.val) % n := by
    rw [Fin.val_add, Fin.val_one', Nat.mod_add_mod]
  rw [hzero, Fin.ext_iff, hval, Fin.val_zero]
  constructor
  · intro h
    have hle := Nat.le_of_dvd (by omega) (Nat.dvd_of_mod_eq_zero h)
    omega
  · intro h
    rw [Nat.add_comm, h, Nat.mod_self]

theorem contents_push (a : α) : (r.push a).contents = r.contents.tail ++ [a] := by
  have hn := Nat.pos_of_neZero n
  have hlen : (r.contents.tail ++ [a]).length = n := by
    rw [List.length_append, List.length_tail, length_contents, List.length_singleton]
    omega
  apply List.ext_getElem
  · rw [length_contents, hlen]
  · intro i hi _
    rw [length_contents] at hi
    rw [getElem_contents]
    change Function.update r.data r.pos a (r.pos + 1 + ⟨i, hi⟩) = _
    by_cases hlast : i + 1 = n
    · have hpos : r.pos + 1 + ⟨i, hi⟩ = r.pos := pos_wraps.mpr hlast
      rw [hpos, Function.update_self, List.getElem_append_right]
      · simp
      · rw [List.length_tail, length_contents]
        omega
    · have hpos : r.pos + 1 + ⟨i, hi⟩ ≠ r.pos := mt pos_wraps.mp hlast
      have hsucc : (1 : Fin n) + ⟨i, hi⟩ = ⟨i + 1, by omega⟩ := by
        rw [Fin.ext_iff, Fin.val_add, Fin.val_one', Nat.mod_add_mod]
        exact (Nat.mod_eq_of_lt (by change 1 + i < n; omega)).trans (Nat.add_comm 1 i)
      rw [Function.update_of_ne hpos, List.getElem_append_left, List.getElem_tail, getElem_contents,
        add_assoc, hsucc]
      rw [List.length_tail, length_contents]
      omega

/-- After some writes there are the last of all the values in the ring. -/
theorem contents_pushAll (as : List α) : (as.foldl push r).contents = (r.contents ++ as).rtake n := by
  induction as using List.reverseRecOn with
  | nil =>
    rw [List.foldl_nil, List.append_nil, List.rtake, length_contents, Nat.sub_self, List.drop_zero]
  | append_singleton as a ih =>
    have hlen : (r.contents ++ as).length = n + as.length := by
      rw [List.length_append, length_contents]
    have hall : (r.contents ++ (as ++ [a])).length = n + as.length + 1 := by
      rw [← List.append_assoc, List.length_append, hlen, List.length_singleton]
    have hn := Nat.pos_of_neZero n
    have hle : n + as.length + 1 - n ≤ (r.contents ++ as).length := by
      rw [hlen]
      omega
    rw [List.foldl_append, List.foldl_cons, List.foldl_nil, contents_push, ih, List.rtake, List.rtake,
      List.tail_drop, hlen, hall, ← List.append_assoc, List.drop_append_of_le_length hle]
    congr 2
    omega

/-- The places are those of the contents in another order. -/
theorem contents_perm : (List.ofFn r.data).Perm r.contents := by
  have hdata : List.ofFn r.data = (List.finRange n).map r.data := List.ofFn_eq_map
  have hcontents : r.contents = ((List.finRange n).map fun i => r.pos + i).map r.data := by
    rw [contents, List.ofFn_eq_map, List.map_map]
    rfl
  rw [hdata, hcontents]
  refine List.Perm.map r.data ?_
  have hinj : Function.Injective fun i => r.pos + i := fun i j h => add_left_cancel h
  refine (List.perm_ext_iff_of_nodup (List.nodup_finRange n)
    ((List.nodup_finRange n).map hinj)).mpr fun i => ?_
  refine iff_of_true (List.mem_finRange i) (List.mem_map.mpr ⟨i - r.pos, List.mem_finRange _, ?_⟩)
  exact add_sub_cancel r.pos i

end Ring.Buffer
