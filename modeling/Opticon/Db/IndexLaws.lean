import Mathlib.Data.List.Basic
import Opticon.Db.Index

/-! What the index of a day gives for a time. -/

namespace Opticon

/-- The words of an index with the given times and offsets. -/
def indexWords (es : List (Nat × Nat)) : List Nat := es.flatMap fun e => [e.1, e.2]

/-- Entries as they are appended while time goes on. -/
def Ascending (es : List (Nat × Nat)) : Prop := es.Pairwise fun e e' => e.1 < e'.1

/-- The last entry that is not later than `ts`. -/
structure Latest (es : List (Nat × Nat)) (ts : Nat) (e : Nat × Nat) : Prop where
  mem : e ∈ es
  le : e.1 ≤ ts
  max : ∀ e' ∈ es, e'.1 ≤ ts → e'.1 ≤ e.1

variable {es : List (Nat × Nat)} {ts : Nat}

@[simp] theorem length_indexWords (es : List (Nat × Nat)) :
    (indexWords es).length = 2 * es.length := by
  induction es with
  | nil => rfl
  | cons e es ih =>
    change (e.1 :: e.2 :: indexWords es).length = _
    simp only [List.length_cons, ih]
    omega

theorem indexWords_cons (e : Nat × Nat) (es : List (Nat × Nat)) :
    indexWords (e :: es) = e.1 :: e.2 :: indexWords es :=
  rfl

theorem localdbRead64_time {i : Nat} (h : i < es.length) :
    localdbRead64 (indexWords es) (2 * i) = es[i].1 := by
  induction es generalizing i with
  | nil => simp at h
  | cons e es ih =>
    cases i with
    | zero => rfl
    | succ i => exact ih (Nat.lt_of_succ_lt_succ h)

theorem localdbRead64_offset {i : Nat} (h : i < es.length) :
    localdbRead64 (indexWords es) (2 * i + 1) = es[i].2 := by
  induction es generalizing i with
  | nil => simp at h
  | cons e es ih =>
    cases i with
    | zero => rfl
    | succ i => exact ih (Nat.lt_of_succ_lt_succ h)

theorem drop_indexWords {i : Nat} (h : i < es.length) :
    (indexWords es).drop (2 * i + 1) = es[i].2 :: indexWords (es.drop (i + 1)) := by
  induction es generalizing i with
  | nil => simp at h
  | cons e es ih =>
    cases i with
    | zero => rfl
    | succ i => exact ih (Nat.lt_of_succ_lt_succ h)

theorem Ascending.lt (hs : Ascending es) {i j : Nat} (hj : j < es.length) (hij : i < j) :
    es[i].1 < es[j].1 :=
  List.pairwise_iff_getElem.mp hs i j (by omega) hj hij

theorem Ascending.le (hs : Ascending es) {i j : Nat} (hj : j < es.length) (hij : i ≤ j) :
    es[i].1 ≤ es[j].1 := by
  obtain rfl | hlt := Nat.eq_or_lt_of_le hij
  · exact Nat.le_refl _
  · exact Nat.le_of_lt (hs.lt hj hlt)

/-- The times are whole seconds, so there are no more entries than seconds. -/
theorem Ascending.add_le (hs : Ascending es) {i : Nat} (hi : i < es.length) :
    es[0].1 + i ≤ es[i].1 := by
  induction i with
  | zero => simp
  | succ i ih =>
    have hlt := hs.lt hi (Nat.lt_add_one i)
    have ih := ih (by omega)
    omega

theorem latest_of_getElem (hs : Ascending es) {i : Nat} (hi : i < es.length) (hle : es[i].1 ≤ ts)
    (hnext : ∀ h : i + 1 < es.length, ts < es[i + 1].1) : Latest es ts es[i] := by
  refine ⟨List.getElem_mem hi, hle, ?_⟩
  intro e he hets
  obtain ⟨j, hj, rfl⟩ := List.getElem_of_mem he
  apply hs.le hi
  by_contra hji
  have hlt := hnext (by omega)
  have := hs.le hj (show i + 1 ≤ j by omega)
  omega

theorem Latest.unique (hs : Ascending es) {e e' : Nat × Nat} (h : Latest es ts e)
    (h' : Latest es ts e') : e = e' := by
  obtain ⟨i, hi, rfl⟩ := List.getElem_of_mem h.mem
  obtain ⟨j, hj, rfl⟩ := List.getElem_of_mem h'.mem
  have h₁ := h.max _ h'.mem h'.le
  have h₂ := h'.max _ h.mem h.le
  obtain hij | rfl | hij := Nat.lt_trichotomy i j
  · have := hs.lt hj hij
    omega
  · rfl
  · have := hs.lt hi hij
    omega

theorem scanForward_past {tsatpos m : Nat} (h : ts < tsatpos) (rest : List Nat) :
    scanForward ts tsatpos (some m) rest = .ok (some m) := by
  have hle : ¬ tsatpos ≤ ts := Nat.not_le.mpr h
  have hne : tsatpos ≠ ts := by omega
  unfold scanForward
  split
  · rw [if_neg hle]
    rfl
  · rw [if_neg hne]
    rfl

/-- The scan from an entry that is not later than `ts` on, up to the first later one or
to the end, where the last entry has just this time. -/
theorem scanForward_spec (hs : Ascending es) {i : Nat} (hi : i < es.length) (hle : es[i].1 ≤ ts)
    (hlast : ts ≤ es[es.length - 1].1) (lastmatch : Option Nat) :
    ∃ e, Latest es ts e ∧
      scanForward ts es[i].1 lastmatch ((indexWords es).drop (2 * i + 1)) = .ok (some e.2) := by
  obtain ⟨k, hk⟩ : ∃ k, es.length = i + k + 1 := ⟨es.length - i - 1, by omega⟩
  induction k generalizing i lastmatch with
  | zero =>
    have hi' : es.length - 1 = i := by omega
    simp only [hi'] at hlast
    have heq : es[i].1 = ts := Nat.le_antisymm hle hlast
    refine ⟨es[i], latest_of_getElem hs hi hle (fun h => by omega), ?_⟩
    rw [drop_indexWords hi, List.drop_of_length_le (by omega)]
    simp [scanForward, indexWords, heq]
  | succ k ih =>
    have hi' : i + 1 < es.length := by omega
    have hlt := hs.lt hi' (Nat.lt_add_one i)
    have hne : es[i + 1].1 ≠ 0 := by omega
    rw [drop_indexWords hi, List.drop_eq_getElem_cons hi', indexWords_cons]
    simp only [scanForward, if_pos hle, if_pos hne]
    by_cases hnext : es[i + 1].1 ≤ ts
    · obtain ⟨e, he, hscan⟩ := ih hi' hnext hlast (some es[i].2) (by omega)
      rw [drop_indexWords hi'] at hscan
      exact ⟨e, he, hscan⟩
    · refine ⟨es[i], latest_of_getElem hs hi hle (fun _ => by omega), ?_⟩
      exact scanForward_past (by omega) _

theorem scanBack_spec (hs : Ascending es) {i : Nat} (hi : i < es.length) (hlt : ts < es[i].1)
    (hfirst : es[0].1 ≤ ts) :
    ∃ e, Latest es ts e ∧ scanBack (indexWords es) ts i = e.2 := by
  induction i with
  | zero => omega
  | succ i ih =>
    have hi' : i < es.length := by omega
    simp only [scanBack, localdbRead64_time hi', localdbRead64_offset hi']
    split
    · exact ih hi' ‹_› hfirst
    · exact ⟨es[i], latest_of_getElem hs hi' (by omega) (fun _ => hlt), rfl⟩

theorem sub64_eq {a b : Nat} (h : b ≤ a) (hlt : a - b < 2 ^ 64) : sub64 a b = a - b := by
  have hsum : a + 2 ^ 64 - b = a - b + 2 ^ 64 := by omega
  rw [sub64, hsum, Nat.add_mod_right, Nat.mod_eq_of_lt hlt]

section Find

variable (hs : Ascending es) (hlen : 2 ≤ es.length)

include hlen in
theorem localdbFindIndex_none (h : ts < es[0].1 ∨ es[es.length - 1].1 + 90 < ts) :
    localdbFindIndex (indexWords es) ts = .ok none := by
  have hfirst : localdbRead64 (indexWords es) 0 = es[0].1 :=
    localdbRead64_time (i := 0) (by omega)
  have hlast : localdbRead64 (indexWords es) (2 * es.length - 2) = es[es.length - 1].1 := by
    rw [show 2 * es.length - 2 = 2 * (es.length - 1) by omega]
    exact localdbRead64_time (by omega)
  have h2 : ¬ 2 * es.length < 2 := by omega
  have hcount : ¬ (2 * es.length - 2) / 2 + 1 < 2 := by omega
  simp only [localdbFindIndex, length_indexWords, if_neg h2, if_neg hcount, hfirst, hlast]
  split
  · rfl
  · rename_i hge
    rw [if_pos (by omega)]

include hs hlen in
theorem localdbFindIndex_some (ts : Nat) (hspan : es[es.length - 1].1 - es[0].1 < 2 ^ 64)
    (hfirst : es[0].1 ≤ ts) (hlast : ts ≤ es[es.length - 1].1 + 90) :
    ∃ e, Latest es ts e ∧ localdbFindIndex (indexWords es) ts = .ok (some e.2) := by
  have hread0 : localdbRead64 (indexWords es) 0 = es[0].1 :=
    localdbRead64_time (i := 0) (by omega)
  have hreadl : localdbRead64 (indexWords es) (2 * es.length - 2) = es[es.length - 1].1 := by
    rw [show 2 * es.length - 2 = 2 * (es.length - 1) by omega]
    exact localdbRead64_time (by omega)
  have h2 : ¬ 2 * es.length < 2 := by omega
  have hcount : (2 * es.length - 2) / 2 + 1 = es.length := by omega
  have hcount' : ¬ es.length < 2 := by omega
  have hrange : es[0].1 < es[es.length - 1].1 := hs.lt (by omega) (by omega)
  have hlong := hs.add_le (show es.length - 1 < es.length by omega)
  -- a time behind the last entry is moved back to it, which changes nothing
  obtain ⟨ts', hts', hle', hfirst', hlast'⟩ : ∃ ts',
      (if es[es.length - 1].1 < ts then es[es.length - 1].1 else ts) = ts' ∧ ts' ≤ ts ∧
        es[0].1 ≤ ts' ∧ ts' ≤ es[es.length - 1].1 := by
    refine ⟨_, rfl, ?_⟩
    split <;> omega
  have hlatest {e : Nat × Nat} (he : Latest es ts' e) : Latest es ts e := by
    refine ⟨he.mem, he.le.trans hle', ?_⟩
    intro e' he' hets
    obtain ⟨j, hj, rfl⟩ := List.getElem_of_mem he'
    have := hs.le (show es.length - 1 < es.length by omega) (show j ≤ es.length - 1 by omega)
    apply he.max _ he'
    rw [← hts']
    split <;> omega
  have hsubr : sub64 es[es.length - 1].1 es[0].1 = es[es.length - 1].1 - es[0].1 :=
    sub64_eq (by omega) (by omega)
  have hsubd : sub64 ts' es[0].1 = ts' - es[0].1 := sub64_eq hfirst' (by omega)
  -- where the product has no room the scan only starts farther in front
  have hpos : es.length * (ts' - es[0].1) % 2 ^ 64 / (es[es.length - 1].1 - es[0].1) ≤ es.length := by
    apply Nat.div_le_of_le_mul
    calc es.length * (ts' - es[0].1) % 2 ^ 64 ≤ es.length * (ts' - es[0].1) := Nat.mod_le _ _
      _ ≤ es.length * (es[es.length - 1].1 - es[0].1) := Nat.mul_le_mul_left _ (by omega)
      _ = (es[es.length - 1].1 - es[0].1) * es.length := Nat.mul_comm _ _
  simp only [localdbFindIndex, length_indexWords, if_neg h2, hcount, if_neg hcount', hread0, hreadl,
    if_neg (Nat.not_lt.mpr hfirst), hts', hsubr, hsubd]
  rw [if_neg (by omega), if_neg (by omega)]
  generalize es.length * (ts' - es[0].1) % 2 ^ 64 / (es[es.length - 1].1 - es[0].1) = q at hpos
  obtain ⟨pos, hq, hposlt⟩ : ∃ pos, (if q ≠ 0 then q - 1 else q) = pos ∧ pos < es.length := by
    refine ⟨_, rfl, ?_⟩
    split <;> omega
  rw [hq, localdbRead64_time hposlt]
  split
  · obtain ⟨e, he, hscan⟩ := scanForward_spec hs hposlt ‹_› hlast' none
    exact ⟨e, hlatest he, hscan⟩
  · obtain ⟨e, he, hscan⟩ := scanBack_spec hs hposlt (Nat.not_le.mp ‹_›) hfirst'
    exact ⟨e, hlatest he, by rw [hscan]⟩

include hs hlen in
/-- An index of a file of words: the time of a search, which the comparisons take as a word without a
sign, is either not covered, or the last entry that is not later is found. -/
theorem localdbFindIndex_right (hword : ∀ e ∈ es, e.1 < 2 ^ 64) (ts : Nat) :
    ∃ r, localdbFindIndex (indexWords es) ts = .ok r ∧
      (r = none ↔ ts < es[0].1 ∨ es[es.length - 1].1 + 90 < ts) ∧
      ∀ off, r = some off → ∃ e, Latest es ts e ∧ off = e.2 := by
  by_cases hout : ts < es[0].1 ∨ es[es.length - 1].1 + 90 < ts
  · exact ⟨none, localdbFindIndex_none hlen hout, iff_of_true rfl hout, fun off hoff => by cases hoff⟩
  · have hlast := hword _ (List.getElem_mem (show es.length - 1 < es.length by omega))
    obtain ⟨e, he, hfind⟩ := localdbFindIndex_some hs hlen ts (by omega) (by omega) (by omega)
    refine ⟨some e.2, hfind, iff_of_false (Option.some_ne_none _) hout, ?_⟩
    rintro off hoff
    cases hoff
    exact ⟨e, he, rfl⟩

/-- The interpolation starts behind the time. -/
theorem localdbFindIndex_right_load :
    ∃ r, localdbFindIndex (indexWords [(60, 0), (70, 16), (200, 32)]) 120 = .ok r ∧
      (r = none ↔ 120 < 60 ∨ 200 + 90 < 120) ∧
      ∀ off, r = some off → ∃ e, Latest [(60, 0), (70, 16), (200, 32)] 120 e ∧ off = e.2 :=
  localdbFindIndex_right (show Ascending [(60, 0), (70, 16), (200, 32)] by simp [Ascending]) (by simp)
    (by simp) 120

end Find

end Opticon
