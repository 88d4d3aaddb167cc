import Mathlib.Tactic.Linarith
import Opticon.Collector.Watch
import Opticon.Lib.Decimal
import Opticon.Lib.Outcome

/-! The badness a watcher makes of a meter, against what it is meant to be. -/

namespace Opticon

variable {m : Meter} {w : Meterwatch} {adj : Option Watchadjust} {maxtrig : Watchtrigger}

/-- The elements a meter has; one that is marked empty has none. -/
def Meter.elements (m : Meter) : Nat := if SZ_EMPTY_VAL ≤ m.count then 0 else elemCount m.count

/-- A value as a meter of another type gives it. -/
def Meter.asFrac (m : Meter) (i : Nat) : Double := if m.type = MTYPE_FRAC then m.frac i else .fin 0
def Meter.asUint (m : Meter) (i : Nat) : BitVec 64 := if m.type = MTYPE_INT then m.uint i else 0
def Meter.asStr (m : Meter) (i : Nat) : FString := if m.type = MTYPE_STR then m.str i else FString.empty

/-- The comparison of a watcher with the effective threshold, for values of the three types and for
the number of elements. -/
def Meterwatch.compares (w : Meterwatch) (adj : Option Watchadjust) (frac : Double) (uint : BitVec 64)
    (str : FString) (count : Nat) : Bool :=
  match w.tp with
  | .fracGt q => frac.gt (fracadj adj w.trigger q)
  | .fracLt q => frac.lt (fracadj adj w.trigger q)
  | .uintGt u => intadj adj w.trigger u < uint
  | .uintLt u => uint < intadj adj w.trigger u
  | .count u => (intadj adj w.trigger u).toNat ≤ count
  | .strMatch s => str.str == (stradj adj w.trigger s).str

/-- An element satisfies the watcher. -/
def Meterwatch.satisfied (w : Meterwatch) (adj : Option Watchadjust) (m : Meter) (i : Nat) : Bool :=
  w.compares adj (m.asFrac i) (m.asUint i) (m.asStr i) m.elements

def Adjustdata.factor {α : Type} (adj : Adjustdata α) : ℚ :=
  if 1 / 10000 < adj.weight then adj.weight else 1

/-- The weight of an adjustment of the watcher's type, 1 if none is active. -/
def Meterwatch.weight (w : Meterwatch) (adj : Option Watchadjust) : ℚ :=
  match w.tp, adj with
  | .fracGt _, some ⟨_, .frac adjust⟩ => (adjust w.trigger).factor
  | .fracLt _, some ⟨_, .frac adjust⟩ => (adjust w.trigger).factor
  | .uintGt _, some ⟨_, .uint adjust⟩ => (adjust w.trigger).factor
  | .uintLt _, some ⟨_, .uint adjust⟩ => (adjust w.trigger).factor
  | .count _, some ⟨_, .uint adjust⟩ => (adjust w.trigger).factor
  | .strMatch _, some ⟨_, .str adjust⟩ => (adjust w.trigger).factor
  | _, _ => 1

/-- The weighted badness of the elements that satisfy a watcher. -/
def Meterwatch.due (w : Meterwatch) (adj : Option Watchadjust) (m : Meter) : ℚ :=
  ((List.range m.elements).countP (w.satisfied adj m) : ℚ) * (w.badness * w.weight adj)

/-- The highest trigger with one that some element raises. -/
def Meterwatch.raised (w : Meterwatch) (adj : Option Watchadjust) (m : Meter) (maxtrig : Watchtrigger) :
    Watchtrigger :=
  if (List.range m.elements).any (w.satisfied adj m) then maxtrig.max w.trigger else maxtrig

/-- The elements of a meter can be read: its block holds them. -/
def Meterwatch.Reads (w : Meterwatch) (m : Meter) : Prop :=
  ∀ i < m.elements, match w.tp with
    | .fracGt _ | .fracLt _ => (meterGetFrac m i).isOk = true
    | .uintGt _ | .uintLt _ => (meterGetUint m i).isOk = true
    | .strMatch _ => (meterGetStr m i).isOk = true
    | .count _ => True

/-- What the getters give for a meter that is marked empty satisfies the watcher. -/
def Meterwatch.takesEmpty (w : Meterwatch) (adj : Option Watchadjust) (m : Meter) : Bool :=
  w.compares adj (.fin 0) 0 FString.empty (watchCount m)

/-! ### The loop -/

theorem Watchtrigger.max_max (t t' : Watchtrigger) : (t.max t').max t' = t.max t' := by
  unfold Watchtrigger.max
  split
  · simp
  · rfl

theorem badnessLoop_ok {b : Nat → Bool} {n i : Nat} {res : ℚ} {t : Watchtrigger}
    (h : ∀ j, i ≤ j → j < i + n → watchFires m w adj j = .ok (b j)) :
    badnessLoop m w adj n i res t = .ok (res + ((List.range' i n).countP b : ℚ) * w.badness,
      if (List.range' i n).any b then t.max w.trigger else t) := by
  induction n generalizing i res t with
  | zero => simp [badnessLoop]
  | succ n ih =>
    have hrest := fun j (hj : i + 1 ≤ j) (hj' : j < i + 1 + n) => h j (by omega) (by omega)
    rw [badnessLoop, h i le_rfl (by omega), Outcome.ok_bind, List.range'_succ, List.countP_cons,
      List.any_cons]
    cases hb : b i with
    | true =>
      rw [if_pos rfl, ih hrest, if_pos rfl]
      congr 2
      · push_cast
        ring
      · rw [Bool.true_or, if_pos rfl]
        split
        · exact Watchtrigger.max_max _ _
        · rfl
    | false =>
      rw [if_neg Bool.false_ne_true, ih hrest, Bool.false_or]
      simp

theorem badnessLoop_fires {n i : Nat} {res : ℚ} {t : Watchtrigger} {r : ℚ × Watchtrigger}
    (h : badnessLoop m w adj n i res t = .ok r) {j : Nat} (hj : i ≤ j) (hj' : j < i + n) :
    ∃ b, watchFires m w adj j = .ok b := by
  induction n generalizing i res t with
  | zero => omega
  | succ n ih =>
    obtain ⟨b, hb, h⟩ := Outcome.bind_ok_iff.mp h
    obtain rfl | hlt := hj.eq_or_lt
    · exact ⟨b, hb⟩
    · split at h
      · exact ih h hlt (by omega)
      · exact ih h hlt (by omega)

/-! ### What fires -/

theorem meterGet_elem {α : Type} {type : MeterId} {sz i : Nat} {empty v : α} {value : Meter → Nat → α}
    (hi : i < m.elements) (h : meterGet type sz empty value m i = .ok v) :
    v = if m.type = type then value m i else empty := by
  unfold Meter.elements at hi
  unfold meterGet at h
  split at hi
  · omega
  · rename_i hcount
    rw [if_neg hcount] at h
    by_cases htype : m.type = type
    · rw [if_pos ⟨hi, htype⟩] at h
      obtain ⟨-, -, h⟩ := Outcome.bind_ok_iff.mp h
      rw [if_pos htype]
      exact (Except.ok.inj h).symm
    · rw [if_neg fun hboth => htype hboth.2] at h
      rw [if_neg htype]
      exact (Except.ok.inj h).symm

theorem meterGetStr_elem {i : Nat} {v : FString} (hi : i < m.elements) (h : meterGetStr m i = .ok v) :
    v = m.asStr i := by
  unfold meterGetStr at h
  split at h
  · rename_i hnone
    have hempty : m.str i = FString.empty := by simp [Meter.str, hnone]
    rw [Meter.asStr, hempty, ite_self]
    exact (Except.ok.inj h).symm
  · exact meterGet_elem hi h

theorem meterGet_empty {α : Type} {type : MeterId} {sz i : Nat} {empty : α} {value : Meter → Nat → α}
    (hc : SZ_EMPTY_VAL ≤ m.count) : meterGet type sz empty value m i = .ok empty :=
  if_pos hc

theorem watchFires_empty (hc : SZ_EMPTY_VAL ≤ m.count) (i : Nat) :
    watchFires m w adj i = .ok (w.takesEmpty adj m) := by
  have hstr : meterGetStr m i = .ok FString.empty := by
    unfold meterGetStr
    split
    · rfl
    · exact meterGet_empty hc
  unfold watchFires Meterwatch.takesEmpty Meterwatch.compares
  cases w.tp with
  | fracGt q => simp only [meterGetFrac, meterGet_empty hc, Outcome.ok_bind, Outcome.pure_ok]
  | fracLt q => simp only [meterGetFrac, meterGet_empty hc, Outcome.ok_bind, Outcome.pure_ok]
  | uintGt u => simp only [meterGetUint, meterGet_empty hc, Outcome.ok_bind, Outcome.pure_ok]
  | uintLt u => simp only [meterGetUint, meterGet_empty hc, Outcome.ok_bind, Outcome.pure_ok]
  | count u => rfl
  | strMatch s => simp only [hstr, Outcome.ok_bind, Outcome.pure_ok]

theorem return_of_read {α : Type} {x : Except Fault α} {a : α} (f : α → Bool) (hok : x.isOk = true)
    (ha : ∀ v, x = .ok v → v = a) : (do return f (← x)) = (.ok (f a) : Except Fault Bool) := by
  cases x with
  | error e => cases hok
  | ok v => rw [ha v rfl, Outcome.ok_bind, Outcome.pure_ok]

theorem isOk_of_return {α : Type} {x : Except Fault α} {f : α → Bool} {b : Bool}
    (h : (do return f (← x)) = (.ok b : Except Fault Bool)) : x.isOk = true := by
  cases x with
  | error e => cases h
  | ok v => rfl

theorem watchCount_eq {i : Nat} (hi : i < m.elements) : watchCount m = m.elements := by
  unfold Meter.elements at hi ⊢
  unfold watchCount
  split at hi
  · omega
  · rename_i hc
    have hle : SZ_EMPTY_VAL ≤ SZ_EMPTY_ARRAY := by decide
    rw [if_neg fun h => hc (hle.trans h), if_neg hc]

/-- A watcher fires for an element that can be read exactly if it is satisfied. -/
theorem watchFires_elem (hreads : w.Reads m) {i : Nat} (hi : i < m.elements) :
    watchFires m w adj i = .ok (w.satisfied adj m i) := by
  have hread := hreads i hi
  unfold watchFires Meterwatch.satisfied Meterwatch.compares
  cases htp : w.tp with
  | fracGt q =>
    rw [htp] at hread
    exact return_of_read _ hread fun v hv => meterGet_elem hi hv
  | fracLt q =>
    rw [htp] at hread
    exact return_of_read _ hread fun v hv => meterGet_elem hi hv
  | uintGt u =>
    rw [htp] at hread
    exact return_of_read (fun v => decide (intadj adj w.trigger u < v)) hread fun v hv => meterGet_elem hi hv
  | uintLt u =>
    rw [htp] at hread
    exact return_of_read (fun v => decide (v < intadj adj w.trigger u)) hread fun v hv => meterGet_elem hi hv
  | count u =>
    rw [watchCount_eq hi]
  | strMatch s =>
    rw [htp] at hread
    exact return_of_read _ hread fun v hv => meterGetStr_elem hi hv

/-- An element for which a watcher fires, or does not, could be read. -/
theorem reads_of_fires (h : ∀ i < m.elements, ∃ b, watchFires m w adj i = .ok b) : w.Reads m := by
  intro i hi
  obtain ⟨b, hb⟩ := h i hi
  unfold watchFires at hb
  cases htp : w.tp with
  | fracGt q =>
    rw [htp] at hb
    exact isOk_of_return hb
  | fracLt q =>
    rw [htp] at hb
    exact isOk_of_return hb
  | uintGt u =>
    rw [htp] at hb
    exact isOk_of_return (f := fun v => decide (intadj adj w.trigger u < v)) hb
  | uintLt u =>
    rw [htp] at hb
    exact isOk_of_return (f := fun v => decide (v < intadj adj w.trigger u)) hb
  | count u => trivial
  | strMatch s =>
    rw [htp] at hb
    exact isOk_of_return hb

/-! ### The sum -/

theorem Watchtrigger.max_eq_left {t t' : Watchtrigger} : t.max t' = t ↔ t'.level ≤ t.level := by
  unfold Watchtrigger.max
  split
  · rename_i hlt
    constructor
    · rintro rfl
      exact le_rfl
    · intro hle
      omega
  · rename_i hle
    exact iff_of_true rfl (not_lt.mp hle)

theorem calculateBadness_elems (hc : m.count < SZ_EMPTY_VAL) :
    calculateBadness m w adj maxtrig = .ok (w.due adj m, w.raised adj m maxtrig) ↔
      w.Reads m ∧ ((∀ i < m.elements, w.satisfied adj m i = false) ∨ w.badness = 0 ∨ w.weight adj = 1) := by
  have helems : elemCount m.count = m.elements := by
    rw [Meter.elements, if_neg (not_le_of_gt hc)]
  unfold calculateBadness
  rw [helems]
  have hloop (hreads : w.Reads m) : badnessLoop m w adj m.elements 0 0 maxtrig =
      .ok (((List.range m.elements).countP (w.satisfied adj m) : ℚ) * w.badness, w.raised adj m maxtrig) := by
    rw [badnessLoop_ok fun j _ hj => watchFires_elem hreads (by omega), zero_add, Meterwatch.raised,
      List.range_eq_range']
  have hsum : ((List.range m.elements).countP (w.satisfied adj m) : ℚ) * w.badness = w.due adj m ↔
      (∀ i < m.elements, w.satisfied adj m i = false) ∨ w.badness = 0 ∨ w.weight adj = 1 := by
    rw [Meterwatch.due, ← mul_assoc]
    have hzero : ((List.range m.elements).countP (w.satisfied adj m) : ℚ) = 0 ↔
        ∀ i < m.elements, w.satisfied adj m i = false := by
      rw [Nat.cast_eq_zero, List.countP_eq_zero]
      simp
    rw [← hzero]
    generalize ((List.range m.elements).countP (w.satisfied adj m) : ℚ) = k
    calc k * w.badness = k * w.badness * w.weight adj ↔ k * w.badness * (w.weight adj - 1) = 0 := by
          rw [mul_sub, mul_one, sub_eq_zero, eq_comm]
      _ ↔ k = 0 ∨ w.badness = 0 ∨ w.weight adj = 1 := by
          rw [mul_eq_zero, mul_eq_zero, sub_eq_zero, or_assoc]
  constructor
  · intro h
    have hreads : w.Reads m :=
      reads_of_fires fun i hi => badnessLoop_fires h (Nat.zero_le i) (by omega)
    rw [hloop hreads, Except.ok.injEq, Prod.mk.injEq] at h
    exact ⟨hreads, hsum.mp h.1⟩
  · rintro ⟨hreads, hright⟩
    rw [hloop hreads, hsum.mpr hright]

theorem calculateBadness_marked (hc : SZ_EMPTY_VAL ≤ m.count) :
    calculateBadness m w adj maxtrig = .ok (w.due adj m, w.raised adj m maxtrig) ↔
      w.takesEmpty adj m = false ∨ w.badness = 0 ∧ w.trigger.level ≤ maxtrig.level := by
  have hnone : m.elements = 0 := if_pos hc
  have hcount : elemCount m.count = m.count ∧ 0 < m.count := by
    unfold elemCount SZ_EMPTY_VAL at *
    split <;> omega
  unfold calculateBadness Meterwatch.due Meterwatch.raised
  rw [hcount.1, badnessLoop_ok fun j _ _ => watchFires_empty hc j, hnone]
  simp only [Except.ok.injEq, Prod.mk.injEq, zero_add, List.range_zero, List.countP_nil, Nat.cast_zero,
    zero_mul, List.any_nil, Bool.false_eq_true, if_false]
  cases hempty : w.takesEmpty adj m with
  | false => simp
  | true =>
    have hany : (List.range' 0 m.count).any (fun _ => true) = true :=
      List.any_eq_true.mpr ⟨0, by simp [hcount.2], rfl⟩
    have hne : (m.count : ℚ) ≠ 0 := Nat.cast_ne_zero.mpr hcount.2.ne'
    rw [if_pos hany, Watchtrigger.max_eq_left, List.countP_true, List.length_range', mul_eq_zero]
    simp [hne]

/-- A watcher makes of a meter what is due exactly if the meter has elements, they can be read, and
none of them satisfies the watcher or the weight makes no difference; or the meter is marked empty,
and what the getters give for it does not satisfy the watcher or the watcher adds and raises
nothing. -/
theorem calculateBadness_due_iff (m : Meter) (w : Meterwatch) (adj : Option Watchadjust)
    (maxtrig : Watchtrigger) :
    calculateBadness m w adj maxtrig = .ok (w.due adj m, w.raised adj m maxtrig) ↔
      (m.count < SZ_EMPTY_VAL ∧ w.Reads m ∧
        ((∀ i < m.elements, w.satisfied adj m i = false) ∨ w.badness = 0 ∨ w.weight adj = 1)) ∨
      (SZ_EMPTY_VAL ≤ m.count ∧
        (w.takesEmpty adj m = false ∨ w.badness = 0 ∧ w.trigger.level ≤ maxtrig.level)) := by
  obtain hc | hc := lt_or_ge m.count SZ_EMPTY_VAL
  · rw [calculateBadness_elems hc]
    simp [hc, not_le_of_gt hc]
  · rw [calculateBadness_marked hc]
    simp [hc, not_lt_of_ge hc]

/-- A meter without a value is below every limit, thirty times. -/
theorem empty_meter_bad : ¬ ∀ m w adj maxtrig,
    calculateBadness m w adj maxtrig = .ok (w.due adj m, w.raised adj m maxtrig) := by
  intro hall
  have h := hall (meterAlloc (makeid (asc "load") MTYPE_INT))
    ⟨.warn, makeid (asc "load") MTYPE_INT, .uintLt 10, 5⟩ none .none
  obtain hempty | ⟨hbadness, -⟩ := (calculateBadness_marked le_rfl).mp h
  · exact absurd hempty (by decide)
  · exact absurd hbadness (by norm_num)

end Opticon
