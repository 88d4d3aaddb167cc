import Opticon.Agent.HostImport
import Opticon.Meter.ChainLaws
import Opticon.Wire.Representation

/-! What a filled meter has, and what that does to the list of a host's meters. -/

namespace Opticon

open LinkedHost (accepts accepts_iff)

variable {h h' : Host} {m m' : Meter} {l l' : List Meter} {rid type : MeterId} {sz now pos count : Nat}
  {v : Var} {vs : List Var} {slots : List Slot} {ihash : BitVec 32}

/-! ### The values of a meter -/

/-- A meter of a type with these elements. -/
structure Meter.Filled (m : Meter) (t : MeterId) (sz n : Nat) (slots : List Slot) : Prop where
  type : m.type = t
  count : m.count = n
  few : n < SZ_EMPTY_VAL
  length : slots.length = elemCount n
  d : m.d = some ⟨elemCount n * sz, slots⟩

theorem Meter.Filled.set (hm : m.Filled type sz count slots) (hpos : pos < slots.length) (now : Nat)
    (val : Slot) : ∃ m', meterSet type sz now m pos val = .ok m' ∧ m'.id = m.id ∧
      m'.Filled type sz count (slots.set pos val) := by
  have hlt : pos < elemCount m.count := by rwa [hm.count, ← hm.length]
  have hroom : (pos + 1) * sz ≤ elemCount count * sz := Nat.mul_le_mul_right sz (hm.length ▸ hpos)
  have hset : meterSet type sz now m pos val = .ok { m with
      lastmodified := now
      d := some ⟨elemCount count * sz, slots.set pos val⟩ } := by
    unfold meterSet
    rw [if_neg (by rw [hm.count]; exact not_le_of_gt hm.few), if_pos ⟨hm.type, hlt⟩, hm.d]
    dsimp only
    rw [if_pos hroom]
  exact ⟨_, hset, rfl, hm.type, hm.count, hm.few, (List.length_set ..).trans hm.length, rfl⟩

/-- The types of scalars. -/
def Scalar (type : MeterId) : Prop := type = MTYPE_INT ∨ type = MTYPE_FRAC ∨ type = MTYPE_STR

/-- What a var leaves in a meter of this type; a var that is no string leaves nothing in one of strings. -/
def Var.slot (type : MeterId) (v : Var) : Option Slot :=
  if type = MTYPE_INT then some (.int (varGetInt v))
  else if type = MTYPE_FRAC then some (.frac (.fin (varGetDouble v)))
  else (varGetStr v).map fun s => .str (FString.strncpy s)

/-- A lookup for an id took the first meter it accepts, or else a new one, and that became `m'`. -/
inductive Put (rid : MeterId) (m' : Meter) : List Meter → List Meter → Prop
  | found {l₁ l₂ : List Meter} {m : Meter} : (∀ x ∈ l₁, accepts rid x = false) → accepts rid m = true →
      Put rid m' (l₁ ++ m :: l₂) (l₁ ++ m' :: l₂)
  | new {l : List Meter} : (∀ x ∈ l, accepts rid x = false) → Put rid m' l (l ++ [m'])

/-- The meter that a lookup takes. -/
def wanted (rid : MeterId) (l : List Meter) : Meter := (l.find? (accepts rid)).getD (meterAlloc rid)

theorem accepts_name {m : Meter} (ha : accepts rid m = true) : m.name = rid &&& MMASK_NAME := by
  obtain hid | ⟨hname, -⟩ := accepts_iff.mp ha
  · rw [Meter.name, hid]
  · exact hname

/-- The meters of a name. -/
def shelf (name : MeterId) (l : List Meter) : List Meter := l.filter fun m => m.name == name

/-- The meters of other names stay. -/
theorem Put.shelf {name : MeterId} (hp : Put rid m' l l') (hm : m'.name = rid &&& MMASK_NAME)
    (hne : name ≠ rid &&& MMASK_NAME) : shelf name l' = shelf name l := by
  have hout (x : Meter) (hx : x.name = rid &&& MMASK_NAME) (l : List Meter) :
      Opticon.shelf name (x :: l) = Opticon.shelf name l := by
    refine List.filter_cons_of_neg ?_
    rw [beq_iff_eq, hx]
    exact hne.symm
  have happend (l₁ l₂ : List Meter) :
      Opticon.shelf name (l₁ ++ l₂) = Opticon.shelf name l₁ ++ Opticon.shelf name l₂ := List.filter_append ..
  cases hp with
  | found _ ha =>
    rw [happend, happend, hout _ hm, hout _ (accepts_name ha)]
  | new _ =>
    rw [happend, hout _ hm]
    exact List.append_nil _

/-- What is there after a lookup of which nothing is lost. -/
theorem Put.exists_iff {P : Meter → Prop} (hp : Put rid m' l l') (hlost : ¬ P (wanted rid l)) :
    (∃ x ∈ l', P x) ↔ P m' ∨ ∃ x ∈ l, P x := by
  cases hp with
  | @found l₁ l₂ m hno ha =>
    have hwanted : wanted rid (l₁ ++ m :: l₂) = m := by
      have hnone : l₁.find? (accepts rid) = none := by
        rw [List.find?_eq_none]
        intro x hx
        simpa using hno x hx
      rw [wanted, List.find?_append, hnone, Option.none_or, List.find?_cons_of_pos ha]
      rfl
    rw [hwanted] at hlost
    simp only [List.mem_append, List.mem_cons]
    constructor
    · rintro ⟨x, hx | rfl | hx, hP⟩
      · exact .inr ⟨x, .inl hx, hP⟩
      · exact .inl hP
      · exact .inr ⟨x, .inr (.inr hx), hP⟩
    · rintro (hP | ⟨x, hx | rfl | hx, hP⟩)
      · exact ⟨m', .inr (.inl rfl), hP⟩
      · exact ⟨x, .inl hx, hP⟩
      · exact absurd hP hlost
      · exact ⟨x, .inr (.inr hx), hP⟩
  | new _ =>
    simp only [List.mem_append, List.mem_singleton]
    constructor
    · rintro ⟨x, hx | rfl, hP⟩
      · exact .inr ⟨x, hx, hP⟩
      · exact .inl hP
    · rintro (hP | ⟨x, hx, hP⟩)
      · exact ⟨m', .inr rfl, hP⟩
      · exact ⟨x, .inl hx, hP⟩

end Opticon
