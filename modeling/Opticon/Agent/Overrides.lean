import Opticon.Agent.HostImportLaws
import Opticon.Lib.Transition

/-! Whether the meters of a host show what was imported into it last. -/

namespace Opticon

/-- Hosts after imports. -/
def imported (ihash : BitVec 32) : Transition Host Var where
  init h := ∃ uuid now, h = { hostAlloc uuid with lastmodified := now }
  step h val h' := ∃ ok, hostImport ihash h val = .ok (ok, h')

/-- The keys of a document. -/
def Var.keys : Var → List Var
  | .dict _ _ cs => cs
  | _ => []

/-- What a key has for a meter, if it is a scalar or an array that starts with one: the first elements
only of a long array. -/
structure Filling where
  type : MeterId
  count : Nat
  vs : List Var

def Var.filling : Var → Option Filling
  | .leaf id h val => (Var.leaf id h val).metertype.map fun type => ⟨type, 0, [.leaf id h val]⟩
  | .array _ _ (vv :: vs) => vv.metertype.map fun type =>
      ⟨type, min (vs.length + 1) SZ_MAX_ARRAY, (vv :: vs).take (min (vs.length + 1) SZ_MAX_ARRAY)⟩
  | _ => none

/-- The name of the meters with a label. -/
def labelName (label : List UInt8) : MeterId := makeid label 0 &&& MMASK_NAME

/-- The value of a meter at a position is that of a var. -/
def Meter.Reads (m : Meter) (i : Nat) : Var → Prop
  | .leaf _ _ (.int ival) => meterGetUint m i = .ok ival
  | .leaf _ _ (.double dval) => meterGetFrac m i = .ok (.fin dval)
  | .leaf _ _ (.str sval) => ∃ s, meterGetStr m i = .ok s ∧ s.str = sval
  | _ => False

/-- A meter of the name and the type of a key that has exactly its values. -/
def Meter.Shows (m : Meter) (v : Var) : Prop :=
  ∃ f, v.filling = some f ∧ m.name = labelName v.id.str ∧ m.type = f.type ∧ m.count = f.count ∧
    ∀ i w, f.vs[i]? = some w → m.Reads i w

/-- The import does not fail at this key. -/
def Var.importable (v : Var) : Bool :=
  v.id.str.length ≤ 11 && match v with
    | .array _ _ (.array _ _ _ :: _) => false
    | .dict id _ cs => cs.all fun vv => vv.id.str.length + id.str.length ≤ 10 && !vv.isNode false
    | _ => true

/-- The names of the meters that a key is stored under. -/
def Var.meterNames : Var → List MeterId
  | .array id _ (.dict _ _ cs :: _) => cs.map fun vv => labelName (joined id.str vv.id.str)
  | .dict id _ cs => cs.map fun vv => labelName (joined id.str vv.id.str)
  | v => [labelName v.id.str]

/-- No meter is stored under by both keys. -/
def Apart (v w : Var) : Prop := ∀ name ∈ v.meterNames, name ∉ w.meterNames

/-- The id a lookup for a key goes by. -/
def Var.request (v : Var) (type : MeterId) : MeterId :=
  makeid v.id.str type &&& (MMASK_TYPE ||| MMASK_NAME)

/-- The text of a string has room in a meter. -/
def Var.Short (v : Var) : Prop := ∀ s, varGetStr v = some s → (FString.strncpy s).str = s

/-- The key gets a meter of its type and can be stored in it, or it is shown already. -/
def Takes (l : List Meter) (v : Var) : Prop :=
  (∃ f, v.filling = some f ∧ (wanted (v.request f.type) l).type = f.type ∧ ∀ w ∈ f.vs, w.Short) ∨
    ∃ m ∈ l, m.Shows v

/-! ### One meter -/

variable {h h' : Host} {m m' : Meter} {l l' : List Meter} {type : MeterId} {sz now pos count : Nat}
  {v w : Var} {vs : List Var} {f : Filling} {slots : List Slot} {ihash : BitVec 32}

theorem Meter.Filled.represented (hm : m.Filled type sz count slots) (hsz : sizeofType type = some sz)
    (hslots : ∀ val ∈ slots, val.OfType type) : m.Represented := by
  refine ⟨?_, fun _ => ⟨_, hm.d, ⟨?_, ?_, ?_⟩⟩, fun hle => ?_⟩
  · rw [hm.count]
    exact le_trans hm.few.le (by decide)
  · rw [hm.type, hsz, hm.count]
    rfl
  · rw [hm.count]
    exact hm.length
  · rw [hm.type]
    exact hslots
  · rw [hm.count] at hle
    exact absurd hm.few (not_lt_of_ge hle)

theorem Meter.Filled.get {α : Type} {empty : α} {value : Meter → Nat → α}
    (hm : m.Filled type sz count slots) {i : Nat} (hi : i < slots.length) :
    meterGet type sz empty value m i = .ok (value m i) := by
  have hlt : i < elemCount m.count := by rwa [hm.count, ← hm.length]
  have hroom : (i + 1) * sz ≤ elemCount count * sz := Nat.mul_le_mul_right sz (hm.length ▸ hi)
  unfold meterGet Meter.inBounds
  rw [if_neg (by rw [hm.count]; exact not_le_of_gt hm.few), if_pos ⟨hlt, hm.type⟩, hm.d]
  dsimp only
  rw [if_pos hroom]
  rfl

theorem Meter.Filled.slot (hm : m.Filled type sz count slots) (i : Nat) :
    m.d.bind (·.slots[i]?) = slots[i]? := by
  rw [hm.d]
  rfl

/-- What is set in a meter of the right type is read from it. -/
theorem Meter.Filled.reads (hm : m.Filled type sz count slots) (hsz : sizeofType type = some sz) {i : Nat}
    {val : Slot} (hi : slots[i]? = some val) (hw : w.metertype = some type)
    (hval : w.slot type = some val) : m.Reads i w ↔ w.Short := by
  have hlt : i < slots.length := (List.getElem?_eq_some_iff.mp hi).1
  have hslot := (hm.slot i).trans hi
  cases w with
  | dict id h cs => cases hw
  | array id h cs => cases hw
  | leaf id h x =>
    cases x with
    | null => cases hw
    | int ival =>
      cases hw
      cases hsz
      cases hval
      have hget : meterGetUint m i = .ok (m.uint i) := hm.get hlt
      refine ⟨fun _ s hs => (by cases hs), fun _ => ?_⟩
      rw [Meter.Reads, hget, Meter.uint, hslot]
      rfl
    | double dval =>
      cases hw
      cases hsz
      cases hval
      have hget : meterGetFrac m i = .ok (m.frac i) := hm.get hlt
      refine ⟨fun _ s hs => (by cases hs), fun _ => ?_⟩
      rw [Meter.Reads, hget, Meter.frac, hslot]
      rfl
    | str sval =>
      cases hw
      cases hsz
      cases hval
      have hget : meterGetStr m i = .ok (FString.strncpy sval) := by
        have hvalue : m.str i = FString.strncpy sval := by rw [Meter.str, hslot]
        rw [meterGetStr, if_neg (by rw [hm.d]; simp), hm.get hlt, hvalue]
      constructor
      · rintro ⟨s, hs, rfl⟩ t ht
        cases ht
        rw [FString.strncpy_str]
      · intro hshort
        exact ⟨_, hget, hshort sval rfl⟩

/-! ### One key -/

/-- What `host_import` does with the meter of a key. -/
def Filling.fill (f : Filling) (now : Nat) (m : Meter) : Except Fault Meter := do
  setValues (meterSetVar f.type now) f.vs 0 (← meterSetcount now m f.count)

structure Filling.Sound (f : Filling) : Prop where
  scalar : Scalar f.type
  few : f.count < SZ_EMPTY_VAL
  length : f.vs.length = elemCount f.count

theorem Meter.Reads.short {i : Nat} (hr : m.Reads i w) : w.Short := by
  intro s hs
  cases w with
  | dict _ _ _ => cases hs
  | array _ _ _ => cases hs
  | leaf _ _ val =>
    cases val with
    | null => cases hs
    | int _ => cases hs
    | double _ => cases hs
    | str sval =>
      cases hs
      obtain ⟨t, -, rfl⟩ := hr
      rw [FString.strncpy_str]

theorem Meter.Shows.short (hm : m.Shows v) (hf : v.filling = some f) : ∀ w ∈ f.vs, w.Short := by
  obtain ⟨f', hf', -, -, -, hreads⟩ := hm
  cases hf.symm.trans hf'
  intro w hw
  obtain ⟨i, hi⟩ := List.mem_iff_getElem?.mp hw
  exact (hreads i w hi).short

theorem Put.mem {rid : MeterId} (hp : Put rid m' l l') : m' ∈ l' := by
  cases hp <;> simp

variable {set : Nat → Meter → Nat → Var → Except Fault Meter}

/-- The meters of other names stay. -/
structure Host.Spares (h : Host) (names : List MeterId) (h' : Host) : Prop where
  represented : h'.Represented
  shelf : ∀ name, name ∉ names → Opticon.shelf name h'.meters = Opticon.shelf name h.meters

theorem Host.Spares.refl (hh : h.Represented) (names : List MeterId) : h.Spares names h :=
  ⟨hh, fun _ _ => rfl⟩

theorem Host.Spares.trans {h₁ : Host} {names names' names'' : List MeterId} (s : h.Spares names h₁)
    (s' : h₁.Spares names' h') (hsub : names ⊆ names'') (hsub' : names' ⊆ names'') :
    h.Spares names'' h' :=
  ⟨s'.represented, fun name hn =>
    (s'.shelf name fun hmem => hn (hsub' hmem)).trans (s.shelf name fun hmem => hn (hsub hmem))⟩

theorem importable_le (hi : v.importable = true) : v.id.str.length ≤ 11 :=
  of_decide_eq_true (Bool.and_eq_true_iff.mp hi).1

theorem filling_meterNames (hf : v.filling = some f) : v.meterNames = [labelName v.id.str] := by
  cases v with
  | dict id hc cs => cases hf
  | leaf id hc val => rfl
  | array id hc cs =>
    cases cs with
    | nil => rfl
    | cons vv vs =>
      obtain ⟨type, htype, -⟩ := Option.map_eq_some_iff.mp hf
      cases vv with
      | dict _ _ _ => cases htype
      | array _ _ _ => rfl
      | leaf _ _ _ => rfl

/-- The meters of a key that is apart from what was stored are as they were. -/
theorem Host.Spares.own {names : List MeterId} (s : h.Spares names h') (hf : v.filling = some f)
    (hapart : ∀ name ∈ v.meterNames, name ∉ names) :
    Opticon.shelf (labelName v.id.str) h'.meters = Opticon.shelf (labelName v.id.str) h.meters := by
  refine s.shelf _ (hapart _ ?_)
  rw [filling_meterNames hf]
  exact List.mem_singleton_self _

theorem Apart.symm {v w : Var} (hvw : Apart v w) : Apart w v := fun name hw hv => hvw name hv hw

end Opticon
