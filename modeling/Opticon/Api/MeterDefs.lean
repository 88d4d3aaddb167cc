import Opticon.Api.MeterIds

/-! Defining a meter: which fields are stored, and which are left as they were. -/

namespace Opticon

variable {ihash : BitVec 32} {x y : String}

section Fields

/-- A field of a definition: nothing if there is none, and no value if it is a dict or an array. -/
def defField (ihash : BitVec 32) (v : Var) (x : String) : Option (Option VarValue) :=
  (varChild ihash v (asc x)).map Var.scalar

/-- A field that a text is written to. -/
def setField (old : Option (Option VarValue)) (s : List UInt8) : Option (Option VarValue) :=
  match old with
  | none | some (some .null) | some (some (.str _)) => some (some (.str s))
  | some v => some v

theorem map_scalar_of_rel {o o' : Option Var} (h : Option.Rel (Var.Rehashed ihash) o o') :
    o'.map Var.scalar = o.map Var.scalar := by
  cases h with
  | none => rfl
  | some hc => exact congrArg some hc.scalar

theorem defField_set_other (v : Var) (val : VarValue) (hx : FitsKey (asc x)) (hne : asc x ≠ asc y) :
    defField ihash (varSetForkey ihash v (asc x) val) y = defField ihash v y :=
  map_scalar_of_rel (varSetForkey_other v val (by rwa [hx.str]))

theorem defField_delete_other (v : Var) (hne : asc x ≠ asc y) :
    defField ihash (varDeleteKey ihash v (asc x)) y = defField ihash v y :=
  map_scalar_of_rel (varDeleteKey_other v hne)

theorem defField_set_own {v : Var} (hv : v.isNode true) (hx : FitsKey (asc x)) (s : List UInt8) :
    defField ihash (varSetForkey ihash v (asc x) (.str s)) x = setField (defField ihash v x) s := by
  cases v with
  | leaf _ _ _ => cases hv
  | array _ _ _ => cases hv
  | dict id h cs =>
    rw [defField, varSetForkey_own id h cs (.str s) hx.str hx.ne, defField]
    cases varChild ihash (.dict id h cs) (asc x) with
    | none => rfl
    | some c =>
      cases c with
      | leaf id h val => cases val <;> rfl
      | dict _ _ _ => rfl
      | array _ _ _ => rfl

theorem varSetForkey_node {v : Var} (hv : v.isNode true) (key : List UInt8) (val : VarValue) :
    (varSetForkey ihash v key val).isNode true := by
  cases v with
  | leaf _ _ _ => cases hv
  | array _ _ _ => cases hv
  | dict id h cs =>
    have hr := varGetOrMake_dict ihash key id h cs
    simp only [varSetForkey]
    generalize varGetOrMake ihash (.dict id h cs) key = r at hr
    cases hr <;> rfl

/-- A text that is written over a text, or where there was nothing, is stored. -/
theorem setField_eq_iff {old : Option (Option VarValue)} (hnull : old ≠ some (some .null)) (s : List UInt8) :
    setField old s = some (some (.str s)) ↔ ∀ v, old = some v → ∃ s', v = some (.str s') := by
  unfold setField
  cases old with
  | none => simp
  | some v =>
    cases v with
    | none => simp
    | some val => cases val <;> simp_all

theorem setField_same_iff {old : Option (Option VarValue)} (hnull : old ≠ some (some .null)) (s : List UInt8) :
    setField old s = old ↔
      ∃ v, old = some v ∧ (v = some (.str s) ∨ ∀ s', v ≠ some (.str s')) := by
  unfold setField
  cases old with
  | none => simp
  | some v =>
    cases v with
    | none => simp
    | some val =>
      cases val with
      | null => exact absurd rfl hnull
      | str s' => simp [eq_comm]
      | int _ => simp
      | double _ => simp

end Fields

section Matching

variable {key k : List UInt8}

/-- The children that a lookup may find. -/
def matching (ihash : BitVec 32) (key : List UInt8) (cs : List Var) : List Var :=
  cs.filter fun c => (c.hashcode = 0 ∨ c.hashcode = hashToken ihash key) ∧ c.id.str = key

theorem childIn_eq_head? (cs : List Var) : childIn ihash key cs = (matching ihash key cs).head? := by
  induction cs with
  | nil => rfl
  | cons c cs ih =>
    rw [childIn_cons, matching, List.filter_cons, ih]
    simp only [decide_eq_true_eq]
    split <;> rfl

theorem matching_cons_ne {c : Var} (hc : c.id.str ≠ key) (cs : List Var) :
    matching ihash key (c :: cs) = matching ihash key cs := by
  rw [matching, List.filter_cons_of_neg, matching]
  rw [decide_eq_true_eq]
  exact fun h => hc h.2

theorem matching_append (cs ds : List Var) :
    matching ihash key (cs ++ ds) = matching ihash key cs ++ matching ihash key ds :=
  List.filter_append cs ds

theorem matching_rehashed {cs cs' : List Var} (h : List.Forall₂ (Var.Rehashed ihash) cs cs') :
    List.Forall₂ (Var.Rehashed ihash) (matching ihash k cs) (matching ihash k cs') := by
  induction h with
  | nil => exact .nil
  | @cons c c' cs cs' hc _ ih =>
    have hcond : ((c'.hashcode = 0 ∨ c'.hashcode = hashToken ihash k) ∧ c'.id.str = k) ↔
        ((c.hashcode = 0 ∨ c.hashcode = hashToken ihash k) ∧ c.id.str = k) := by
      rw [hc.id_eq]
      refine and_congr_left fun hid => ?_
      obtain rfl | ⟨h0, rfl⟩ := hc
      · rfl
      · rw [Var.hashcode_setHashcode, hid, h0]
        simp
    unfold matching at ih ⊢
    rw [List.filter_cons, List.filter_cons]
    simp only [hcond]
    split
    · exact .cons hc ih
    · exact ih

theorem matching_set {cs : List Var} {i : Nat} {c w : Var} (hget : cs[i]? = some c) (hc : c.id.str ≠ k)
    (hw : w.id.str ≠ k) : matching ihash k (cs.set i w) = matching ihash k cs := by
  induction cs generalizing i with
  | nil => rfl
  | cons d cs ih =>
    cases i with
    | zero =>
      obtain rfl : d = c := by simpa using hget
      rw [List.set_cons_zero, matching_cons_ne hw, matching_cons_ne hc]
    | succ i =>
      have ih := ih (i := i) (by simpa using hget)
      unfold matching at ih ⊢
      rw [List.set_cons_succ, List.filter_cons, List.filter_cons, ih]

/-- What a deletion leaves behind. -/
theorem matching_eraseIdx {cs : List Var} {i : Nat} {c : Var}
    (hfound : (findKeyIn ihash key cs).2 = some (i, c)) :
    matching ihash key ((findKeyIn ihash key cs).1.eraseIdx i) =
      (matching ihash key (findKeyIn ihash key cs).1).tail := by
  induction cs generalizing i with
  | nil => cases hfound
  | cons d cs ih =>
    simp only [findKeyIn] at hfound ⊢
    split at hfound
    · rename_i hd
      obtain ⟨rfl, rfl⟩ := Prod.mk.inj (Option.some.inj hfound)
      rw [if_pos hd, List.eraseIdx_cons_zero, matching, matching,
        List.filter_cons_of_pos (by simpa using hd), List.tail_cons]
    · rename_i hd
      obtain ⟨⟨j, r⟩, hj, heq⟩ := Option.map_eq_some_iff.mp hfound
      obtain ⟨rfl, rfl⟩ := Prod.mk.inj heq
      have hskip (xs : List Var) : matching ihash key ((if d.hashcode = 0 then
          d.setHashcode (hashToken ihash d.id.str) else d) :: xs) = matching ihash key xs := by
        rw [matching, List.filter_cons_of_neg, matching]
        rw [decide_eq_true_eq]
        rintro ⟨hh, hk⟩
        refine hd ⟨?_, ?_⟩
        · split at hh
          · exact .inl ‹_›
          · exact hh
        · split at hk
          · rwa [Var.id_setHashcode] at hk
          · exact hk
      rw [if_neg hd, List.eraseIdx_cons_succ, hskip, hskip, ih hj]

/-- All fields of a name, of which a lookup finds the first. -/
def fieldsOf (ihash : BitVec 32) (v : Var) (x : String) : List (Option VarValue) :=
  (matching ihash (asc x) v.children).map Var.scalar

theorem map_scalar_matching_rehashed {cs cs' : List Var} (h : List.Forall₂ (Var.Rehashed ihash) cs cs') :
    (matching ihash k cs').map Var.scalar = (matching ihash k cs).map Var.scalar := by
  have hm := matching_rehashed (k := k) h
  generalize matching ihash k cs = ms at hm ⊢
  generalize matching ihash k cs' = ms' at hm ⊢
  induction hm with
  | nil => rfl
  | cons hc _ ih => rw [List.map_cons, List.map_cons, hc.scalar, ih]

theorem defField_eq_head? (id : FString) (h : BitVec 32) (cs : List Var) (x : String) :
    defField ihash (.dict id h cs) x = (fieldsOf ihash (.dict id h cs) x).head? := by
  rw [defField, varChild_dict, childIn_eq_head?, fieldsOf, Var.children, List.head?_map]

theorem fieldsOf_set {v : Var} (hv : v.isNode true) (val : VarValue) (hx : FitsKey (asc x))
    (hne : asc x ≠ asc y) : fieldsOf ihash (varSetForkey ihash v (asc x) val) y = fieldsOf ihash v y := by
  cases v with
  | leaf _ _ _ => cases hv
  | array _ _ _ => cases hv
  | dict id h cs =>
    have hr := varGetOrMake_dict ihash (asc x) id h cs
    have hid := id_varSet (varGetOrMake ihash (.dict id h cs) (asc x)).2.2 val
    simp only [varSetForkey, fieldsOf]
    generalize varGetOrMake ihash (.dict id h cs) (asc x) = r at hr hid
    cases hr with
    | @found cs' i res hre hget _ hkey =>
      have hne : res.id.str ≠ asc y := by rwa [hkey]
      have hset := @matching_set ihash (asc y) _ _ _ (varSet res val) hget hne (by rwa [hid])
      rw [Var.children, ← map_scalar_matching_rehashed hre, ← hset]
      rfl
    | orphan hre hempty => exact absurd (hx.str.symm.trans hempty) hx.ne
    | @linked cs' i hre _ _ hi =>
      have hw : (varSet (.leaf (FString.strncpy (asc x)) (hashToken ihash (asc x)) .null) val).id.str ≠ asc y := by
        rwa [id_varSet, Var.id, hx.str]
      simp only [Var.put, Var.children, hi]
      rw [List.set_append_right _ _ (Nat.le_refl _), Nat.sub_self, List.set_cons_zero, matching_append,
        matching_cons_ne hw, ← map_scalar_matching_rehashed hre]
      simp [matching]

/-- A field that was deleted is the next one of its name. -/
theorem defField_delete_own {v : Var} (hv : v.isNode true) (x : String) :
    defField ihash (varDeleteKey ihash v (asc x)) x = (fieldsOf ihash v x).tail.head? := by
  cases v with
  | leaf _ _ _ => cases hv
  | array _ _ _ => cases hv
  | dict id h cs =>
    have hre := @map_scalar_matching_rehashed ihash (asc x) _ _ (findKeyIn_rehashed ihash (asc x) cs)
    simp only [varDeleteKey, varFindKey]
    cases hfound : (findKeyIn ihash (asc x) cs).2 with
    | some p =>
      have herase := matching_eraseIdx (i := p.1) (c := p.2) hfound
      show defField ihash (.dict id h ((findKeyIn ihash (asc x) cs).1.eraseIdx p.1)) x = _
      rw [defField_eq_head?, fieldsOf, Var.children, herase, List.map_tail, hre]
      rfl
    | none =>
      have hnone : matching ihash (asc x) (findKeyIn ihash (asc x) cs).1 = [] := by
        have hlen := congrArg List.length hre
        rw [List.length_map, List.length_map] at hlen
        rw [← List.length_eq_zero_iff, hlen, List.length_eq_zero_iff, ← List.head?_eq_none_iff,
          ← childIn_eq_head?, childIn, hfound]
        rfl
      show defField ihash (.dict id h (findKeyIn ihash (asc x) cs).1) x = _
      rw [hnone] at hre
      rw [defField_eq_head?, fieldsOf, Var.children, hnone, fieldsOf, Var.children, ← hre]
      rfl

end Matching

section Definition

variable {ctx : MetaCtx} {file : MetaFile} {a : MeterPath} {id : UrlText} {t : List UInt8} {doc doc' : Var}

/-- The definition of a meter that is stored. -/
def storedMeter (ihash : BitVec 32) (id : UrlText) (doc : Var) : Option Var :=
  (varChild ihash doc (asc "meter")).bind fun m => varChild ihash m id

def meterField (ihash : BitVec 32) (id : UrlText) (doc : Var) (x : String) : Option (Option VarValue) :=
  (storedMeter ihash id doc).bind fun m => defField ihash m x

/-- A field as it is when a text, or none, was given for it. -/
def given (o : Option (List UInt8)) : Option (Option VarValue) := o.map fun s => some (.str s)

def definedKeys : List (List UInt8) := ["type", "description", "unit"].map asc

/-- The text of the request for a field. -/
def MetaCtx.sent (ctx : MetaCtx) (x : String) : Option (List UInt8) :=
  reqText ctx (ctx.bodyDict (asc "meter")) x

/-- What a request that defines a meter is to do: it is answered, and the definition has the type, the
description and, unless it is a table, the unit that were sent. -/
structure DefinesMeter (ctx : MetaCtx) (a : MeterPath) (file : MetaFile) (id : UrlText) (t : List UInt8)
    (doc doc' : Var) : Prop where
  run : cmdTenantSetMeter ctx a file = .ok doc'
  stored : ((MetaCmd.set_meter a).ending ctx file).stored = dbSetMetadata file doc'
  answer : ∃ env, ((MetaCmd.set_meter a).ending ctx file).answer = .ok ⟨200, env⟩
  type : meterField ctx.ihash id doc' "type" = given (some t)
  description : meterField ctx.ihash id doc' "description" = given (ctx.sent "description")
  unit : meterField ctx.ihash id doc' "unit" =
    if t = asc "table" then meterField ctx.ihash id doc "unit" else given (ctx.sent "unit")
  fields : ∀ k, k ∉ definedKeys →
    ((storedMeter ctx.ihash id doc').bind fun m => varChild ctx.ihash m k).map Var.bare =
      ((storedMeter ctx.ihash id doc).bind fun m => varChild ctx.ihash m k).map Var.bare
  others : EditsOnly ctx.ihash id doc doc'

/-- A field that a text can be written to: there is none, or there is a text. -/
def Settable (old : Option (Option VarValue)) : Prop := ∀ v, old = some v → ∃ s, v = some (.str s)

/-- The unit comes out right: it is looked at exactly for what is no table, or it makes no
difference. It is the description, not the type, that is compared with the name of the type. -/
def UnitRight (ihash : BitVec 32) (t d : List UInt8) (unit : Option (List UInt8)) (old : Option Var) : Prop :=
  let oldUnit := old.bind fun m => defField ihash m "unit"
  if d = asc "table" then t = asc "table" ∨ oldUnit = given unit
  else if t = asc "table" then
    (unit = none → ∀ m, old = some m → (fieldsOf ihash m "unit").tail.head? = (fieldsOf ihash m "unit").head?) ∧
      ∀ u, unit = some u → ∃ v, oldUnit = some v ∧ (v = some (.str u) ∨ ∀ s, v ≠ some (.str s))
  else (unit = none → ∀ m, old = some m → (fieldsOf ihash m "unit").length ≤ 1) ∧
    ∀ u, unit = some u → Settable oldUnit

/-- The condition under which a meter is defined. -/
structure Definable (ctx : MetaCtx) (id : UrlText) (t : List UInt8) (doc : Var) : Prop where
  meters : ∀ m, varChild ctx.ihash doc (asc "meter") = some m → m.isNode true
  meter : ∀ m, storedMeter ctx.ihash id doc = some m → m.isNode true
  type : Settable (meterField ctx.ihash id doc "type")
  description : Settable (meterField ctx.ihash id doc "description")
  unit : ∃ d, ctx.sent "description" = some d ∧
    UnitRight ctx.ihash t d (ctx.sent "unit") (storedMeter ctx.ihash id doc)

theorem fitsKey_type : FitsKey (asc "type") := fitsKey_of_short (by decide) (by decide) (by decide)

theorem fitsKey_description : FitsKey (asc "description") :=
  fitsKey_of_short (by decide) (by decide) (by decide)

theorem fitsKey_unit : FitsKey (asc "unit") := fitsKey_of_short (by decide) (by decide) (by decide)

/-- The definition after the type and the description are written. -/
def described (ihash : BitVec 32) (t d : List UInt8) (v : Var) : Var :=
  varSetForkey ihash (varSetForkey ihash v (asc "type") (.str t)) (asc "description") (.str d)

theorem described_fields {v : Var} (hv : v.isNode true) (t d : List UInt8) :
    defField ihash (described ihash t d v) "type" = setField (defField ihash v "type") t ∧
      defField ihash (described ihash t d v) "description" = setField (defField ihash v "description") d ∧
      defField ihash (described ihash t d v) "unit" = defField ihash v "unit" := by
  refine ⟨?_, ?_, ?_⟩
  · rw [described, defField_set_other _ _ fitsKey_description (by decide), defField_set_own hv fitsKey_type]
  · rw [described, defField_set_own (varSetForkey_node hv _ _) fitsKey_description,
      defField_set_other _ _ fitsKey_type (by decide)]
  · rw [described, defField_set_other _ _ fitsKey_description (by decide),
      defField_set_other _ _ fitsKey_type (by decide)]

/-- The unit is written or deleted, if it is looked at. -/
def withUnit (ihash : BitVec 32) (d : List UInt8) (unit : Option (List UInt8)) (v : Var) : Var :=
  if d = asc "table" then v
  else match unit with
    | none => varDeleteKey ihash v (asc "unit")
    | some u => varSetForkey ihash v (asc "unit") (.str u)

theorem setMeterFields_ok {d : List UInt8} (ht : reqType ctx = some t) (hlen : t.length ≤ 128)
    (hd : ctx.sent "description" = some d) (hdlen : d.length ≤ 128)
    (hu : ∀ u, ctx.sent "unit" = some u → u.length ≤ 128) (v : Var) :
    setMeterFields ctx (ctx.bodyDict (asc "meter")) (some v) =
      .ok (some (withUnit ctx.ihash d (ctx.sent "unit") (described ctx.ihash t d v))) := by
  rw [setMeterFields_described ht hlen hd hdlen]
  by_cases htable : d = asc "table"
  · simp only [htable, withUnit, described]
    rfl
  · simp only [ne_eq, htable, not_false_eq_true, if_true, withUnit, if_false]
    cases hunit : ctx.sent "unit" with
    | none => exact copystr_delete hunit
    | some u => exact copystr_set hunit (hu u hunit)

section Outcome

variable {d : List UInt8} {unit : Option (List UInt8)} {v : Var}

theorem described_node (hv : v.isNode true) (t d : List UInt8) : (described ihash t d v).isNode true :=
  varSetForkey_node (varSetForkey_node hv _ _) _ _

theorem withUnit_other (k : List UInt8) (hk : asc "unit" ≠ k) :
    (varChild ihash (withUnit ihash d unit v) k).map Var.bare = (varChild ihash v k).map Var.bare ∧
      (varChild ihash (withUnit ihash d unit v) k).map Var.scalar = (varChild ihash v k).map Var.scalar := by
  unfold withUnit
  split
  · exact ⟨rfl, rfl⟩
  · split
    · have hrel := @varDeleteKey_other ihash (asc "unit") k v hk
      exact ⟨map_bare_of_rel hrel, map_scalar_of_rel hrel⟩
    · rename_i u
      have hrel := @varSetForkey_other ihash (asc "unit") k v (.str u) (by rwa [fitsKey_unit.str])
      exact ⟨map_bare_of_rel hrel, map_scalar_of_rel hrel⟩

theorem described_other (k : List UInt8) (hk : k ∉ definedKeys) :
    (varChild ihash (described ihash t d v) k).map Var.bare = (varChild ihash v k).map Var.bare := by
  have htype : asc "type" ≠ k := fun h => hk (h ▸ by decide)
  have hdesc : asc "description" ≠ k := fun h => hk (h ▸ by decide)
  rw [described, map_bare_of_rel (varSetForkey_other _ _ (by rwa [fitsKey_description.str])),
    map_bare_of_rel (varSetForkey_other _ _ (by rwa [fitsKey_type.str]))]

/-- The unit of the definition that is stored. -/
theorem unit_of_withUnit (hv : v.isNode true) :
    defField ihash (withUnit ihash d unit (described ihash t d v)) "unit" =
      if d = asc "table" then defField ihash v "unit"
      else unit.elim (fieldsOf ihash v "unit").tail.head? fun u => setField (defField ihash v "unit") u := by
  have hfield : defField ihash (described ihash t d v) "unit" = defField ihash v "unit" :=
    (described_fields hv t d).2.2
  have hnode : (varSetForkey ihash v (asc "type") (.str t)).isNode true := varSetForkey_node hv _ _
  have hfields : fieldsOf ihash (described ihash t d v) "unit" = fieldsOf ihash v "unit" := by
    rw [described, fieldsOf_set hnode _ fitsKey_description (by decide),
      fieldsOf_set hv _ fitsKey_type (by decide)]
  unfold withUnit
  split
  · exact hfield
  · cases unit with
    | none =>
      rw [Option.elim_none, ← hfields]
      exact defField_delete_own (described_node hv t d) "unit"
    | some u =>
      rw [Option.elim_some, ← hfield]
      exact defField_set_own (described_node hv t d) fitsKey_unit u

/-- Only texts, and no null, are set in a definition. -/
theorem unitRight_iff (hv : v.isNode true) (hnull : defField ihash v "unit" ≠ some (some .null)) :
    defField ihash (withUnit ihash d unit (described ihash t d v)) "unit" =
        (if t = asc "table" then defField ihash v "unit" else given unit) ↔
      UnitRight ihash t d unit (some v) := by
  have hhead : defField ihash v "unit" = (fieldsOf ihash v "unit").head? := by
    cases v with
    | leaf _ _ _ => cases hv
    | array _ _ _ => cases hv
    | dict id h cs => exact defField_eq_head? id h cs "unit"
  rw [unit_of_withUnit hv]
  unfold UnitRight
  by_cases hd : d = asc "table"
  · simp only [hd, if_true, Option.bind_some]
    by_cases ht : t = asc "table"
    · simp [ht]
    · simp [ht]
  · simp only [hd, if_false, Option.bind_some]
    cases unit with
    | none =>
      by_cases ht : t = asc "table"
      · simp [ht, hhead]
      · simp only [ht, if_false, given, Option.map_none, Option.elim_none, List.head?_eq_none_iff,
          Option.some.injEq, forall_eq', forall_const, reduceCtorEq, false_implies, and_true]
        generalize fieldsOf ihash v "unit" = fs
        cases fs with
        | nil => simp
        | cons x xs => cases xs <;> simp
    | some u =>
      by_cases ht : t = asc "table"
      · simp [ht, setField_same_iff hnull]
      · simp [ht, given, setField_eq_iff hnull, Settable]

end Outcome

section Slot

/-- The dict of the meters, where nothing else has its place. -/
theorem meters_slot (hmeters : ∀ m, varChild ctx.ihash doc (asc "meter") = some m → m.isNode true)
    (id : UrlText) : ∃ mid h ms,
      dictSlot ctx.ihash (asc "meter") (some doc) = some (.dict mid h ms) ∧
        storedMeter ctx.ihash id doc = childIn ctx.ihash id ms ∧
        meterIn ctx id doc = dictSlot ctx.ihash id (some (.dict mid h ms)) := by
  have hslot := @dictSlot_eq ctx.ihash (asc "meter") doc
  obtain ⟨mid, h, ms, hms, hchild⟩ : ∃ mid h ms,
      dictSlot ctx.ihash (asc "meter") (some doc) = some (.dict mid h ms) ∧
        storedMeter ctx.ihash id doc = childIn ctx.ihash id ms := by
    unfold storedMeter
    cases hm : varChild ctx.ihash doc (asc "meter") with
    | none =>
      rw [hm] at hslot
      exact ⟨_, _, _, hslot, rfl⟩
    | some m =>
      rw [hm] at hslot
      have hnode := hmeters m hm
      cases m with
      | leaf _ _ _ => cases hnode
      | array _ _ _ => cases hnode
      | dict mid h ms => exact ⟨mid, h, ms, hslot, rfl⟩
  have hget : (varGetDict ctx.ihash doc (asc "meter")).2 = some (.dict mid h ms) := hms
  refine ⟨mid, h, ms, hms, hchild, ?_⟩
  simp only [meterIn, hget]
  rfl

/-- The definition that is edited: the one that is stored, or an empty one. -/
structure MeterBase (ctx : MetaCtx) (id : UrlText) (doc c : Var) : Prop where
  slot : meterIn ctx id doc = some c
  node : c.isNode true
  field : ∀ x, meterField ctx.ihash id doc x = defField ctx.ihash c x
  child : ∀ k, ((storedMeter ctx.ihash id doc).bind fun m => varChild ctx.ihash m k) = varChild ctx.ihash c k
  noNull : ∀ x, defField ctx.ihash c x ≠ some (some .null)
  unit : ∀ d u, UnitRight ctx.ihash t d u (storedMeter ctx.ihash id doc) ↔
    UnitRight ctx.ihash t d u (some c)

theorem defField_ne_null {v : Var} (hv : v.Formed) (x : String) : defField ihash v x ≠ some (some .null) := by
  intro h
  obtain ⟨c, hc, hs⟩ := Option.map_eq_some_iff.mp h
  have hf := varChild_formed hv hc
  cases hf with
  | leaf hval =>
    obtain rfl := Option.some.inj hs
    exact hval
  | dict _ _ => cases hs
  | array _ _ => cases hs

theorem storedMeter_formed (hdoc : doc.Content true) {m : Var} (h : storedMeter ihash id doc = some m) :
    m.Formed := by
  obtain ⟨ms, hms, hm⟩ := Option.bind_eq_some_iff.mp h
  have hf : ms.Formed := by
    cases hdoc with
    | null => cases hms
    | dict hf => exact varChild_formed hf hms
  exact varChild_formed hf hm

/-- Where the metadata has room for a meter, an edit of its definition is stored. -/
theorem meter_slot (hdoc : doc.Content true) (hfit : FitsKey (ctx.meterid a))
    (hmeters : ∀ m, varChild ctx.ihash doc (asc "meter") = some m → m.isNode true)
    (hmeter : ∀ m, storedMeter ctx.ihash (ctx.meterid a) doc = some m → m.isNode true) (t : List UInt8) :
    ∃ c, MeterBase (t := t) ctx (ctx.meterid a) doc c ∧
      ∀ f doc', KeepsKey f → inMeter ctx a f doc = .ok doc' →
        ∃ c', f (some c) = .ok (some c') ∧ storedMeter ctx.ihash (ctx.meterid a) doc' = some c' := by
  obtain ⟨id, h, ms, hms, hchild, hin⟩ := meters_slot hmeters (ctx.meterid a)
  have hslot := @dictSlot_eq ctx.ihash (ctx.meterid a) (.dict id h ms)
  rw [varChild_dict, ← hchild] at hslot
  obtain ⟨c, hc, hbase⟩ : ∃ c, dictSlot ctx.ihash (ctx.meterid a) (some (.dict id h ms)) = some c ∧
      MeterBase (t := t) ctx (ctx.meterid a) doc c := by
    cases hm : storedMeter ctx.ihash (ctx.meterid a) doc with
    | none =>
      rw [hm] at hslot
      refine ⟨_, hslot, hin.trans hslot, rfl, fun x => ?_, fun k => ?_,
        fun x => by simp [defField, childIn, findKeyIn], fun d u => ?_⟩
      · rw [meterField, hm]
        rfl
      · rw [hm]
        rfl
      · have hfields : fieldsOf ctx.ihash
            (.dict (FString.strncpy (ctx.meterid a)) (hashToken ctx.ihash (ctx.meterid a)) []) "unit" = [] := rfl
        rw [hm]
        simp [UnitRight, defField, childIn, findKeyIn, hfields]
    | some m =>
      rw [hm] at hslot
      have hnode := hmeter m hm
      have hslot := hslot.trans (if_pos hnode)
      refine ⟨m, hslot, hin.trans hslot, hnode, fun x => ?_, fun k => ?_,
        defField_ne_null (storedMeter_formed hdoc hm), fun d u => by rw [hm]⟩
      · rw [meterField, hm, Option.bind_some]
      · rw [hm, Option.bind_some]
  refine ⟨c, hbase, ?_⟩
  intro f doc' hf hrun
  obtain ⟨v, hv, hrun⟩ := Outcome.bind_ok_iff.mp hrun
  obtain ⟨w, rfl, hw⟩ := inDictForkey_underMeters hdoc (inDictForkey_keepsKey f) hv
  obtain rfl := Except.ok.inj hrun
  obtain ⟨m', hm', hchild'⟩ := hw.edited _ hms
  obtain ⟨ns, child', heq, hf', hplaced⟩ := inDictForkey_placed hf hfit hm'
  obtain rfl := Option.some.inj heq
  rw [hc] at hf'
  obtain ⟨c', rfl, -, -⟩ := hf c child' hf'
  refine ⟨c', hf', ?_⟩
  have hown := hplaced.own c hc
  show (varChild ctx.ihash w (asc "meter")).bind _ = _
  rw [hchild']
  exact hown

/-- Something else in the place of the meters, or of the meter, is in the way. -/
theorem meter_blocked (hdoc : doc.Content true)
    {f : Option Var → Except Halt (Option Var)} (hnull : ∀ c, f none ≠ .ok c)
    (hrun : inMeter ctx a f doc = .ok doc') {c : Var}
    (hstored : storedMeter ctx.ihash (ctx.meterid a) doc' = some c) :
    (∀ m, varChild ctx.ihash doc (asc "meter") = some m → m.isNode true) ∧
      ∀ m, storedMeter ctx.ihash (ctx.meterid a) doc = some m → m.isNode true := by
  obtain ⟨v, hv, hr⟩ := Outcome.bind_ok_iff.mp hrun
  obtain ⟨w, rfl, hw⟩ := inDictForkey_underMeters hdoc (inDictForkey_keepsKey f) hv
  obtain rfl := Except.ok.inj hr
  have hmeters : ∀ m, varChild ctx.ihash doc (asc "meter") = some m → m.isNode true := by
    intro m hm
    by_contra hnode
    have hslot := @dictSlot_eq ctx.ihash (asc "meter") doc
    rw [hm] at hslot
    have hrel := hw.blocked (hslot.trans (if_neg hnode))
    rw [hm] at hrel
    obtain ⟨m', hm', hc⟩ := Option.bind_eq_some_iff.mp hstored
    rw [Option.getD_some] at hm'
    rw [hm'] at hrel
    cases hrel with
    | some hre =>
      rw [hre.varChild] at hc
      cases m with
      | leaf _ _ val => cases val <;> cases hc
      | array _ _ _ => cases hc
      | dict _ _ _ => exact hnode rfl
  refine ⟨hmeters, fun m hm => ?_⟩
  by_contra hnode
  obtain ⟨id, h, ms, hms, hchild, hin⟩ := meters_slot hmeters (ctx.meterid a)
  have hslot := @dictSlot_eq ctx.ihash (ctx.meterid a) (.dict id h ms)
  rw [varChild_dict, ← hchild, hm] at hslot
  obtain ⟨g, hg⟩ := @inMeter_bind ctx a f doc
  rw [hg, hin, hslot.trans (if_neg hnode)] at hrun
  obtain ⟨c', hc', -⟩ := Outcome.bind_ok_iff.mp hrun
  exact hnull c' hc'

/-- The response shows the definition. -/
theorem set_meter_answer (ha : setMeterid a = some id) {c : Var} (hdef : definedMeter ctx a file = some c)
    (hrun : cmdTenantSetMeter ctx a file = .ok doc') :
    ∃ env, ((MetaCmd.set_meter a).ending ctx file).answer = .ok ⟨200, env⟩ := by
  have hrun : (MetaCmd.set_meter a).run ctx file = .ok doc' := hrun
  have henv : (MetaCmd.set_meter a).env ctx.ihash = varAlloc .null := by
    simp [MetaCmd.env, MetaCmd.meterPath, ha]
  have hm : ctx.meterid a = id := meterid_of_accepted ha ctx
  have hfit := setMeterid_fitsKey ha
  have houter := @inResponse_dict ctx.ihash (FString.strncpy (asc "meter"))
    (by rw [fitsKey_meter.str]; exact fitsKey_meter.ne)
    (inResponse ctx.ihash id (copyFrom ctx.ihash (some c))) FString.empty 0
  have hinner := @inResponse_dict ctx.ihash (FString.strncpy id) (by rw [hfit.str]; exact hfit.ne)
    (copyFrom ctx.ihash (some c)) (FString.strncpy (asc "meter")) (hashToken ctx.ihash (asc "meter"))
  rw [hfit.str] at hinner
  rw [fitsKey_meter.str, hinner, ← inResponse_alloc] at houter
  simp only [MetaCmd.ending, hrun, MetaCmd.response, henv, hm, hdef, houter]
  exact ⟨_, rfl⟩

/-- The fields that are stored for a meter. -/
theorem fields_of_definition {c : Var} {d : List UInt8} {unit : Option (List UInt8)} (hnode : c.isNode true) :
    let c' := withUnit ihash d unit (described ihash t d c)
    defField ihash c' "type" = setField (defField ihash c "type") t ∧
      defField ihash c' "description" = setField (defField ihash c "description") d ∧
      ∀ k, k ∉ definedKeys → (varChild ihash c' k).map Var.bare = (varChild ihash c k).map Var.bare := by
  obtain ⟨htype, hdesc, -⟩ := @described_fields ihash c hnode t d
  refine ⟨?_, ?_, fun k hk => ?_⟩
  · rw [← htype]
    exact (withUnit_other (asc "type") (by decide)).2
  · rw [← hdesc]
    exact (withUnit_other (asc "description") (by decide)).2
  · have hunit : asc "unit" ≠ k := fun h => hk (h ▸ by decide)
    rw [(withUnit_other k hunit).1, described_other k hk]

/-- A meter is defined exactly if there is room for it, texts where texts go, a description, and the
unit comes out right. -/
theorem defines_meter_iff (ha : setMeterid a = some id)
    (hload : varLoadJson ctx.ihash file = .ok (some doc)) (ht : reqType ctx = some t) (hmem : t ∈ meterTypes)
    (hd : ∀ d, ctx.sent "description" = some d → d.length ≤ 128)
    (hu : ∀ u, ctx.sent "unit" = some u → u.length ≤ 128) :
    (∃ doc', DefinesMeter ctx a file id t doc doc') ↔ Definable ctx id t doc := by
  have hdoc := (varLoadJson_content hload).1
  have hm : ctx.meterid a = id := meterid_of_accepted ha ctx
  have hfit := setMeterid_fitsKey ha
  have hlen := length_meterTypes hmem
  have hkeeps := @setMeterFields_keepsKey ctx (ctx.bodyDict (asc "meter"))
  have hcmd : cmdTenantSetMeter ctx a file =
      inMeter ctx a (setMeterFields ctx (ctx.bodyDict (asc "meter"))) doc := by
    rw [cmdTenantSetMeter_known ht hmem, dbGetMetadata_eq hload, Outcome.ok_bind]
  subst hm
  -- the fields of what is stored, where there is room and a description
  have hfinal {c doc' : Var} {d : List UInt8} (hbase : MeterBase (t := t) ctx (ctx.meterid a) doc c)
      (hrun : cmdTenantSetMeter ctx a file = .ok doc') (hdesc : ctx.sent "description" = some d)
      (hst : storedMeter ctx.ihash (ctx.meterid a) doc' =
        some (withUnit ctx.ihash d (ctx.sent "unit") (described ctx.ihash t d c))) :
      DefinesMeter ctx a file (ctx.meterid a) t doc doc' ↔
        Settable (meterField ctx.ihash (ctx.meterid a) doc "type") ∧
        Settable (meterField ctx.ihash (ctx.meterid a) doc "description") ∧
        UnitRight ctx.ihash t d (ctx.sent "unit") (storedMeter ctx.ihash (ctx.meterid a) doc) := by
    obtain ⟨htype, hdescr, hother⟩ :=
      @fields_of_definition ctx.ihash t c d (ctx.sent "unit") hbase.node
    have hget (x : String) : meterField ctx.ihash (ctx.meterid a) doc' x = defField ctx.ihash
        (withUnit ctx.ihash d (ctx.sent "unit") (described ctx.ihash t d c)) x := by
      rw [meterField, hst, Option.bind_some]
    rw [hbase.field, hbase.field, hbase.unit, ← unitRight_iff hbase.node (hbase.noNull "unit"),
      Settable, Settable, ← setField_eq_iff (hbase.noNull "type") t,
      ← setField_eq_iff (hbase.noNull "description") d, ← htype, ← hdescr, ← hget, ← hget, ← hget]
    constructor
    · intro h
      refine ⟨h.type, ?_, ?_⟩
      · rw [h.description, hdesc]
        rfl
      · rw [h.unit, hbase.field]
    · rintro ⟨h₁, h₂, h₃⟩
      have hdef : definedMeter ctx a file =
          some (withUnit ctx.ihash d (ctx.sent "unit") (described ctx.ihash t d c)) := by
        simp only [definedMeter, dbGetMetadata_eq hload, hbase.slot, setMeterFields_ok ht hlen hdesc (hd d hdesc) hu]
      have hrun' : (MetaCmd.set_meter a).run ctx file = .ok doc' := hrun
      refine ⟨hrun, ?_, set_meter_answer ha hdef hrun, h₁, ?_, ?_, ?_, @MetaCmd.run_editsOnly ctx file a (.set_meter a) rfl _ ha _ _ hload hrun'⟩
      · simp only [MetaCmd.ending, hrun']
      · rw [h₂, hdesc]
        rfl
      · rw [h₃, hbase.field]
      · intro k hk
        rw [hst, hbase.child, Option.bind_some]
        exact hother k hk
  constructor
  · rintro ⟨doc', h⟩
    have hrun := h.run
    obtain ⟨c', hc', -⟩ := Option.bind_eq_some_iff.mp (h.type.trans rfl)
    rw [hcmd] at hrun
    have hnull : ∀ c, setMeterFields ctx (ctx.bodyDict (asc "meter")) none ≠ .ok c := by
      intro c hc
      rw [setMeterFields_null ht hlen] at hc
      cases hc
    obtain ⟨hmeters, hmeter⟩ := meter_blocked hdoc hnull hrun hc'
    obtain ⟨c, hbase, hedit⟩ := meter_slot hdoc hfit hmeters hmeter t
    obtain ⟨c'', hset, hst⟩ := hedit _ doc' hkeeps hrun
    cases hdesc : ctx.sent "description" with
    | none =>
      rw [setMeterFields_undescribed ht hlen hdesc] at hset
      cases hset
    | some d =>
      rw [setMeterFields_ok ht hlen hdesc (hd d hdesc) hu] at hset
      rw [← Option.some.inj (Except.ok.inj hset)] at hst
      obtain ⟨h₁, h₂, h₃⟩ := (hfinal hbase h.run hdesc hst).mp h
      exact ⟨hmeters, hmeter, h₁, h₂, d, hdesc, h₃⟩
  · rintro ⟨hmeters, hmeter, h₁, h₂, d, hdesc, h₃⟩
    obtain ⟨c, hbase, hedit⟩ := meter_slot hdoc hfit hmeters hmeter t
    have hset := setMeterFields_ok ht hlen hdesc (hd d hdesc) hu c
    obtain ⟨g, hg⟩ := @inMeter_bind ctx a (setMeterFields ctx (ctx.bodyDict (asc "meter"))) doc
    rw [hbase.slot, hset, Outcome.ok_bind] at hg
    obtain ⟨c', hc', hst⟩ := hedit _ _ hkeeps hg
    rw [hset] at hc'
    rw [← Option.some.inj (Except.ok.inj hc')] at hst
    exact ⟨_, (hfinal hbase (hcmd.trans hg) hdesc hst).mpr ⟨h₁, h₂, h₃⟩⟩

/-- A definition in the body of a request. -/
def meterBody (fields : List (String × String)) : Var :=
  .dict FString.empty 0 [parsedKey "meter" fun id h => .dict id h
    (fields.map fun f => parsedKey f.1 fun id h => .leaf id h (.str (asc f.2)))]

/-- `{"meter": {"type": "integer", "description": "in"}}` -/
def describedCtx : MetaCtx := bodyCtx (meterBody [("type", "integer"), ("description", "in")])

/-- A meter with a type and a description. -/
theorem defines_meter_described :
    (∃ doc', DefinesMeter describedCtx shortPath nameFile (asc "net/in") (asc "integer") nameDoc doc') ↔
      Definable describedCtx (asc "net/in") (asc "integer") nameDoc := by
  refine defines_meter_iff (by decide) rfl (by decide) (by decide) ?_ ?_
  · have hsent : describedCtx.sent "description" = some (asc "in") := by decide
    rw [hsent]
    simp only [Option.some.injEq, forall_eq']
    decide
  · have hsent : describedCtx.sent "unit" = none := by decide
    simp [hsent]

/-- `{"meter": {"type": "integer"}}` -/
def undescribedBody : CString :=
  ⟨asc "\x7b\"meter\": \x7b\"type\": \"integer\"\x7d\x7d", by decide +kernel⟩

def undescribedCtx : MetaCtx := bodyCtx (meterBody [("type", "integer")])

/-- A meter without a description is not defined: the process ends. -/
theorem undescribed_not_defined : parseBody 5138 (some undescribedBody) = .ok undescribedCtx.bodyjson ∧
    varLoadJson 5138 nameFile = .ok (some nameDoc) ∧
    ¬ ∃ doc', DefinesMeter undescribedCtx shortPath nameFile (asc "net/in") (asc "integer") nameDoc doc' := by
  refine ⟨rfl, rfl, ?_⟩
  rintro ⟨doc', h⟩
  have hfault : cmdTenantSetMeter undescribedCtx shortPath nameFile = .error (.fault .nullPointer) := rfl
  cases hfault.symm.trans h.run

end Slot

end Definition

end Opticon
