import Opticon.Api.Privileged
import Opticon.Collector.Metadata
import Opticon.Var.ChildLaws

/-! Which metadata the collector reads to the end. -/

namespace Opticon

variable {ihash : BitVec 32}

/-- The child under a key is a dictionary, if there is one. -/
def Var.DictUnder (ihash : BitVec 32) (key : List UInt8) (v : Var) : Prop :=
  ∀ c, varChild ihash v key = some c → c.isNode true = true

section Getters

theorem varGetDict_snd (v : Var) (key : List UInt8) :
    (varGetDict ihash v key).2 = match varChild ihash v key with
      | some c => if c.isNode true then some c else none
      | none => some (.dict (FString.strncpy key) (hashToken ihash key) []) :=
  varGetDictForkey_snd v key

theorem varGetDict_isSome {v : Var} {key : List UInt8} :
    (varGetDict ihash v key).2.isSome ↔ v.DictUnder ihash key := by
  rw [varGetDict_snd, Var.DictUnder]
  cases varChild ihash v key with
  | none => simp
  | some c => simp

/-- What is found under a key is the same after another one was looked up. -/
theorem varGetDict_child_ne (v : Var) {key k : List UInt8} (hne : (FString.strncpy key).str ≠ k) :
    Option.Rel (Var.Rehashed ihash) (varChild ihash v k) (varChild ihash (varGetDict ihash v key).1 k) :=
  varGetDictForkey_child_ne v hne

theorem varGetDict_rel {v v' : Var} {k : List UInt8}
    (h : Option.Rel (Var.Rehashed ihash) (varChild ihash v k) (varChild ihash v' k)) :
    Option.Rel (Var.Rehashed ihash) (varGetDict ihash v k).2 (varGetDict ihash v' k).2 := by
  rw [varGetDict_snd, varGetDict_snd]
  generalize varChild ihash v k = o at h ⊢
  generalize varChild ihash v' k = o' at h ⊢
  cases h with
  | none => exact .some (.inl rfl)
  | some hc =>
    simp only [hc.isNode]
    split
    · exact .some hc
    · exact .none

theorem varGetDict_id (v : Var) (key : List UInt8) : (varGetDict ihash v key).1.id = v.id := by
  rw [varGetDict, varGetDictForkey_fst]
  have hdict (id : FString) (h : BitVec 32) (cs : List Var) :
      (varForkey ihash (.dict id h cs) key fun id h => Var.node true id h []).1.id = id := by
    have hr := varForkey_dict ihash key (fun i h => Var.id_node true i h [])
      (fun i h => Var.hashcode_node true i h []) id h cs
    generalize varForkey ihash (.dict id h cs) key _ = r at hr ⊢
    cases hr <;> rfl
  cases v with
  | dict id h cs => exact hdict id h cs
  | array id h cs =>
    simp only [varForkey, varFindKey, varLink]
    split <;> split <;> rfl
  | leaf id h val =>
    cases val with
    | null => exact hdict id h []
    | int _ => rw [varForkey_leaf rfl]
    | double _ => rw [varForkey_leaf rfl]
    | str _ => rw [varForkey_leaf rfl]

theorem varChild_not_dict {c : Var} (h : c.isNode true = false) (k : List UInt8) :
    varChild ihash c k = none := by
  cases c with
  | leaf id h' val => cases val <;> rfl
  | dict _ _ _ => cases h
  | array _ _ _ => rfl

end Getters

section Levels

/-- A level that has members has a comparison, and a text to compare to where texts are
compared. -/
def Var.ReadsLevel (ihash : BitVec 32) (tp : MeterId) (c : Var) : Prop :=
  c.children = [] ∨ ∃ cmp, varGetStrForkey ihash c (asc "cmp") = some cmp ∧
    (tp = MTYPE_STR → cmp = asc "eq" → (varGetStrForkey ihash c (asc "val")).isSome)

theorem makeWatcher_ok_iff {id mtp : MeterId} {v : Var} {vweight : ℚ} {tr : Watchtrigger} :
    (∃ ws, makeWatcher ihash id mtp v vweight tr = .ok ws) ↔
      ∃ cmp, varGetStrForkey ihash v (asc "cmp") = some cmp ∧
        (mtp = MTYPE_STR → cmp = asc "eq" → (varGetStrForkey ihash v (asc "val")).isSome) := by
  have hint : MTYPE_STR ≠ MTYPE_INT := by decide
  have hfrac : MTYPE_STR ≠ MTYPE_FRAC := by decide
  have hcount : asc "eq" ≠ asc "count" := by decide
  simp only [makeWatcher]
  cases varGetStrForkey ihash v (asc "cmp") with
  | none => simp
  | some cmp =>
    by_cases hstr : mtp = MTYPE_STR ∧ cmp = asc "eq"
    · obtain ⟨rfl, rfl⟩ := hstr
      simp only [if_neg hint, if_neg hfrac, if_neg hcount, and_self, if_true]
      cases varGetStrForkey ihash v (asc "val") <;> simp
    · refine iff_of_true ?_ ⟨cmp, rfl, fun htp hcmp => absurd ⟨htp, hcmp⟩ hstr⟩
      simp only [if_neg hstr]
      repeat' split
      all_goals exact ⟨_, rfl⟩

theorem makeWatcher_rehashed {c c' : Var} (h : c.Rehashed ihash c') (id mtp : MeterId) (vweight : ℚ)
    (tr : Watchtrigger) :
    makeWatcher ihash id mtp c' vweight tr = makeWatcher ihash id mtp c vweight tr := by
  simp only [makeWatcher, varGetStrForkey, varGetIntForkey, varGetDoubleForkey, h.varChild]
  rfl

theorem levelWatcher_rel {v v' : Option Var} (h : Option.Rel (Var.Rehashed ihash) v v')
    (id mtp : MeterId) (vweight : ℚ) (tr : Watchtrigger) :
    levelWatcher ihash id mtp v' vweight tr = levelWatcher ihash id mtp v vweight tr := by
  cases h with
  | none => rfl
  | some hc => simp only [levelWatcher, hc.children, makeWatcher_rehashed hc]

theorem levelWatcher_ok_iff {id mtp : MeterId} {v : Var} {level : List UInt8} {vweight : ℚ}
    {tr : Watchtrigger} :
    (∃ ws, levelWatcher ihash id mtp (varGetDict ihash v level).2 vweight tr = .ok ws) ↔
      v.DictUnder ihash level ∧ ∀ c, varChild ihash v level = some c → c.ReadsLevel ihash mtp := by
  rw [varGetDict_snd, Var.DictUnder]
  cases varChild ihash v level with
  | none => simp [levelWatcher, Var.children]
  | some c =>
    cases hc : c.isNode true with
    | false => simp [levelWatcher, hc]
    | true =>
      simp only [if_true, levelWatcher, Option.some.injEq, forall_eq', hc, true_and, Var.ReadsLevel]
      by_cases hnil : c.children = []
      · simp [hnil]
      · rw [if_neg hnil, makeWatcher_ok_iff]
        simp [hnil]

end Levels

section Watchers

/-- The type that the configuration has for a meter. -/
def defType (ihash : BitVec 32) (watchdef : Option Var) (id : FString) : Option (List UInt8) :=
  watchdef.bind fun v => (varChild ihash v id.str).bind fun c => varGetStrForkey ihash c (asc "type")

theorem fallbackType_snd (watchdef : Option Var) (id : FString) :
    (fallbackType ihash watchdef id).2 = defType ihash watchdef id := by
  cases watchdef with
  | none => rfl
  | some v =>
    simp only [fallbackType, defType, varGetDict_snd, Option.bind_some]
    cases varChild ihash v id.str with
    | none => rfl
    | some c =>
      cases hc : c.isNode true with
      | true => simp [hc]
      | false => simp [hc, varGetStrForkey, varChild_not_dict hc]

/-- A definition that is added to those of the configuration has no type. -/
theorem defType_fallbackType (watchdef : Option Var) (id id' : FString) :
    defType ihash (fallbackType ihash watchdef id).1 id' = defType ihash watchdef id' := by
  cases watchdef with
  | none => rfl
  | some v =>
    simp only [fallbackType, defType, Option.bind_some, varGetDict]
    obtain hrel | ⟨hnone, -, hnew⟩ := @varGetDictForkey_childs ihash v id.str id'.str
    · generalize varChild ihash v id'.str = o at hrel ⊢
      generalize varChild ihash _ id'.str = o' at hrel ⊢
      cases hrel with
      | none => rfl
      | some hc => simp only [Option.bind_some, varGetStrForkey, hc.varChild]
    · rw [hnone, hnew]
      rfl

/-- The type of a meter, its own or that of the configuration. -/
def meterType (ihash : BitVec 32) (watchdef : Option Var) (mdef : Var) : Option (List UInt8) :=
  (varGetStrForkey ihash mdef (asc "type")).or (defType ihash watchdef mdef.id)

theorem isSome_rel {v v' : Option Var} (h : Option.Rel (Var.Rehashed ihash) v v') :
    v'.isSome = v.isSome := by
  cases h <;> rfl

theorem populateLevels_rel {v₁ v₂ v₃ v₁' v₂' v₃' : Option Var}
    (h₁ : Option.Rel (Var.Rehashed ihash) v₁ v₁') (h₂ : Option.Rel (Var.Rehashed ihash) v₂ v₂')
    (h₃ : Option.Rel (Var.Rehashed ihash) v₃ v₃') (name : FString) (type : Option (List UInt8)) :
    populateLevels ihash name type v₁' v₂' v₃' = populateLevels ihash name type v₁ v₂ v₃ := by
  simp only [populateLevels, isSome_rel h₁, isSome_rel h₂, isSome_rel h₃, levelWatcher_rel h₁,
    levelWatcher_rel h₂, levelWatcher_rel h₃]

/-- What the loop does with a definition, in terms of the levels that it has. -/
theorem populateMeter_eq (watchdef : Option Var) (mdef : Var) :
    ∃ watchdef', (∀ id, defType ihash watchdef' id = defType ihash watchdef id) ∧
      populateMeter ihash watchdef mdef = (do
        let ws ← populateLevels ihash mdef.id (meterType ihash watchdef mdef)
          (varGetDict ihash mdef (asc "warning")).2 (varGetDict ihash mdef (asc "alert")).2
          (varGetDict ihash mdef (asc "critical")).2
        return (ws, watchdef')) := by
  have hstep (v : Var) (key k : List UInt8) (hne : (FString.strncpy key).str ≠ k) :=
    @varGetDict_child_ne ihash v key k hne
  have halert := varGetDict_rel (hstep mdef (asc "warning") (asc "alert") (by decide))
  have hcrit := varGetDict_rel (hstep mdef (asc "warning") (asc "critical") (by decide))
  have htype := varGetStrForkey_of_rel (hstep mdef (asc "warning") (asc "type") (by decide))
  have hid := @varGetDict_id ihash mdef (asc "warning")
  simp only [populateMeter]
  generalize (varGetDict ihash mdef (asc "warning")).1 = m₁ at halert hcrit htype hid ⊢
  have hcrit' := varGetDict_rel (hstep m₁ (asc "alert") (asc "critical") (by decide))
  have htype' := varGetStrForkey_of_rel (hstep m₁ (asc "alert") (asc "type") (by decide))
  have hid' := @varGetDict_id ihash m₁ (asc "alert")
  generalize (varGetDict ihash m₁ (asc "alert")).1 = m₂ at hcrit' htype' hid' ⊢
  have htype'' := varGetStrForkey_of_rel (hstep m₂ (asc "critical") (asc "type") (by decide))
  have hid'' := @varGetDict_id ihash m₂ (asc "critical")
  generalize (varGetDict ihash m₂ (asc "critical")).1 = m₃ at htype'' hid'' ⊢
  have hrefl (v : Option Var) : Option.Rel (Var.Rehashed ihash) v v := by
    cases v with
    | none => exact .none
    | some _ => exact .some (.inl rfl)
  rw [htype'', htype', htype, hid'', hid', hid, populateLevels_rel (hrefl _) (hrefl _) hcrit',
    populateLevels_rel (hrefl _) halert hcrit]
  cases hown : varGetStrForkey ihash mdef (asc "type") with
  | some type => exact ⟨watchdef, fun _ => rfl, by simp only [meterType, hown, Option.some_or]⟩
  | none =>
    refine ⟨_, defType_fallbackType watchdef mdef.id, ?_⟩
    simp only [meterType, hown, Option.none_or, fallbackType_snd]

/-- The levels of a definition are no dictionaries, or all that there are can be read. -/
def Var.ReadsMeter (ihash : BitVec 32) (watchdef : Option Var) (mdef : Var) : Prop :=
  ∀ tp, (meterType ihash watchdef mdef).bind watcherMtype = some tp →
    (∀ level ∈ watcherLevels, ¬ mdef.DictUnder ihash level) ∨
      ∀ level ∈ watcherLevels, mdef.DictUnder ihash level ∧
        ∀ c, varChild ihash mdef level = some c → c.ReadsLevel ihash tp

theorem populateLevels_ok_iff {mdef : Var} {name : FString} {type : Option (List UInt8)} :
    (∃ ws, populateLevels ihash name type (varGetDict ihash mdef (asc "warning")).2
      (varGetDict ihash mdef (asc "alert")).2 (varGetDict ihash mdef (asc "critical")).2 = .ok ws) ↔
      ∀ tp, type.bind watcherMtype = some tp →
        (∀ level ∈ watcherLevels, ¬ mdef.DictUnder ihash level) ∨
          ∀ level ∈ watcherLevels, mdef.DictUnder ihash level ∧
            ∀ c, varChild ihash mdef level = some c → c.ReadsLevel ihash tp := by
  have hlevels {P : List UInt8 → Prop} : (∀ level ∈ watcherLevels, P level) ↔
      P (asc "warning") ∧ P (asc "alert") ∧ P (asc "critical") := by
    simp [watcherLevels]
  simp only [populateLevels, hlevels]
  split
  · rename_i hsome
    simp only [varGetDict_isSome] at hsome
    cases type.bind watcherMtype with
    | none => simp
    | some tp =>
      have hnot : ¬ (¬ mdef.DictUnder ihash (asc "warning") ∧ ¬ mdef.DictUnder ihash (asc "alert") ∧
          ¬ mdef.DictUnder ihash (asc "critical")) := by
        rintro ⟨h₁, h₂, h₃⟩
        exact hsome.elim h₁ fun h => h.elim h₂ h₃
      simp only [Option.some.injEq, forall_eq', or_iff_right hnot]
      constructor
      · rintro ⟨ws, hws⟩
        obtain ⟨warn, hwarn, hws⟩ := Outcome.bind_ok_iff.mp hws
        obtain ⟨alert, halert, hws⟩ := Outcome.bind_ok_iff.mp hws
        obtain ⟨crit, hcrit, -⟩ := Outcome.bind_ok_iff.mp hws
        exact ⟨levelWatcher_ok_iff.mp ⟨warn, hwarn⟩, levelWatcher_ok_iff.mp ⟨alert, halert⟩,
          levelWatcher_ok_iff.mp ⟨crit, hcrit⟩⟩
      · rintro ⟨h₁, h₂, h₃⟩
        obtain ⟨warn, hwarn⟩ := levelWatcher_ok_iff.mpr h₁
        obtain ⟨alert, halert⟩ := levelWatcher_ok_iff.mpr h₂
        obtain ⟨crit, hcrit⟩ := levelWatcher_ok_iff.mpr h₃
        exact ⟨_, by rw [hwarn, halert, hcrit]; rfl⟩
  · rename_i hnone
    simp only [varGetDict_isSome, not_or] at hnone
    exact iff_of_true ⟨_, rfl⟩ fun _ _ => .inl hnone

theorem populateMeter_ok_iff {watchdef : Option Var} {mdef : Var} :
    (∃ r, populateMeter ihash watchdef mdef = .ok r) ↔ mdef.ReadsMeter ihash watchdef := by
  obtain ⟨watchdef', -, heq⟩ := @populateMeter_eq ihash watchdef mdef
  rw [heq, Var.ReadsMeter, ← @populateLevels_ok_iff ihash mdef mdef.id]
  constructor
  · rintro ⟨r, hr⟩
    obtain ⟨ws, hws, -⟩ := Outcome.bind_ok_iff.mp hr
    exact ⟨ws, hws⟩
  · rintro ⟨ws, hws⟩
    exact ⟨_, by rw [hws]; rfl⟩

theorem populateMeter_defType {watchdef : Option Var} {mdef : Var}
    {r : List Meterwatch × Option Var} (h : populateMeter ihash watchdef mdef = .ok r) (id : FString) :
    defType ihash r.2 id = defType ihash watchdef id := by
  obtain ⟨watchdef', hdef, heq⟩ := @populateMeter_eq ihash watchdef mdef
  rw [heq] at h
  obtain ⟨ws, -, h⟩ := Outcome.bind_ok_iff.mp h
  rw [← Except.ok.inj h]
  exact hdef id

theorem watchlistPopulate_ok_iff {l : List Var} {watchdef : Option Var} :
    (∃ r, watchlistPopulate ihash l watchdef = .ok r) ↔
      ∀ mdef ∈ l, mdef.ReadsMeter ihash watchdef := by
  induction l generalizing watchdef with
  | nil => simp [watchlistPopulate]
  | cons mdef rest ih =>
    rw [List.forall_mem_cons, ← populateMeter_ok_iff, watchlistPopulate]
    cases hm : populateMeter ihash watchdef mdef with
    | error e => simp
    | ok r =>
      obtain ⟨ws, watchdef'⟩ := r
      have hsame (m : Var) : m.ReadsMeter ihash watchdef' ↔ m.ReadsMeter ihash watchdef := by
        simp only [Var.ReadsMeter, meterType, populateMeter_defType hm]
      rw [Outcome.ok_bind]
      simp only [← hsame, ← ih]
      constructor
      · rintro ⟨r, hr⟩
        obtain ⟨r', hr', -⟩ := Outcome.bind_ok_iff.mp hr
        exact ⟨⟨_, rfl⟩, r', hr'⟩
      · rintro ⟨-, r', hr'⟩
        exact ⟨_, by rw [hr']; rfl⟩

end Watchers

section Summary

theorem id_varLink (self parent : Var) : (varLink ihash self parent).2.1.id = parent.id := by
  cases parent with
  | leaf id h val => cases val <;> simp only [varLink] <;> split <;> split <;> rfl
  | dict id h cs => simp only [varLink]; split <;> split <;> rfl
  | array id h cs => simp only [varLink]; split <;> split <;> rfl

theorem id_varCloneInto (dict : Bool) (self : Var) (cs : List Var) :
    (varCloneInto ihash dict self cs).id = self.id := by
  induction cs generalizing self with
  | nil => rw [varCloneInto]
  | cons crsr rest ih =>
    rw [varCloneInto, ih]
    split
    · exact id_varLink _ self
    · exact id_varLink _ self

theorem id_varCopy (self orig : Var) : (varCopy ihash self orig).id = self.id := by
  cases orig with
  | leaf _ _ _ => rfl
  | dict _ _ _ => rw [varCopy, id_varCloneInto]; rfl
  | array _ _ _ => rw [varCopy, id_varCloneInto]; rfl

/-- A dictionary under a key may be replaced, which the other children do not notice. -/
theorem varGetDictForkey_put {id : FString} {h : BitVec 32} {cs : List Var} {key k : List UInt8}
    (hkey : (FString.strncpy key).str = key) (hne : key ≠ k) {place : Option Nat} {c w : Var}
    (hfound : (varGetDictForkey ihash (.dict id h cs) key).2 = some (place, c)) (hw : w.id = c.id) :
    ∃ ds, (varGetDictForkey ihash (.dict id h cs) key).1.put place w = .dict id h ds ∧
      Option.Rel (Var.Rehashed ihash) (childIn ihash k cs) (childIn ihash k ds) := by
  have hr := varForkey_dict ihash key (fun i h => Var.id_node true i h [])
    (fun i h => Var.hashcode_node true i h []) id h cs
  rw [varGetDictForkey_fst]
  simp only [varGetDictForkey, varGetNodeForkey] at hfound
  generalize varForkey ihash (.dict id h cs) key _ = r at hr hfound ⊢
  have hrc : r.2 = (place, c) := by
    split at hfound
    · exact Option.some.inj hfound
    · cases hfound
  obtain rfl : r.2.1 = place := congrArg Prod.fst hrc
  obtain rfl : r.2.2 = c := congrArg Prod.snd hrc
  cases hr with
  | @found cs' i res hre hget _ hid =>
    refine ⟨cs'.set i w, rfl, ?_⟩
    have hres : res.id.str ≠ k := by rwa [hid]
    rw [childIn_set hget hres (by rwa [hw])]
    exact childIn_rehashed hre
  | @linked cs' i hre _ _ hi =>
    subst hi
    have hwid : w.id.str = key := by
      rw [hw, Var.id_node, hkey]
    refine ⟨cs' ++ [w], put_last true id h cs' _ w, ?_⟩
    rw [childIn_append, childIn_cons, if_neg fun h => hne (hwid.symm.trans h.2)]
    change Option.Rel _ _ ((childIn ihash k cs').or none)
    rw [Option.or_none]
    exact childIn_rehashed hre
  | @orphan cs' hre _ => exact ⟨cs', rfl, childIn_rehashed hre⟩

theorem dictUnder_of_rel {v v' : Var} {k : List UInt8}
    (h : Option.Rel (Var.Rehashed ihash) (varChild ihash v k) (varChild ihash v' k)) :
    v'.DictUnder ihash k ↔ v.DictUnder ihash k := by
  simp only [Var.DictUnder]
  generalize varChild ihash v k = o at h ⊢
  generalize varChild ihash v' k = o' at h ⊢
  cases h with
  | none => rfl
  | some hc => simp [hc.isNode]

theorem varGetDictForkey_dict (id : FString) (h : BitVec 32) (cs : List Var) (key : List UInt8) :
    ∃ ds, (varGetDictForkey ihash (.dict id h cs) key).1 = .dict id h ds := by
  have hr := varForkey_dict ihash key (fun i h => Var.id_node true i h [])
    (fun i h => Var.hashcode_node true i h []) id h cs
  rw [varGetDictForkey_fst]
  generalize varForkey ihash (.dict id h cs) key _ = r at hr ⊢
  cases hr <;> exact ⟨_, rfl⟩

theorem mergeSummaryLoop_ok_iff {l : List Var} (hnodup : (l.map Var.id).Nodup) {id : FString}
    {h : BitVec 32} {cs : List Var} :
    (∃ r, mergeSummaryLoop ihash l (.dict id h cs) = .ok r) ↔
      ∀ crsr ∈ l, (Var.dict id h cs).DictUnder ihash crsr.id.str := by
  induction l generalizing cs with
  | nil => simp [mergeSummaryLoop]
  | cons crsr rest ih =>
    rw [List.map_cons, List.nodup_cons] at hnodup
    have hkey : (FString.strncpy crsr.id.str).str = crsr.id.str := by rw [FString.strncpy_str]
    have hrest {ds : List Var} (hrel : ∀ k, crsr.id.str ≠ k →
        Option.Rel (Var.Rehashed ihash) (childIn ihash k cs) (childIn ihash k ds)) :
        (∃ r, mergeSummaryLoop ihash rest (.dict id h ds) = .ok r) ↔
          ∀ x ∈ rest, (Var.dict id h cs).DictUnder ihash x.id.str := by
      rw [ih hnodup.2]
      refine forall₂_congr fun x hx => dictUnder_of_rel (hrel _ ?_)
      intro heq
      rw [FString.ext heq] at hnodup
      exact hnodup.1 (List.mem_map_of_mem hx)
    rw [List.forall_mem_cons, ← varGetDict_isSome, mergeSummaryLoop, varGetDict]
    have hput (k : List UInt8) (hne : crsr.id.str ≠ k) (place : Option Nat) (c w : Var) :=
      @varGetDictForkey_put ihash id h cs _ _ hkey hne place c w
    have hsame (k : List UInt8) (hne : crsr.id.str ≠ k) :=
      @varGetDictForkey_child_ne ihash (.dict id h cs) crsr.id.str k (by rwa [hkey])
    obtain ⟨ds, hds⟩ := @varGetDictForkey_dict ihash id h cs crsr.id.str
    generalize varGetDictForkey ihash (.dict id h cs) crsr.id.str = r at hput hsame hds ⊢
    obtain ⟨v, o⟩ := r
    cases o with
    | none => simp
    | some p =>
      obtain ⟨place, summc⟩ := p
      simp only [Option.map_some, Option.isSome_some, true_and]
      split
      · have hv : ∃ ds', v.put place (varCopy ihash summc crsr) = .dict id h ds' := by
          obtain rfl : v = .dict id h ds := hds
          cases place <;> exact ⟨_, rfl⟩
        obtain ⟨ds', hds'⟩ := hv
        rw [hds']
        refine hrest fun k hne => ?_
        obtain ⟨es, hes, hrel⟩ := hput k hne place summc _ rfl (id_varCopy summc crsr)
        obtain rfl : es = ds' := (Var.dict.inj (hes.symm.trans hds')).2.2
        exact hrel
      · obtain rfl : v = .dict id h ds := hds
        exact hrest hsame

end Summary

section Tenant

/-- Metadata of a tenant that the collector reads to the end. -/
structure Var.ReadsTenant (app : AppConf) (dbmeta : Var) : Prop where
  meters : ∀ v, varChild app.ihash dbmeta (asc "meter") = some v → v.isNode true = true →
    ∀ mdef ∈ v.children, mdef.ReadsMeter app.ihash app.watchdef
  summary : dbmeta.DictUnder app.ihash (asc "summary")
  summaries : ∀ v, varChild app.ihash dbmeta (asc "summary") = some v → v.children ≠ [] →
    ∀ crsr ∈ app.summary.children, v.DictUnder app.ihash crsr.id.str

theorem readWatchers_ok_iff {app : AppConf} {dbmeta : Var} :
    (∃ ws, readWatchers app (varGetDict app.ihash dbmeta (asc "meter")).2 = .ok ws) ↔
      ∀ v, varChild app.ihash dbmeta (asc "meter") = some v → v.isNode true = true →
        ∀ mdef ∈ v.children, mdef.ReadsMeter app.ihash app.watchdef := by
  have hloop {v : Var} : (∃ ws, readWatchers app (some v) = .ok ws) ↔
      ∀ mdef ∈ v.children, mdef.ReadsMeter app.ihash app.watchdef := by
    rw [← watchlistPopulate_ok_iff, readWatchers]
    constructor
    · rintro ⟨ws, hws⟩
      obtain ⟨r, hr, -⟩ := Outcome.bind_ok_iff.mp hws
      exact ⟨r, hr⟩
    · rintro ⟨r, hr⟩
      exact ⟨_, by rw [hr]; rfl⟩
  rw [varGetDict_snd]
  cases varChild app.ihash dbmeta (asc "meter") with
  | none => simp [hloop, Var.children]
  | some v =>
    cases hv : v.isNode true with
    | true => simp [hv, hloop]
    | false => simp [hv, readWatchers]

theorem mergeSummary_ok_iff {app : AppConf} {dbmeta dbmeta' : Var}
    (hrel : Option.Rel (Var.Rehashed app.ihash) (varChild app.ihash dbmeta (asc "summary"))
      (varChild app.ihash dbmeta' (asc "summary"))) :
    (∃ v, mergeSummary app.ihash app.summary (varGetDict app.ihash dbmeta' (asc "summary")).2 = .ok v) ↔
      dbmeta.DictUnder app.ihash (asc "summary") ∧
        ∀ v, varChild app.ihash dbmeta (asc "summary") = some v → v.children ≠ [] →
          ∀ crsr ∈ app.summary.children, v.DictUnder app.ihash crsr.id.str := by
  rw [varGetDict_snd, Var.DictUnder]
  generalize varChild app.ihash dbmeta (asc "summary") = o at hrel ⊢
  generalize varChild app.ihash dbmeta' (asc "summary") = o' at hrel ⊢
  cases hrel with
  | none => simp [mergeSummary, Var.children]
  | @some v v' hv =>
    cases hnode : v.isNode true with
    | false => simp [hv.isNode, hnode, mergeSummary]
    | true =>
      have hnode' : v'.isNode true = true := by rw [hv.isNode, hnode]
      obtain ⟨id, h, cs, rfl⟩ : ∃ id h cs, v' = .dict id h cs := by
        cases v' with
        | dict id h cs => exact ⟨id, h, cs, rfl⟩
        | leaf _ _ _ => cases hnode'
        | array _ _ _ => cases hnode'
      have hunder (key : List UInt8) :
          (Var.dict id h cs).DictUnder app.ihash key ↔ v.DictUnder app.ihash key := by
        simp only [Var.DictUnder, hv.varChild]
      have hcs : cs = v.children := hv.children
      simp only [hnode', if_true, mergeSummary, Option.some.injEq, forall_eq', hnode, true_and]
      by_cases hnil : v.children = []
      · have hnil' : (Var.dict id h cs).children = [] := hcs.trans hnil
        simp [if_pos hnil', hnil]
      · have hnil' : ¬ (Var.dict id h cs).children = [] := by
          rw [hv.children]
          exact hnil
        simp only [if_neg hnil', mergeSummaryLoop_ok_iff app.summary_nodup, hunder]
        exact ⟨fun h _ => h, fun h => h hnil⟩

theorem readTenantMetadata_ok_iff {app : AppConf} {dbmeta : Var} :
    (∃ r, readTenantMetadata app dbmeta = .ok r) ↔ dbmeta.ReadsTenant app := by
  have hsummary := @mergeSummary_ok_iff app dbmeta _
    (@varGetDict_child_ne app.ihash dbmeta (asc "meter") (asc "summary") (by decide))
  constructor
  · rintro ⟨r, hr⟩
    obtain ⟨ws, hws, hr⟩ := Outcome.bind_ok_iff.mp hr
    obtain ⟨v, hv, -⟩ := Outcome.bind_ok_iff.mp hr
    obtain ⟨hdict, hdicts⟩ := hsummary.mp ⟨v, hv⟩
    exact ⟨readWatchers_ok_iff.mp ⟨ws, hws⟩, hdict, hdicts⟩
  · rintro ⟨hmeters, hdict, hdicts⟩
    obtain ⟨ws, hws⟩ := readWatchers_ok_iff.mpr hmeters
    obtain ⟨v, hv⟩ := hsummary.mpr ⟨hdict, hdicts⟩
    refine ⟨(ws, summaryinfoLoop app.ihash v.children), ?_⟩
    simp only [readTenantMetadata, hws, hv, Outcome.ok_bind]
    rfl

end Tenant

section Host

/-- Metadata of a host that the collector reads to the end. -/
structure Var.ReadsHost (ihash : BitVec 32) (dbmeta : Var) : Prop where
  meters : dbmeta.DictUnder ihash (asc "meter")
  graph : dbmeta.DictUnder ihash (asc "graph")
  texts : ∀ v, varChild ihash dbmeta (asc "meter") = some v → ∀ v_adjust ∈ v.children.takeWhile
    (fun v => (varGetStrForkey ihash v (asc "type")).isSome),
    ∀ stype, varGetStrForkey ihash v_adjust (asc "type") = some stype → adjustKind stype = .str →
      ∀ level ∈ watcherLevels, ∀ c, varChild ihash v_adjust level = some c → c.isNode true = true →
        (varGetStrForkey ihash c (asc "val")).isSome

theorem handleTrigger_ok_iff {v_adjust : Var} {atype : Adjustkind} {level : List UInt8}
    {adj : Adjustdata Adjustvalue} :
    (∃ r, handleTrigger ihash v_adjust atype level adj = .ok r) ↔ (atype = .str →
      ∀ c, varChild ihash v_adjust level = some c → c.isNode true = true →
        (varGetStrForkey ihash c (asc "val")).isSome) := by
  rw [handleTrigger]
  cases varChild ihash v_adjust level with
  | none => simp
  | some c =>
    cases hc : c.isNode true with
    | false => simp [hc]
    | true =>
      cases atype with
      | none => simp [hc, handleLevel]
      | frac => simp [hc, handleLevel]
      | uint => simp [hc, handleLevel]
      | str => cases hval : varGetStrForkey ihash c (asc "val") <;> simp [hc, handleLevel, hval]

theorem handleAdjust_ok_iff {v_adjust : Var} {stype : List UInt8} {self : List Hostadjust} :
    (∃ r, handleAdjust ihash v_adjust stype self = .ok r) ↔ (adjustKind stype = .str →
      ∀ level ∈ watcherLevels, ∀ c, varChild ihash v_adjust level = some c → c.isNode true = true →
        (varGetStrForkey ihash c (asc "val")).isSome) := by
  have hlevels {P : List UInt8 → Prop} : (∀ level ∈ watcherLevels, P level) ↔
      P (asc "warning") ∧ P (asc "alert") ∧ P (asc "critical") := by
    simp [watcherLevels]
  have hsplit : (∃ r, handleAdjust ihash v_adjust stype self = .ok r) ↔
      (∃ r, handleTrigger ihash v_adjust (adjustKind stype) (asc "warning")
        ((adjustlistGet self (makeid v_adjust.id.str 0)).1.adjust .warn) = .ok r) ∧
      (∃ r, handleTrigger ihash v_adjust (adjustKind stype) (asc "alert")
        ((adjustlistGet self (makeid v_adjust.id.str 0)).1.adjust .alert) = .ok r) ∧
      ∃ r, handleTrigger ihash v_adjust (adjustKind stype) (asc "critical")
        ((adjustlistGet self (makeid v_adjust.id.str 0)).1.adjust .crit) = .ok r := by
    constructor
    · rintro ⟨r, hr⟩
      obtain ⟨warn, hwarn, hr⟩ := Outcome.bind_ok_iff.mp hr
      obtain ⟨alert, halert, hr⟩ := Outcome.bind_ok_iff.mp hr
      obtain ⟨crit, hcrit, -⟩ := Outcome.bind_ok_iff.mp hr
      exact ⟨⟨warn, hwarn⟩, ⟨alert, halert⟩, crit, hcrit⟩
    · rintro ⟨⟨warn, hwarn⟩, ⟨alert, halert⟩, crit, hcrit⟩
      rw [handleAdjust]
      simp only [hwarn, halert, hcrit, Outcome.ok_bind]
      exact ⟨_, rfl⟩
  rw [hsplit, handleTrigger_ok_iff, handleTrigger_ok_iff, handleTrigger_ok_iff, hlevels]
  simp only [← forall_and]

theorem handleMeters_ok_iff {l : List Var} {self : List Hostadjust} :
    (∃ r, handleMeters ihash l self = .ok r) ↔
      ∀ v_adjust ∈ l.takeWhile (fun v => (varGetStrForkey ihash v (asc "type")).isSome),
        ∀ stype, varGetStrForkey ihash v_adjust (asc "type") = some stype → adjustKind stype = .str →
          ∀ level ∈ watcherLevels, ∀ c, varChild ihash v_adjust level = some c →
            c.isNode true = true → (varGetStrForkey ihash c (asc "val")).isSome := by
  induction l generalizing self with
  | nil => simp [handleMeters]
  | cons v rest ih =>
    rw [handleMeters, List.takeWhile_cons]
    cases htype : varGetStrForkey ihash v (asc "type") with
    | none => simp
    | some stype =>
      simp only [Option.isSome_some, if_true, List.forall_mem_cons, htype, Option.some.injEq,
        forall_eq']
      rw [← @handleAdjust_ok_iff ihash v stype self]
      cases hadj : handleAdjust ihash v stype self with
      | error e => simp
      | ok self' =>
        simp only [Outcome.ok_bind, ih, Except.ok.injEq, exists_eq', true_and]

theorem handleHostMetadata_ok_iff {H : HostSettings} {dbmeta : Var} :
    (∃ r, handleHostMetadata ihash H dbmeta = .ok r) ↔ dbmeta.ReadsHost ihash := by
  have hgraph : (varGetDict ihash (varGetDict ihash dbmeta (asc "meter")).1 (asc "graph")).2.isSome ↔
      dbmeta.DictUnder ihash (asc "graph") := by
    rw [varGetDict_isSome]
    exact dictUnder_of_rel (varGetDict_child_ne dbmeta (by decide))
  have hmeter := @varGetDict_isSome ihash dbmeta (asc "meter")
  have hchildren : ∀ v, (varGetDict ihash dbmeta (asc "meter")).2 = some v →
      (∀ c, varChild ihash dbmeta (asc "meter") = some c → c.children = v.children) ∧
        (varChild ihash dbmeta (asc "meter") = none → v.children = []) := by
    intro v hv
    rw [varGetDict_snd] at hv
    cases hc : varChild ihash dbmeta (asc "meter") with
    | none =>
      rw [hc] at hv
      obtain rfl := Option.some.inj hv
      simp [Var.children]
    | some c =>
      simp only [hc] at hv
      split at hv
      · obtain rfl := Option.some.inj hv
        simp
      · cases hv
  simp only [handleHostMetadata]
  generalize (varGetDict ihash (varGetDict ihash dbmeta (asc "meter")).1 (asc "graph")).2 = g at hgraph ⊢
  generalize (varGetDict ihash dbmeta (asc "meter")).2 = m at hmeter hchildren ⊢
  cases m with
  | none =>
    refine iff_of_false (by simp) fun h => ?_
    simpa using hmeter.mpr h.meters
  | some v =>
    obtain ⟨hsome, hnone⟩ := hchildren v rfl
    have htexts : (∃ r, handleMeters ihash v.children H.adjust = .ok r) ↔
        ∀ c, varChild ihash dbmeta (asc "meter") = some c → ∀ v_adjust ∈ c.children.takeWhile
          (fun v => (varGetStrForkey ihash v (asc "type")).isSome), ∀ stype,
          varGetStrForkey ihash v_adjust (asc "type") = some stype → adjustKind stype = .str →
            ∀ level ∈ watcherLevels, ∀ c, varChild ihash v_adjust level = some c →
              c.isNode true = true → (varGetStrForkey ihash c (asc "val")).isSome := by
      rw [handleMeters_ok_iff]
      cases hc : varChild ihash dbmeta (asc "meter") with
      | none => simp [hnone hc]
      | some c => rw [← hsome c hc]; simp only [Option.some.injEq, forall_eq']
    constructor
    · rintro ⟨r, hr⟩
      obtain ⟨adjust, hadj, hr⟩ := Outcome.bind_ok_iff.mp hr
      cases g with
      | none => cases hr
      | some v_graph => exact ⟨hmeter.mp rfl, hgraph.mp rfl, htexts.mp ⟨_, hadj⟩⟩
    · rintro ⟨hdict, hdict', hread⟩
      obtain ⟨adjust, hadj⟩ := htexts.mpr hread
      cases g with
      | none => simpa using hgraph.mpr hdict'
      | some v_graph =>
        simp only [hadj, Outcome.ok_bind]
        split <;> exact ⟨_, rfl⟩

end Host

/-- The collector reads the metadata of a tenant and of a host to the end, if and only if what it
looks for are dictionaries and texts. -/
theorem metadata_readable_iff (app : AppConf) (H : HostSettings) (tenantmeta hostmeta : Var) :
    ((∃ r, readTenantMetadata app tenantmeta = .ok r) ↔ tenantmeta.ReadsTenant app) ∧
      ((∃ r, handleHostMetadata app.ihash H hostmeta = .ok r) ↔ hostmeta.ReadsHost app.ihash) :=
  ⟨readTenantMetadata_ok_iff, handleHostMetadata_ok_iff⟩

/-- A configuration without meters and summaries. -/
def bareConf : AppConf where
  ihash := 5138
  watchdef := some (.dict FString.empty 0 [])
  summary := .dict FString.empty 0 []
  summary_dict := rfl
  summary_nodup := List.nodup_nil

/-- `POST /$TENANT/meta` with `{"metadata": {"summary": 5}}` -/
def summaryRequest : MetaRequest :=
  userRequest .set_meta ⟨asc "\x7b\"metadata\": \x7b\"summary\": 5\x7d\x7d", by decide +kernel⟩

/-- A user of the tenant stores a number where the collector takes a dictionary for granted. -/
theorem stored_summary_stops : ∃ rs file dbmeta, (metaRequests 5138 nameFile).History rs file ∧
    varLoadJson 5138 file = .ok (some dbmeta) ∧ ¬ ∃ r, readTenantMetadata bareConf dbmeta = .ok r := by
  have hstored : ((varLoadJson 5138 (summaryRequest.apply 5138 nameFile)).toOption.join.bind fun v =>
      (varChild 5138 v (asc "summary")).map (Var.isNode true)) = some false := by
    decide +kernel
  obtain ⟨dbmeta, hload, hchild⟩ := Option.bind_eq_some_iff.mp hstored
  obtain ⟨c, hc, hnode⟩ := Option.map_eq_some_iff.mp hchild
  refine ⟨[summaryRequest], _, dbmeta, ⟨nameFile, rfl, .snoc (.nil _) ⟨by decide, by decide, rfl⟩⟩, ?_, ?_⟩
  · cases h : varLoadJson 5138 (summaryRequest.apply 5138 nameFile) with
    | error e =>
      rw [h] at hload
      cases hload
    | ok o =>
      rw [h] at hload
      exact congrArg Except.ok hload
  · intro hread
    have hdict := (readTenantMetadata_ok_iff.mp hread).summary c hc
    rw [hnode] at hdict
    cases hdict

end Opticon
