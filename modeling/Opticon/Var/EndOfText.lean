import Opticon.Var.Bare
import Opticon.Var.ChildLaws
import Opticon.Var.Formed

/-! The end of a text against a newline there. A value is stored when the character behind it is
read, and behind the last one of a text there is none. -/

namespace Opticon

variable {ihash : BitVec 32} {key : List UInt8} {val : VarValue} {id : FString} {h : BitVec 32}
  {cs : List Var}

/-! ### Values that change nothing -/

/-- Storing this value below this key leaves the tree as it is: a dict has no place for an empty
key, an array one for an empty key only, and a var that is there keeps its type. -/
def Var.Settled (ihash : BitVec 32) (key : List UInt8) (val : VarValue) : Var → Prop
  | .leaf _ _ value => value ≠ .null
  | .array _ _ _ => (FString.strncpy key).str ≠ []
  | .dict _ _ cs => (childIn ihash key cs).elim ((FString.strncpy key).str = []) fun c => varSet c val = c

/-- A var that is neither unset nor a container takes no other one below it. -/
theorem varLink_leaf {self : Var} (hh : self.hashcode ≠ 0) {value : VarValue} (hval : value ≠ .null) :
    varLink ihash self (.leaf id h value) = (self, .leaf id h value, none) := by
  have hn : ¬ (self.hashcode = 0 ∧ self.id.str ≠ []) := fun hc => hh hc.1
  simp only [varLink, if_neg hn]
  cases value with
  | null => exact absurd rfl hval
  | int _ => split <;> rfl
  | double _ => split <;> rfl
  | str _ => split <;> rfl

theorem varLink_array_key {self : Var} (hh : self.hashcode ≠ 0) (hid : self.id.str ≠ []) :
    varLink ihash self (.array id h cs) = (self, .array id h cs, none) := by
  have hn : ¬ (self.hashcode = 0 ∧ self.id.str ≠ []) := fun hc => hh hc.1
  simp only [varLink, if_neg hn, if_neg hid]

theorem varSet_bare_iff (c : Var) (val : VarValue) : (varSet c val).bare = c.bare ↔ varSet c val = c := by
  constructor
  · intro heq
    cases c with
    | dict id h cs => rfl
    | array id h cs => rfl
    | leaf id h value =>
      obtain ⟨w, hw⟩ : ∃ w, varSet (.leaf id h value) val = .leaf id h w := by
        cases value <;> cases val <;> exact ⟨_, rfl⟩
      rw [hw, Var.bare_leaf, Var.bare_leaf] at heq
      injection heq with _ _ hval
      rw [hw, hval]
  · intro heq
    rw [heq]

theorem varSetForkey_dict_bare_iff : (varSetForkey ihash (.dict id h cs) key val).bare =
    (Var.dict id h cs).bare ↔ (Var.dict id h cs).Settled ihash key val := by
  have hre : (findKeyIn ihash key cs).1.map Var.bare = cs.map Var.bare :=
    Var.map_bare_rehashed (findKeyIn_rehashed ihash key cs)
  simp only [Var.Settled, childIn]
  cases hf : (findKeyIn ihash key cs).2 with
  | none =>
    rw [varSetForkey_absent hf]
    by_cases hkey : (FString.strncpy key).str = []
    · simp [hkey, hre]
    · simp [hkey, hre]
  | some p =>
    obtain ⟨i, c⟩ := p
    obtain ⟨hget, -, -⟩ := findKeyIn_some hf
    rw [varSetForkey_found hf, Var.bare_dict, Var.bare_dict, List.map_set, hre, Option.map_some,
      Option.elim_some, ← varSet_bare_iff]
    have hget' : (cs.map Var.bare)[i]? = some c.bare := by
      rw [← hre, List.getElem?_map, hget, Option.map_some]
    obtain ⟨hi, hci⟩ := List.getElem?_eq_some_iff.mp hget'
    constructor
    · intro heq
      injection heq with _ _ hset
      have := congrArg (fun l : List Var => l[i]?) hset
      simpa [hget', List.getElem?_set_self hi] using this
    · intro heq
      rw [heq, ← hci, List.set_getElem_self]

/-- Whether a value changes a tree. -/
theorem varSetForkey_bare_iff (v : Var) :
    (varSetForkey ihash v key val).bare = v.bare ↔ v.Settled ihash key val := by
  have hne : (Var.leaf (FString.strncpy key) (hashToken ihash key) .null).hashcode ≠ 0 :=
    hashToken_ne_zero ihash key
  have hid : (Var.leaf (FString.strncpy key) (hashToken ihash key) .null).id = FString.strncpy key := rfl
  cases v with
  | dict id h cs => exact varSetForkey_dict_bare_iff
  | array id h cs =>
    by_cases hkey : (FString.strncpy key).str = []
    · have hput : varSetForkey ihash (.array id h cs) key val =
          .array id h (cs ++ [.leaf (FString.strncpy key) (hashToken ihash key) val]) := by
        simp only [varSetForkey, varGetOrMake, varForkey, varFindKey]
        rw [varLink_array (by rw [hid, hkey])]
        simp [Var.put, varSet, List.set_append_right]
      simp [hput, Var.Settled, hkey]
    · have hput : varSetForkey ihash (.array id h cs) key val = .array id h cs := by
        simp only [varSetForkey, varGetOrMake, varForkey, varFindKey]
        rw [varLink_array_key hne (by rwa [hid])]
        rfl
      simp [hput, Var.Settled, hkey]
  | leaf id h value =>
    by_cases hval : value = .null
    · subst hval
      have hdict : varSetForkey ihash (.leaf id h .null) key val =
          varSetForkey ihash (.dict id h []) key val := rfl
      rw [hdict, varSetForkey_absent rfl]
      split <;> simp [Var.Settled]
    · have hput : varSetForkey ihash (.leaf id h value) key val = .leaf id h value := by
        have hmake : varGetOrMake ihash (.leaf id h value) key =
            (.leaf id h value, none, .leaf (FString.strncpy key) (hashToken ihash key) .null) := by
          cases value with
          | null => exact absurd rfl hval
          | int _ => simp only [varGetOrMake, varForkey, varFindKey, varLink_leaf hne hval]
          | double _ => simp only [varGetOrMake, varForkey, varFindKey, varLink_leaf hne hval]
          | str _ => simp only [varGetOrMake, varForkey, varFindKey, varLink_leaf hne hval]
        simp only [varSetForkey, hmake, Var.put]
      simp [hput, Var.Settled, hval]

/-! ### The state at the end of a text -/

/-- The level the parser began with. -/
def outermost : Frame → List Level → Frame
  | f, [] => f
  | _, l :: outer => outermost l.frame outer

/-- The outermost level is no array. -/
def Reading.OutInDict : Reading → Prop
  | .stop _ _ => True
  | .run f _ outer => (outermost f outer).inDict = true

/-- A level in a dict stays in it. -/
def Action.InDict : Action → Prop
  | .next f | .escape f | .child f _ _ _ => f.inDict = true
  | .leave _ | .fail _ _ => True

theorem openDict_inDict (f : Frame) : (openDict ihash f).InDict := by
  unfold openDict
  dsimp only
  split <;> trivial

theorem openArray_inDict (f : Frame) : (openArray ihash f).InDict := by
  unfold openArray
  dsimp only
  split <;> trivial

theorem dictKey_inDict {f : Frame} (hst : f.st = .dictKey) (c : UInt8) : (dictKey ihash f c).InDict := by
  unfold dictKey
  split_ifs
  · rfl
  · rfl
  · exact openDict_inDict f
  · exact openArray_inDict f
  · rfl
  · trivial
  · simp [Action.InDict, Frame.inDict, hst, PState.inDict]
  · trivial

theorem dictWaitkey_inDict {f : Frame} (hst : f.st = .dictWaitkey ∨ f.st = .beginning) (c : UInt8) :
    (dictWaitkey ihash f c).InDict := by
  have hf : f.inDict = true ∧ f.st.inDict = true := by
    obtain hst | hst := hst <;> simp [Frame.inDict, hst, PState.inDict]
  unfold dictWaitkey
  split_ifs
  · exact hf.2
  · exact hf.1
  · exact hf.1
  · trivial
  · rfl
  · exact dictKey_inDict (f := { f with st := .dictKey, keybuf := [], valuebuf := [] }) rfl c
  · trivial

theorem dictValue_inDict {f : Frame} (hst : f.st = .dictValue) (c : UInt8) :
    (dictValue ihash f c).InDict := by
  have hf : f.inDict = true := by simp [Frame.inDict, hst, PState.inDict]
  unfold dictValue unquotedValue
  simp only
  split_ifs
  · rfl
  · trivial
  · rfl
  all_goals trivial

theorem dictWaitvalue_inDict {f : Frame} (hst : f.st = .dictWaitvalue) (c : UInt8) :
    (dictWaitvalue ihash f c).InDict := by
  have hf : f.inDict = true := by simp [Frame.inDict, hst, PState.inDict]
  unfold dictWaitvalue
  split_ifs
  · simp [Action.InDict, Frame.comment, Frame.inDict, hst, PState.inDict]
  · exact hf
  · exact hf
  · exact hf
  · exact openDict_inDict f
  · exact openArray_inDict f
  · rfl
  · exact dictValue_inDict
      (f := { f with st := .dictValue, valuebuf := [], valueNondigits := false, valueDots := 0 }) rfl c
  · trivial

variable (ihash) in
theorem levelStep_inDict {f : Frame} (hf : f.inDict = true) (c : UInt8) :
    (levelStep ihash f c).InDict := by
  cases hst : f.st with
  | beginning =>
    simp only [levelStep, hst, beginning]
    split
    · rfl
    · exact dictWaitkey_inDict (.inr hst) c
  | dictWaitkey =>
    simp only [levelStep, hst]
    exact dictWaitkey_inDict (.inl hst) c
  | dictKey =>
    simp only [levelStep, hst]
    exact dictKey_inDict hst c
  | dictKeyQuoted =>
    simp only [levelStep, hst, dictKeyQuoted]
    split_ifs
    · rfl
    · exact hf
    · trivial
    · rfl
  | dictWaitvalue =>
    simp only [levelStep, hst]
    exact dictWaitvalue_inDict hst c
  | dictValue =>
    simp only [levelStep, hst]
    exact dictValue_inDict hst c
  | dictValueQuoted =>
    simp only [levelStep, hst, dictValueQuoted, quotedValue]
    split_ifs
    · rfl
    · trivial
    · exact hf
    · rfl
  | comment =>
    have hnext : f.stnext.inDict = true := by simpa [Frame.inDict, hst] using hf
    simp only [levelStep, hst]
    split
    · by_cases hn : f.stnext = .comment
      · simp [Action.InDict, Frame.inDict, hn, PState.inDict]
      · simpa [Action.InDict, Frame.inDict, hn] using hnext
    · exact hf
  | arrayWaitvalue => simp [Frame.inDict, hst, PState.inDict] at hf
  | arrayValue => simp [Frame.inDict, hst, PState.inDict] at hf
  | arrayValueQuoted => simp [Frame.inDict, hst, PState.inDict] at hf

theorem escapedStep_st {f g : Frame} {d : UInt8} (h : escapedStep f d = some g) :
    g.st = f.st ∧ g.stnext = f.stnext := by
  unfold escapedStep at h
  split at h
  · split at h
    · cases h
    · cases h
      exact ⟨rfl, rfl⟩
  · cases h
    exact ⟨rfl, rfl⟩

/-- Only the innermost level moves on. -/
theorem outermost_next {f g : Frame} {outer : List Level} (hf : f.inDict = true → g.inDict = true)
    (h : (outermost f outer).inDict = true) : (outermost g outer).inDict = true := by
  cases outer with
  | nil => exact hf h
  | cons l outer => exact h

theorem Reading.OutInDict.read {r : Reading} (hr : r.OutInDict) (c : UInt8) :
    (r.read ihash c).OutInDict := by
  cases r with
  | stop res into => trivial
  | run f escaped outer =>
    cases escaped with
    | true =>
      simp only [Reading.read]
      cases he : escapedStep f c with
      | none => trivial
      | some g =>
        obtain ⟨hst, hnext⟩ := escapedStep_st he
        exact outermost_next (fun hf => by simpa only [Frame.inDict, hst, hnext] using hf) hr
    | false =>
      have hstep (hf : f.inDict = true) := levelStep_inDict ihash hf c
      simp only [Reading.read]
      cases hact : levelStep ihash f c with
      | next g =>
        rw [hact] at hstep
        exact outermost_next hstep hr
      | escape g =>
        rw [hact] at hstep
        exact outermost_next hstep hr
      | child g place vv st =>
        rw [hact] at hstep
        simp only
        split
        · trivial
        · exact outermost_next (f := f) (g := g) hstep hr
      | leave v =>
        cases outer with
        | nil => trivial
        | cons l outer => exact outermost_next (f := l.frame) (fun hf => hf) hr
      | fail v error => trivial

theorem Reading.OutInDict.reads {r : Reading} (hr : r.OutInDict) (text : List UInt8) :
    (r.reads ihash text).OutInDict := by
  induction text generalizing r with
  | nil => exact hr
  | cons c text ih => exact ih (hr.read c)

/-- What the end of the text and a newline do alike to the state in front of them: no character is
missing behind a backslash unless the key is full, no level but the outermost one is open, a quoted
key or value has room for one more character, and an unquoted value changes nothing. -/
def Reading.AtLineEnd (ihash : BitVec 32) : Reading → Prop
  | .stop _ _ => True
  | .run f true _ => f.st = .dictKeyQuoted ∧ 4095 ≤ f.keybuf.length
  | .run f false outer => outer = [] ∧ (f.st = .dictKeyQuoted → f.keybuf.length < 4095) ∧
    (f.st = .dictValueQuoted → f.valuebuf.length < 4095) ∧
    (f.st = .dictValue → f.v.Settled ihash f.keybuf f.unquoted)

/-- The same result, and a tree that says the same. -/
def SameEnd (e e' : Option (Bool × Var)) : Prop :=
  ∃ res v v', e = some (res, v) ∧ e' = some (res, v') ∧ v'.bare = v.bare

theorem SameEnd.of_v {f g : Frame} (h : g.v = f.v) :
    SameEnd (Reading.run f false []).finish (Reading.run g false []).finish :=
  ⟨true, f.v, g.v, rfl, rfl, by rw [h]⟩

theorem not_sameEnd_stop (f : Frame) (v : Var) :
    ¬ SameEnd (Reading.run f false []).finish (Reading.stop false v).finish := by
  rintro ⟨res, _, _, hf, hs, -⟩
  cases hf
  cases hs

theorem frame_newline {f : Frame} (hf : f.inDict = true) :
    SameEnd (Reading.run f false []).finish ((Reading.run f false []).read ihash 10).finish ↔
      (Reading.run f false []).AtLineEnd ihash := by
  cases hst : f.st with
  | beginning =>
    simp [Reading.AtLineEnd, Reading.read, levelStep, hst, beginning, dictWaitkey, isspace, SameEnd.of_v]
  | dictWaitkey =>
    simp [Reading.AtLineEnd, Reading.read, levelStep, hst, dictWaitkey, isspace, SameEnd.of_v]
  | dictKey =>
    simp [Reading.AtLineEnd, Reading.read, levelStep, hst, dictKey, isspace, SameEnd.of_v]
  | dictKeyQuoted =>
    by_cases hlen : 4095 ≤ f.keybuf.length
    · have hroom : ¬ f.keybuf.length < 4095 := Nat.not_lt.mpr hlen
      simp [Reading.AtLineEnd, Reading.read, levelStep, hst, dictKeyQuoted, hlen, hroom, not_sameEnd_stop]
    · have hroom : f.keybuf.length < 4095 := Nat.lt_of_not_le hlen
      simp [Reading.AtLineEnd, Reading.read, levelStep, hst, dictKeyQuoted, hlen, hroom, SameEnd.of_v]
  | dictWaitvalue =>
    simp [Reading.AtLineEnd, Reading.read, levelStep, hst, dictWaitvalue, isspace, SameEnd.of_v]
  | dictValue =>
    -- the newline stores the value
    have hread : (Reading.run f false []).read ihash 10 = .run { f with
        v := varSetForkey ihash f.v f.keybuf f.unquoted, st := .dictWaitkey } false [] := by
      simp [Reading.read, levelStep, hst, dictValue, unquotedValue, isspace]
    rw [hread]
    simp [SameEnd, Reading.finish, Reading.AtLineEnd, hst, varSetForkey_bare_iff]
  | dictValueQuoted =>
    by_cases hlen : 4095 ≤ f.valuebuf.length
    · have hroom : ¬ f.valuebuf.length < 4095 := Nat.not_lt.mpr hlen
      simp [Reading.AtLineEnd, Reading.read, levelStep, hst, dictValueQuoted, quotedValue, hlen, hroom,
        not_sameEnd_stop]
    · have hroom : f.valuebuf.length < 4095 := Nat.lt_of_not_le hlen
      simp [Reading.AtLineEnd, Reading.read, levelStep, hst, dictValueQuoted, quotedValue, hlen, hroom,
        SameEnd.of_v]
  | comment =>
    simp [Reading.AtLineEnd, Reading.read, levelStep, hst, SameEnd.of_v]
  | arrayWaitvalue => simp [Frame.inDict, hst, PState.inDict] at hf
  | arrayValue => simp [Frame.inDict, hst, PState.inDict] at hf
  | arrayValueQuoted => simp [Frame.inDict, hst, PState.inDict] at hf

/-- The end of the text and a newline there, in any state. -/
theorem Reading.OutInDict.sameEnd_iff {r : Reading} (hr : r.OutInDict) :
    SameEnd r.finish (r.read ihash 10).finish ↔ r.AtLineEnd ihash := by
  cases r with
  | stop res into => exact iff_of_true ⟨res, into, into, rfl, rfl, rfl⟩ trivial
  | run f escaped outer =>
    cases escaped with
    | true =>
      by_cases hfull : f.st = .dictKeyQuoted ∧ 4095 ≤ f.keybuf.length
      · have hend : SameEnd (Reading.run f true outer).finish
            ((Reading.run f true outer).read ihash 10).finish := by
          refine ⟨false, rootOf outer f.v, rootOf outer f.v, ?_, ?_, rfl⟩
          · simp only [Reading.finish, if_pos hfull]
          · simp [Reading.read, escapedStep, hfull.1, hfull.2, Reading.finish]
        exact iff_of_true hend hfull
      · refine iff_of_false ?_ hfull
        rintro ⟨res, v, -, hend, -⟩
        simp [Reading.finish, hfull] at hend
    | false =>
      cases outer with
      | nil => exact frame_newline hr
      | cons l outer =>
        refine iff_of_false ?_ ?_
        · rintro ⟨res, v, -, hend, -⟩
          cases hend
        · rintro ⟨houter, -⟩
          cases houter

def CString.newline (d : CString) : CString where
  bytes := d.bytes ++ [10]
  nonul := by simp [d.nonul]

/-- The parse of a text and of the text with a newline behind it return the same value and leave
the same tree. -/
def EndsAsLine (ihash : BitVec 32) (into : Var) (d : CString) : Prop :=
  ∃ res v v' error error' line line', varParseJson ihash into d = .returned res v error line ∧
    varParseJson ihash into d.newline = .returned res v' error' line' ∧ v'.bare = v.bare

theorem endsAsLine_iff_sameEnd (into : Var) (d : CString) : EndsAsLine ihash into d ↔
    SameEnd (reading ihash into d.bytes).finish (reading ihash into d.newline.bytes).finish := by
  constructor
  · rintro ⟨res, v, v', _, _, _, _, h, h', hbare⟩
    exact ⟨res, v, v', varParseJson_returned_finish h, varParseJson_returned_finish h', hbare⟩
  · rintro ⟨res, v, v', h, h', hbare⟩
    have hd := varParseJson_finish ihash into d
    have hd' := varParseJson_finish ihash into d.newline
    rw [h] at hd
    rw [h'] at hd'
    obtain ⟨error, line, hd⟩ := hd
    obtain ⟨error', line', hd'⟩ := hd'
    exact ⟨res, v, v', error, error', line, line', hd, hd', hbare⟩

/-- The end of a text acts like a newline exactly if the parser is at the end of a line there. -/
theorem end_of_text_right (ihash : BitVec 32) (into : Var) (d : CString) :
    EndsAsLine ihash into d ↔ (reading ihash into d.bytes).AtLineEnd ihash := by
  have hstart : (Reading.start into).OutInDict := rfl
  have hread : reading ihash into d.newline.bytes = (reading ihash into d.bytes).read ihash 10 := by
    simp [reading, CString.newline]
  rw [endsAsLine_iff_sameEnd, hread]
  exact (hstart.reads d.bytes).sameEnd_iff

/-- The text `a 5`, read into a fresh var: with a newline behind it there is a value. -/
theorem end_of_text_drops : ¬ EndsAsLine 5138 (varAlloc .null) ⟨asc "a 5", by decide⟩ := by
  rintro ⟨res, v, v', error, error', line, line', h, h', hbare⟩
  have hend : varParseJson 5138 (varAlloc .null) ⟨asc "a 5", by decide⟩ =
    .returned true (varAlloc .null) none 0 := rfl
  have hnewline : varParseJson 5138 (varAlloc .null) (CString.newline ⟨asc "a 5", by decide⟩) =
    .returned true (varSetForkey 5138 (varAlloc .null) (asc "a") (.int 5)) none 0 := rfl
  rw [hend] at h
  rw [hnewline] at h'
  cases h
  cases h'
  exact (varSetForkey_bare_iff (varAlloc .null)).mp hbare rfl

end Opticon
