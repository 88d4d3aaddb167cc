import Opticon.Var.Access
import Opticon.Var.Bare

/-! The children of any tree, whose keys may be hashed or not, after some of them were looked up,
added or changed. -/

namespace Opticon

variable {ihash : BitVec 32} {key k : List UInt8}

theorem varChild_setHashcode (v : Var) (h : BitVec 32) :
    varChild ihash (v.setHashcode h) k = varChild ihash v k := by
  cases v with
  | leaf id h' val => cases val <;> rfl
  | dict id h' cs => rfl
  | array id h' cs => rfl

namespace Var.Rehashed

variable {c c' : Var}

theorem varChild (h : c.Rehashed ihash c') : varChild ihash c' k = Opticon.varChild ihash c k := by
  obtain rfl | ⟨hash, rfl⟩ := h.exists
  · rfl
  · exact varChild_setHashcode c hash

theorem isNode (h : c.Rehashed ihash c') (dict : Bool) : c'.isNode dict = c.isNode dict := by
  obtain rfl | ⟨hash, rfl⟩ := h.exists
  · rfl
  · cases c <;> rfl

theorem children (h : c.Rehashed ihash c') : c'.children = c.children := by
  obtain rfl | ⟨hash, rfl⟩ := h.exists
  · rfl
  · cases c <;> rfl

theorem varGetStr (h : c.Rehashed ihash c') : varGetStr c' = Opticon.varGetStr c := by
  obtain rfl | ⟨hash, rfl⟩ := h.exists
  · rfl
  · cases c with
    | leaf _ _ val => cases val <;> rfl
    | dict _ _ _ => rfl
    | array _ _ _ => rfl

end Var.Rehashed

/-- The child with a key, by the search that fills in the hashes. -/
def childIn (ihash : BitVec 32) (key : List UInt8) (cs : List Var) : Option Var :=
  (findKeyIn ihash key cs).2.map Prod.snd

@[simp] theorem varChild_dict (id : FString) (h : BitVec 32) (cs : List Var) :
    varChild ihash (.dict id h cs) k = childIn ihash k cs := rfl

theorem childIn_cons (c : Var) (cs : List Var) : childIn ihash key (c :: cs) =
    if (c.hashcode = 0 ∨ c.hashcode = hashToken ihash key) ∧ c.id.str = key then some c
    else childIn ihash key cs := by
  simp only [childIn, findKeyIn]
  split
  · rfl
  · rw [Option.map_map]
    rfl

theorem childIn_id {cs : List Var} {c : Var} (h : childIn ihash key cs = some c) : c.id.str = key := by
  obtain ⟨⟨i, c⟩, hfound, rfl⟩ := Option.map_eq_some_iff.mp h
  exact (findKeyIn_some hfound).2.2

/-- A search finds the same, whether the hashes are filled in or not. -/
theorem childIn_rehashed {cs cs' : List Var} (h : List.Forall₂ (Var.Rehashed ihash) cs cs') :
    Option.Rel (Var.Rehashed ihash) (childIn ihash key cs) (childIn ihash key cs') := by
  induction h with
  | nil => exact .none
  | @cons c c' cs cs' hc _ ih =>
    have hcond : ((c'.hashcode = 0 ∨ c'.hashcode = hashToken ihash key) ∧ c'.id.str = key) ↔
        ((c.hashcode = 0 ∨ c.hashcode = hashToken ihash key) ∧ c.id.str = key) := by
      rw [hc.id_eq]
      refine and_congr_left fun hid => ?_
      obtain rfl | ⟨h0, rfl⟩ := hc
      · rfl
      · cases c <;> simp_all [Var.setHashcode, Var.hashcode, Var.id]
    rw [childIn_cons, childIn_cons]
    simp only [hcond]
    split
    · exact .some hc
    · exact ih

theorem childIn_append (cs : List Var) (c : Var) : childIn ihash key (cs ++ [c]) =
    (childIn ihash key cs).or (childIn ihash key [c]) := by
  induction cs with
  | nil => rfl
  | cons d cs ih =>
    rw [List.cons_append, childIn_cons, childIn_cons, ih]
    split <;> rfl

theorem childIn_set {cs : List Var} {i : Nat} {c w : Var} (hget : cs[i]? = some c)
    (hc : c.id.str ≠ key) (hw : w.id.str ≠ key) :
    childIn ihash key (cs.set i w) = childIn ihash key cs := by
  induction cs generalizing i with
  | nil => rfl
  | cons d cs ih =>
    cases i with
    | zero =>
      obtain rfl : d = c := by simpa using hget
      rw [List.set_cons_zero, childIn_cons, childIn_cons, if_neg fun h => hw h.2,
        if_neg fun h => hc h.2]
    | succ i =>
      rw [List.set_cons_succ, childIn_cons, childIn_cons, ih (by simpa using hget)]

theorem childIn_eraseIdx {cs : List Var} {i : Nat} {c : Var} (hget : cs[i]? = some c)
    (hc : c.id.str ≠ key) : childIn ihash key (cs.eraseIdx i) = childIn ihash key cs := by
  induction cs generalizing i with
  | nil => rfl
  | cons d cs ih =>
    cases i with
    | zero =>
      obtain rfl : d = c := by simpa using hget
      rw [List.eraseIdx_cons_zero, childIn_cons, if_neg fun h => hc h.2]
    | succ i =>
      rw [List.eraseIdx_cons_succ, childIn_cons, childIn_cons, ih (by simpa using hget)]

/-- A child that a search has found is changed in its place. -/
theorem childIn_set_found {key : List UInt8} {cs : List Var} {i : Nat} {e w : Var}
    (hfound : (findKeyIn ihash key cs).2 = some (i, e)) (hid : w.id = e.id)
    (hhash : w.hashcode = e.hashcode) :
    childIn ihash key ((findKeyIn ihash key cs).1.set i w) = some w := by
  induction cs generalizing i with
  | nil => cases hfound
  | cons c cs ih =>
    simp only [findKeyIn] at hfound ⊢
    split at hfound
    · rename_i hc
      obtain ⟨rfl, rfl⟩ := Prod.mk.inj (Option.some.inj hfound)
      rw [if_pos hc, List.set_cons_zero, childIn_cons, if_pos (by rwa [hid, hhash])]
    · rename_i hc
      obtain ⟨⟨j, r⟩, hj, heq⟩ := Option.map_eq_some_iff.mp hfound
      obtain ⟨rfl, rfl⟩ := Prod.mk.inj heq
      rw [if_neg hc, List.set_cons_succ, childIn_cons, ih hj, if_neg]
      rintro ⟨hh, hk⟩
      refine hc ⟨?_, ?_⟩
      · split at hh
        · exact .inl ‹_›
        · exact hh
      · split at hk
        · rwa [Var.id_setHashcode] at hk
        · exact hk

theorem map_bare_of_rel {o o' : Option Var} (h : Option.Rel (Var.Rehashed ihash) o o') :
    o'.map Var.bare = o.map Var.bare := by
  cases h with
  | none => rfl
  | some hc => exact congrArg some hc.bare_eq

/-- A child that is found, or made. -/
theorem varForkey_snd (v : Var) {make : FString → BitVec 32 → Var}
    (hhash : ∀ i h, (make i h).hashcode = h) : (varForkey ihash v key make).2.2 =
      (varChild ihash v key).getD (make (FString.strncpy key) (hashToken ihash key)) := by
  have hne : (make (FString.strncpy key) (hashToken ihash key)).hashcode ≠ 0 := by
    rw [hhash]
    exact hashToken_ne_zero ihash key
  simp only [varForkey, varChild]
  cases (varFindKey ihash v key).2 with
  | some p => rfl
  | none =>
    have hn : ¬ ((make (FString.strncpy key) (hashToken ihash key)).hashcode = 0 ∧
      (make (FString.strncpy key) (hashToken ihash key)).id.str ≠ []) := fun h => hne h.1
    simp only [varLink, if_neg hn]
    split <;> split <;> rfl

theorem varForkey_leaf {id : FString} {h : BitVec 32} {val : VarValue}
    {make : FString → BitVec 32 → Var}
    (hval : varFindKey ihash (.leaf id h val) key = (.leaf id h val, none)) :
    (varForkey ihash (.leaf id h val) key make).1 = .leaf id h val := by
  cases val with
  | null => cases hval
  | int _ =>
    simp only [varForkey, varFindKey, varLink]
    split <;> split <;> rfl
  | double _ =>
    simp only [varForkey, varFindKey, varLink]
    split <;> split <;> rfl
  | str _ =>
    simp only [varForkey, varFindKey, varLink]
    split <;> split <;> rfl

/-- Whatever was looked up or made, the other children are those there were. -/
theorem varForkey_childs (v : Var) {make : FString → BitVec 32 → Var} (hid : ∀ i h, (make i h).id = i)
    (hhash : ∀ i h, (make i h).hashcode = h) (k : List UInt8) :
    let v' := (varForkey ihash v key make).1
    Option.Rel (Var.Rehashed ihash) (varChild ihash v k) (varChild ihash v' k) ∨
      varChild ihash v k = none ∧ (FString.strncpy key).str = k ∧
        varChild ihash v' k = some (make (FString.strncpy key) (hashToken ihash key)) := by
  have hdict (id : FString) (h : BitVec 32) (cs : List Var) :
      let v' := (varForkey ihash (.dict id h cs) key make).1
      Option.Rel (Var.Rehashed ihash) (childIn ihash k cs) (varChild ihash v' k) ∨
        childIn ihash k cs = none ∧ (FString.strncpy key).str = k ∧
          varChild ihash v' k = some (make (FString.strncpy key) (hashToken ihash key)) := by
    have hr := varForkey_dict ihash key hid hhash id h cs
    generalize varForkey ihash (.dict id h cs) key make = r at hr ⊢
    cases hr with
    | found hre _ _ _ => exact .inl (childIn_rehashed hre)
    | orphan hre _ => exact .inl (childIn_rehashed hre)
    | linked hre _ _ _ =>
      have hrel : Option.Rel _ (childIn ihash k cs) _ := childIn_rehashed hre
      simp only [varChild_dict, childIn_append]
      generalize childIn ihash k cs = o at hrel ⊢
      generalize childIn ihash k _ = o' at hrel ⊢
      cases hrel with
      | some hc => exact .inl (.some hc)
      | none =>
        rw [Option.none_or, childIn_cons, hid]
        split
        · rename_i hcond
          exact .inr ⟨rfl, hcond.2, rfl⟩
        · exact .inl .none
  cases v with
  | dict id h cs => exact hdict id h cs
  | array id h cs =>
    have harray : ∃ ds, (varForkey ihash (.array id h cs) key make).1 = .array id h ds := by
      simp only [varForkey, varFindKey, varLink]
      split <;> split <;> exact ⟨_, rfl⟩
    obtain ⟨ds, hds⟩ := harray
    rw [hds]
    exact .inl .none
  | leaf id h val =>
    cases val with
    | null => exact hdict id h []
    | int _ =>
      rw [varForkey_leaf rfl]
      exact .inl .none
    | double _ =>
      rw [varForkey_leaf rfl]
      exact .inl .none
    | str _ =>
      rw [varForkey_leaf rfl]
      exact .inl .none

section Dict

/-- A dictionary is returned unless the key has another kind of child. -/
theorem varGetDictForkey_snd (v : Var) (key : List UInt8) :
    (varGetDictForkey ihash v key).2.map Prod.snd = match varChild ihash v key with
      | some c => if c.isNode true then some c else none
      | none => some (.dict (FString.strncpy key) (hashToken ihash key) []) := by
  have hsnd := @varForkey_snd ihash key v (fun id h => Var.node true id h [])
    fun i h => Var.hashcode_node true i h []
  simp only [varGetDictForkey, varGetNodeForkey]
  rw [hsnd]
  generalize varChild ihash v key = o at hsnd ⊢
  cases o with
  | none => exact congrArg some hsnd
  | some c =>
    simp only [Option.getD_some]
    split
    · exact congrArg some hsnd
    · rfl

theorem varGetDictForkey_fst (v : Var) (key : List UInt8) : (varGetDictForkey ihash v key).1 =
    (varForkey ihash v key fun id h => Var.node true id h []).1 := by
  simp only [varGetDictForkey, varGetNodeForkey]
  split <;> rfl

/-- The other children are those there were. -/
theorem varGetDictForkey_childs (v : Var) (key k : List UInt8) :
    let v' := (varGetDictForkey ihash v key).1
    Option.Rel (Var.Rehashed ihash) (varChild ihash v k) (varChild ihash v' k) ∨
      varChild ihash v k = none ∧ (FString.strncpy key).str = k ∧
        varChild ihash v' k = some (.dict (FString.strncpy key) (hashToken ihash key) []) := by
  rw [varGetDictForkey_fst]
  exact varForkey_childs v (fun i h => Var.id_node true i h []) (fun i h => Var.hashcode_node true i h []) k

theorem varGetDictForkey_child_ne (v : Var) {key k : List UInt8} (hne : (FString.strncpy key).str ≠ k) :
    Option.Rel (Var.Rehashed ihash) (varChild ihash v k)
      (varChild ihash (varGetDictForkey ihash v key).1 k) :=
  (varGetDictForkey_childs v key k).resolve_right fun h => hne h.2.1

end Dict

section Put

variable {make : FString → BitVec 32 → Var} {w : Var}

/-- A child that is found or made is changed: the other ones are those there were. -/
theorem varForkey_put_other (v : Var) (hid : ∀ i h, (make i h).id = i)
    (hhash : ∀ i h, (make i h).hashcode = h) (hw : w.id = (varForkey ihash v key make).2.2.id)
    (hk : (FString.strncpy key).str ≠ k) : Option.Rel (Var.Rehashed ihash) (varChild ihash v k)
      (varChild ihash ((varForkey ihash v key make).1.put (varForkey ihash v key make).2.1 w) k) := by
  have hdict (id : FString) (h : BitVec 32) (cs : List Var)
      (hw : w.id = (varForkey ihash (.dict id h cs) key make).2.2.id) :
      Option.Rel (Var.Rehashed ihash) (childIn ihash k cs)
        (varChild ihash ((varForkey ihash (.dict id h cs) key make).1.put
          (varForkey ihash (.dict id h cs) key make).2.1 w) k) := by
    have hr := varForkey_dict ihash key hid hhash id h cs
    generalize varForkey ihash (.dict id h cs) key make = r at hr hw ⊢
    cases hr with
    | @found cs' i res hre hget _ hkey =>
      have hstr : (FString.strncpy key).str = key := by rw [← hkey, FString.strncpy_str]
      have hne : res.id.str ≠ k := by rwa [hkey, ← hstr]
      rw [Var.put, varChild_dict, childIn_set hget hne (by rwa [hw])]
      exact childIn_rehashed hre
    | orphan hre _ => exact childIn_rehashed hre
    | @linked cs' i hre _ _ hi =>
      have hw : w.id = FString.strncpy key := hw.trans (hid _ _)
      have hlast : (cs' ++ [make (FString.strncpy key) (hashToken ihash key)]).set i w = cs' ++ [w] := by
        rw [hi, List.set_append_right _ _ (Nat.le_refl _), Nat.sub_self, List.set_cons_zero]
      have hnew : childIn ihash k [w] = none := by
        rw [childIn_cons, if_neg fun h => hk (hw ▸ h.2)]
        rfl
      rw [Var.put, hlast, varChild_dict, childIn_append, hnew, Option.or_none]
      exact childIn_rehashed hre
  cases v with
  | dict id h cs => exact hdict id h cs hw
  | array id h cs =>
    obtain ⟨ds, hds⟩ : ∃ ds, (varForkey ihash (.array id h cs) key make).1 = .array id h ds := by
      simp only [varForkey, varFindKey, varLink]
      split <;> split <;> exact ⟨_, rfl⟩
    rw [hds]
    cases (varForkey ihash (.array id h cs) key make).2.1 <;> exact .none
  | leaf id h val =>
    have hleaf (hval : varFindKey ihash (.leaf id h val) key = (.leaf id h val, none)) :
        Option.Rel (Var.Rehashed ihash) (varChild ihash (.leaf id h val) k)
          (varChild ihash ((varForkey ihash (.leaf id h val) key make).1.put
            (varForkey ihash (.leaf id h val) key make).2.1 w) k) := by
      rw [varForkey_leaf hval]
      cases (varForkey ihash (.leaf id h val) key make).2.1 <;> cases val <;> exact .none
    cases val with
    | null => exact hdict id h [] hw
    | int _ => exact hleaf rfl
    | double _ => exact hleaf rfl
    | str _ => exact hleaf rfl

/-- The child itself is the changed one, in a dict. -/
theorem varForkey_put_own (id : FString) (h : BitVec 32) (cs : List Var)
    (hid : ∀ i h, (make i h).id = i) (hhash : ∀ i h, (make i h).hashcode = h)
    (hkey : (FString.strncpy key).str = key) (hne : key ≠ [])
    (hw : w.id = (varForkey ihash (.dict id h cs) key make).2.2.id)
    (hwh : w.hashcode = (varForkey ihash (.dict id h cs) key make).2.2.hashcode) :
    varChild ihash ((varForkey ihash (.dict id h cs) key make).1.put
      (varForkey ihash (.dict id h cs) key make).2.1 w) key = some w := by
  have hm : (make (FString.strncpy key) (hashToken ihash key)).hashcode ≠ 0 := by
    rw [hhash]
    exact hashToken_ne_zero ihash key
  have hmid : (make (FString.strncpy key) (hashToken ihash key)).id.str ≠ [] := by
    rwa [hid, hkey]
  have hre := @childIn_rehashed ihash key _ _ (findKeyIn_rehashed ihash key cs)
  rw [childIn] at hre
  simp only [varForkey, varFindKey] at hw hwh ⊢
  cases hfound : (findKeyIn ihash key cs).2 with
  | some p =>
    rw [hfound] at hw hwh
    exact childIn_set_found hfound hw hwh
  | none =>
    rw [hfound] at hw hwh
    simp only [varLink_dict hm hmid] at hw hwh
    simp only [varLink_dict hm hmid, Var.put]
    have hlast : ((findKeyIn ihash key cs).1 ++ [make (FString.strncpy key) (hashToken ihash key)]).set
        (findKeyIn ihash key cs).1.length w = (findKeyIn ihash key cs).1 ++ [w] := by
      rw [List.set_append_right _ _ (Nat.le_refl _), Nat.sub_self, List.set_cons_zero]
    have hnew : childIn ihash key [w] = some w := by
      rw [childIn_cons, if_pos ⟨.inr (by rw [hwh, hhash]), by rw [hw, hid, hkey]⟩]
    rw [hlast, varChild_dict, childIn_append, hnew]
    rw [hfound] at hre
    generalize childIn ihash key (findKeyIn ihash key cs).1 = o at hre ⊢
    cases hre
    rfl

end Put

section Fields

@[simp] theorem id_varSet (v : Var) (val : VarValue) : (varSet v val).id = v.id := by
  cases v with
  | leaf id h old => cases old <;> cases val <;> rfl
  | dict _ _ _ => rfl
  | array _ _ _ => rfl

@[simp] theorem hashcode_varSet (v : Var) (val : VarValue) : (varSet v val).hashcode = v.hashcode := by
  cases v with
  | leaf id h old => cases old <;> cases val <;> rfl
  | dict _ _ _ => rfl
  | array _ _ _ => rfl

theorem varSetForkey_found {id : FString} {h : BitVec 32} {cs : List Var} {val : VarValue} {i : Nat}
    {c : Var} (hf : (findKeyIn ihash key cs).2 = some (i, c)) :
    varSetForkey ihash (.dict id h cs) key val =
      .dict id h ((findKeyIn ihash key cs).1.set i (varSet c val)) := by
  simp only [varSetForkey, varGetOrMake, varForkey, varFindKey, hf, Var.put]

theorem varSetForkey_absent {id : FString} {h : BitVec 32} {cs : List Var} {val : VarValue}
    (hf : (findKeyIn ihash key cs).2 = none) :
    varSetForkey ihash (.dict id h cs) key val =
      if (FString.strncpy key).str = [] then .dict id h (findKeyIn ihash key cs).1
      else .dict id h ((findKeyIn ihash key cs).1 ++
        [.leaf (FString.strncpy key) (hashToken ihash key) val]) := by
  have hne : (Var.leaf (FString.strncpy key) (hashToken ihash key) .null).hashcode ≠ 0 :=
    hashToken_ne_zero ihash key
  have hid : (Var.leaf (FString.strncpy key) (hashToken ihash key) .null).id = FString.strncpy key := rfl
  simp only [varSetForkey, varGetOrMake, varForkey, varFindKey, hf]
  by_cases hkey : (FString.strncpy key).str = []
  · rw [if_pos hkey, varLink_dict_noid (by rw [hid, hkey])]
    rfl
  · rw [if_neg hkey, varLink_dict hne (by rwa [hid])]
    simp [Var.put, varSet, List.set_append_right]

/-- Setting a value leaves the other keys alone. -/
theorem varSetForkey_other (v : Var) (val : VarValue) (hk : (FString.strncpy key).str ≠ k) :
    Option.Rel (Var.Rehashed ihash) (varChild ihash v k) (varChild ihash (varSetForkey ihash v key val) k) := by
  have hput (v : Var) := @varForkey_put_other ihash key k (fun id h => .leaf id h .null)
    (varSet (varForkey ihash v key fun id h => .leaf id h .null).2.2 val) v
    (fun _ _ => rfl) (fun _ _ => rfl) (id_varSet _ val) hk
  cases v with
  | leaf id h old =>
    cases old with
    | null => exact hput (.dict id h [])
    | int _ => exact hput _
    | double _ => exact hput _
    | str _ => exact hput _
  | dict id h cs => exact hput _
  | array id h cs => exact hput _

/-- The key has the value if it had none, or one of the same type. -/
theorem varSetForkey_own (id : FString) (h : BitVec 32) (cs : List Var) (val : VarValue)
    (hkey : (FString.strncpy key).str = key) (hne : key ≠ []) :
    varChild ihash (varSetForkey ihash (.dict id h cs) key val) key = some (varSet
      ((varChild ihash (.dict id h cs) key).getD (.leaf (FString.strncpy key) (hashToken ihash key) .null))
        val) := by
  have hput := @varForkey_put_own ihash key (fun id h => .leaf id h .null)
    (varSet (varForkey ihash (.dict id h cs) key fun id h => .leaf id h .null).2.2 val) id h cs
    (fun _ _ => rfl) (fun _ _ => rfl) hkey hne (id_varSet _ val) (hashcode_varSet _ val)
  refine Eq.trans hput ?_
  rw [@varForkey_snd ihash key _ (fun id h => .leaf id h .null) fun _ _ => rfl]

/-- Taking a key out leaves the other ones alone. -/
theorem varDeleteKey_other (v : Var) (hk : key ≠ k) :
    Option.Rel (Var.Rehashed ihash) (varChild ihash v k) (varChild ihash (varDeleteKey ihash v key) k) := by
  have hrefl (v : Var) : Option.Rel (Var.Rehashed ihash) (varChild ihash v k) (varChild ihash v k) := by
    cases varChild ihash v k with
    | none => exact .none
    | some c => exact .some (.inl rfl)
  cases v with
  | leaf _ _ _ => exact hrefl _
  | array _ _ _ => exact hrefl _
  | dict id h cs =>
    have hre := @childIn_rehashed ihash k _ _ (findKeyIn_rehashed ihash key cs)
    simp only [varDeleteKey, varFindKey]
    cases hfound : (findKeyIn ihash key cs).2 with
    | none => exact hre
    | some p =>
      obtain ⟨i, c⟩ := p
      obtain ⟨hget, -, hck⟩ := findKeyIn_some hfound
      show Option.Rel _ _ (childIn ihash k ((findKeyIn ihash key cs).1.eraseIdx i))
      rw [childIn_eraseIdx hget (by rwa [hck])]
      exact hre

end Fields

/-- A text under a key is the same in what is the same but for hashes. -/
theorem varGetStrForkey_of_rel {v v' : Var}
    (h : Option.Rel (Var.Rehashed ihash) (varChild ihash v k) (varChild ihash v' k)) :
    varGetStrForkey ihash v' k = varGetStrForkey ihash v k := by
  simp only [varGetStrForkey]
  generalize varChild ihash v k = o at h ⊢
  generalize varChild ihash v' k = o' at h ⊢
  cases h with
  | none => rfl
  | some hc => exact hc.varGetStr

end Opticon
