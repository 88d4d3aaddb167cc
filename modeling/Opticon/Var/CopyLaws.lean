import Opticon.Var.Access
import Opticon.Var.Bare

/-! Trees that are copied, merged and edited, and stay trees that can be stored. -/

namespace Opticon

variable {ihash : BitVec 32} {n : Nat}

/-- A child of a dict, under a key that can be stored, with the hash of it. -/
structure Var.Keyed (ihash : BitVec 32) (c : Var) : Prop where
  ne : c.id.str ≠ []
  newline : 10 ∉ c.id.str
  hash : c.hashcode = hashToken ihash c.id.str

/-- What can be written and read again without loss, and whose keys are all found. -/
inductive Var.Clean (ihash : BitVec 32) : Nat → Var → Prop
  | leaf {n : Nat} {id : FString} {h : BitVec 32} {val : VarValue} : val.Formed →
      (valueText val).length ≤ 4095 → Clean ihash n (.leaf id h val)
  | dict {n : Nat} {id : FString} {h : BitVec 32} {cs : List Var} : (cs.map Var.id).Nodup →
      (∀ c ∈ cs, c.Keyed ihash) → (∀ c ∈ cs, c.Clean ihash n) → Clean ihash (n + 1) (.dict id h cs)
  | array {n : Nat} {id : FString} {h : BitVec 32} {cs : List Var} : (∀ c ∈ cs, c.id.str = []) →
      (∀ c ∈ cs, c.Clean ihash n) → Clean ihash (n + 1) (.array id h cs)

namespace Var

theorem Clean.formed {v : Var} (hv : v.Clean ihash n) : v.Formed := by
  induction hv with
  | leaf hval _ => exact .leaf hval
  | dict _ hk _ ih => exact .dict (fun c hc => (hk c hc).ne) ih
  | array hid _ ih => exact .array hid ih

theorem Clean.printable {v : Var} (hv : v.Clean ihash n) : v.Printable := by
  induction hv with
  | leaf _ hlen => exact .leaf hlen
  | dict _ _ _ ih => exact .dict ih
  | array _ _ ih => exact .array ih

theorem Clean.plain {v : Var} (hv : v.Clean ihash n) : v.Plain n := by
  induction hv with
  | leaf _ _ => exact .leaf
  | dict hnd hk _ ih => exact .dict hnd (fun c hc => (hk c hc).newline) ih
  | array _ _ ih => exact .array ih

/-- A tidy tree of the parser whose values fit is clean. -/
theorem Tidy.clean {v : Var} (hv : v.Tidy ihash n) (hf : v.Formed) (hp : v.Printable) :
    v.Clean ihash n := by
  induction hv with
  | leaf =>
    cases hf with
    | leaf hval =>
      cases hp with
      | leaf hlen => exact .leaf hval hlen
  | dict hnd hnl hh _ ih =>
    cases hf with
    | dict hne hf =>
      cases hp with
      | dict hp =>
        exact .dict hnd (fun c hc => ⟨hne c hc, hnl c hc, hh c hc⟩)
          fun c hc => ih c hc (hf c hc) (hp c hc)
  | array _ ih =>
    cases hf with
    | array hid hf =>
      cases hp with
      | array hp => exact .array hid fun c hc => ih c hc (hf c hc) (hp c hc)

theorem Clean.setHashcode {v : Var} (hv : v.Clean ihash n) (h : BitVec 32) :
    (v.setHashcode h).Clean ihash n := by
  cases hv with
  | leaf h₁ h₂ => exact .leaf h₁ h₂
  | dict h₁ h₂ h₃ => exact .dict h₁ h₂ h₃
  | array h₁ h₂ => exact .array h₁ h₂

theorem Clean.setId {v : Var} (hv : v.Clean ihash n) (id : FString) :
    (v.setId id).Clean ihash n := by
  cases hv with
  | leaf h₁ h₂ => exact .leaf h₁ h₂
  | dict h₁ h₂ h₃ => exact .dict h₁ h₂ h₃
  | array h₁ h₂ => exact .array h₁ h₂

@[simp] theorem id_setId (v : Var) (id : FString) : (v.setId id).id = id := by
  cases v <;> rfl

@[simp] theorem hashcode_setId (v : Var) (id : FString) :
    (v.setId id).hashcode = v.hashcode := by
  cases v <;> rfl

@[simp] theorem hashcode_setHashcode (v : Var) (h : BitVec 32) :
    (v.setHashcode h).hashcode = h := by
  cases v <;> rfl

end Var

section Clone

/-- A clone as it hangs below a dict. -/
def varKeyedClone (ihash : BitVec 32) (c : Var) : Var :=
  ((varClone ihash c).setId c.id).setHashcode (hashToken ihash c.id.str)

theorem varLinkAs_dict {self : Var} {key : FString} (hh : self.hashcode = 0) (hk : key.str ≠ [])
    (id : FString) (h : BitVec 32) (cs : List Var) :
    varLinkAs ihash self (.dict id h cs) key =
      .dict id h (cs ++ [(self.setId key).setHashcode (hashToken ihash key.str)]) := by
  have hn : (self.setId key).hashcode = 0 ∧ (self.setId key).id.str ≠ [] := by
    rw [Var.hashcode_setId, Var.id_setId]
    exact ⟨hh, hk⟩
  have hid : ((self.setId key).setHashcode (hashToken ihash (self.setId key).id.str)).id.str ≠ [] := by
    rw [Var.id_setHashcode]
    exact hn.2
  simp only [varLinkAs, varLink, if_pos hn, if_neg hid]
  rw [Var.id_setId]

/-- A fresh var. -/
def Var.Unlinked (v : Var) : Prop := v.id = FString.empty ∧ v.hashcode = 0

theorem varCloneInto_dict {cs : List Var} (hid : ∀ c ∈ cs, c.id.str ≠ [])
    (hc : ∀ c ∈ cs, (varClone ihash c).Unlinked) (id : FString) (h : BitVec 32) (ds : List Var) :
    varCloneInto ihash true (.dict id h ds) cs =
      .dict id h (ds ++ cs.map (varKeyedClone ihash)) := by
  induction cs generalizing ds with
  | nil => simp [varCloneInto]
  | cons c cs ih =>
    have hlink := @varLinkAs_dict ihash _ _ (hc c List.mem_cons_self).2
      (hid c List.mem_cons_self) id h ds
    simp only [varCloneInto, if_true, hlink]
    rw [ih (fun x hx => hid x (List.mem_cons_of_mem c hx))
      (fun x hx => hc x (List.mem_cons_of_mem c hx))]
    simp [varKeyedClone]

theorem varCloneInto_array {cs : List Var} (hc : ∀ c ∈ cs, (varClone ihash c).Unlinked)
    (id : FString) (h : BitVec 32) (ds : List Var) :
    varCloneInto ihash false (.array id h ds) cs = .array id h (ds ++ cs.map (varClone ihash)) := by
  induction cs generalizing ds with
  | nil => simp [varCloneInto]
  | cons c cs ih =>
    have hid : (varClone ihash c).id.str = [] := by
      rw [(hc c List.mem_cons_self).1]
      rfl
    simp only [varCloneInto, Bool.false_eq_true, if_false, varLink_array hid]
    rw [ih fun x hx => hc x (List.mem_cons_of_mem c hx)]
    simp

/-- The children of a dict have keys, and the elements of an array have none. -/
inductive Var.Linkable : Var → Prop
  | leaf {id : FString} {h : BitVec 32} {val : VarValue} : Linkable (.leaf id h val)
  | dict {id : FString} {h : BitVec 32} {cs : List Var} :
      (∀ c ∈ cs, c.id.str ≠ []) → (∀ c ∈ cs, c.Linkable) → Linkable (.dict id h cs)
  | array {id : FString} {h : BitVec 32} {cs : List Var} :
      (∀ c ∈ cs, c.id.str = []) → (∀ c ∈ cs, c.Linkable) → Linkable (.array id h cs)

theorem Var.Formed.linkable {v : Var} (hv : v.Formed) : v.Linkable := by
  induction hv with
  | leaf _ => exact .leaf
  | dict hid _ ih => exact .dict hid ih
  | array hid _ ih => exact .array hid ih

variable (ihash) in
theorem Var.Linkable.clone_unlinked {v : Var} (hv : v.Linkable) : (varClone ihash v).Unlinked := by
  induction hv with
  | leaf => exact ⟨rfl, rfl⟩
  | dict hid _ ih =>
    rw [varClone, varCloneInto_dict hid ih]
    exact ⟨rfl, rfl⟩
  | array _ _ ih =>
    rw [varClone, varCloneInto_array ih]
    exact ⟨rfl, rfl⟩

theorem Var.Formed.clone_unlinked {v : Var} (hv : v.Formed) : (varClone ihash v).Unlinked :=
  hv.linkable.clone_unlinked ihash

variable (ihash) in
theorem Var.Linkable.varClone_dict {id : FString} {h : BitVec 32} {cs : List Var}
    (hv : (Var.dict id h cs).Linkable) :
    varClone ihash (.dict id h cs) = .dict FString.empty 0 (cs.map (varKeyedClone ihash)) := by
  cases hv with
  | dict hid hc =>
    rw [varClone, varCloneInto_dict hid (fun c hmem => (hc c hmem).clone_unlinked ihash), List.nil_append]

variable (ihash) in
theorem Var.Linkable.varClone_array {id : FString} {h : BitVec 32} {cs : List Var}
    (hv : (Var.array id h cs).Linkable) :
    varClone ihash (.array id h cs) = .array FString.empty 0 (cs.map (varClone ihash)) := by
  cases hv with
  | array _ hc =>
    rw [varClone, varCloneInto_array (fun c hmem => (hc c hmem).clone_unlinked ihash), List.nil_append]

theorem Var.bare_setId (v : Var) (id : FString) : (v.setId id).bare = v.bare.setId id := by
  cases v <;> simp [setId]

theorem Var.setId_self (v : Var) : v.setId v.id = v := by
  cases v <;> rfl

theorem Var.setId_setId (v : Var) (id id' : FString) : (v.setId id).setId id' = v.setId id' := by
  cases v <;> rfl

/-- A clone says what the var says, but for the key. -/
theorem Var.Linkable.clone_bare {v : Var} (hv : v.Linkable) :
    (varClone ihash v).bare = v.bare.setId FString.empty := by
  induction hv with
  | leaf => rw [varClone, varAlloc, bare_leaf, bare_leaf]; rfl
  | @dict id h cs hn hc ih =>
    rw [Linkable.varClone_dict ihash (.dict hn hc), bare_dict, bare_dict, List.map_map]
    show Var.dict _ 0 _ = Var.dict _ 0 _
    congr 1
    refine List.map_congr_left fun c hmem => ?_
    rw [Function.comp_apply, varKeyedClone, bare_setHashcode, bare_setId, ih c hmem, setId_setId,
      ← id_bare, setId_self]
  | @array id h cs hid hc ih =>
    rw [Linkable.varClone_array ihash (.array hid hc), bare_array, bare_array, List.map_map]
    show Var.array _ 0 _ = Var.array _ 0 _
    congr 1
    refine List.map_congr_left fun c hmem => ?_
    have hempty : c.id = FString.empty := FString.ext (hid c hmem)
    rw [Function.comp_apply, ih c hmem, ← hempty, ← id_bare, setId_self]

theorem Var.Linkable.bare_keyedClone {c : Var} (hc : c.Linkable) :
    (varKeyedClone ihash c).bare = c.bare := by
  rw [varKeyedClone, bare_setHashcode, bare_setId, hc.clone_bare, setId_setId, ← id_bare, setId_self]

theorem Var.Linkable.setHashcode {v : Var} (hv : v.Linkable) (h : BitVec 32) :
    (v.setHashcode h).Linkable := by
  cases hv with
  | leaf => exact .leaf
  | dict h₁ h₂ => exact .dict h₁ h₂
  | array h₁ h₂ => exact .array h₁ h₂

theorem Var.Linkable.setId {v : Var} (hv : v.Linkable) (id : FString) : (v.setId id).Linkable := by
  cases hv with
  | leaf => exact .leaf
  | dict h₁ h₂ => exact .dict h₁ h₂
  | array h₁ h₂ => exact .array h₁ h₂

variable (ihash) in
theorem Var.Linkable.clone {v : Var} (hv : v.Linkable) : (varClone ihash v).Linkable := by
  induction hv with
  | leaf => exact .leaf
  | @dict id h cs hid hcs ih =>
    rw [(Var.Linkable.dict (h := h) hid hcs).varClone_dict]
    refine .dict ?_ ?_
    · intro x hx
      obtain ⟨c, hc, rfl⟩ := List.mem_map.mp hx
      rw [varKeyedClone, id_setHashcode, id_setId]
      exact hid c hc
    · intro x hx
      obtain ⟨c, hc, rfl⟩ := List.mem_map.mp hx
      exact ((ih c hc).setId _).setHashcode _
  | @array id h cs hid hcs ih =>
    rw [(Var.Linkable.array (h := h) hid hcs).varClone_array]
    refine .array ?_ ?_
    · intro x hx
      obtain ⟨c, hc, rfl⟩ := List.mem_map.mp hx
      rw [((hcs c hc).clone_unlinked ihash).1]
      rfl
    · intro x hx
      obtain ⟨c, hc, rfl⟩ := List.mem_map.mp hx
      exact ih c hc

/-- What can be stored at a depth, but for the hashes of its keys. -/
structure Var.Copyable (n : Nat) (v : Var) : Prop where
  formed : v.Formed
  printable : v.Printable
  plain : v.Plain n

theorem Var.Copyable.children {v : Var} (hv : v.Copyable (n + 1)) : ∀ c ∈ v.children, c.Copyable n := by
  obtain ⟨hf, hp, hpl⟩ := hv
  cases hf with
  | leaf _ => simp [Var.children]
  | dict _ hf =>
    cases hp with
    | dict hp =>
      cases hpl with
      | dict _ _ hpl => exact fun c hc => ⟨hf c hc, hp c hc, hpl c hc⟩
  | array _ hf =>
    cases hp with
    | array hp =>
      cases hpl with
      | array hpl => exact fun c hc => ⟨hf c hc, hp c hc, hpl c hc⟩

theorem varKeyedClone_keyed {c : Var} (hne : c.id.str ≠ []) (hnl : 10 ∉ c.id.str) :
    (varKeyedClone ihash c).id = c.id ∧ (varKeyedClone ihash c).Keyed ihash := by
  have hid : (varKeyedClone ihash c).id = c.id := by
    rw [varKeyedClone, Var.id_setHashcode, Var.id_setId]
  refine ⟨hid, ?_, ?_, ?_⟩
  · rwa [hid]
  · rwa [hid]
  · rw [hid, varKeyedClone, Var.hashcode_setHashcode]

theorem Var.Clean.keyedClone {c : Var} (h : (varClone ihash c).Clean ihash n) :
    (varKeyedClone ihash c).Clean ihash n :=
  (h.setId _).setHashcode _

theorem map_id_keyedClone (cs : List Var) : (cs.map (varKeyedClone ihash)).map Var.id = cs.map Var.id := by
  rw [List.map_map]
  apply List.map_congr_left
  intro c _
  simp [varKeyedClone]

theorem Var.Plain.clone_clean {v : Var} (hv : v.Plain n) (hf : v.Formed) (hp : v.Printable) :
    (varClone ihash v).Clean ihash n := by
  induction hv with
  | leaf =>
    cases hf with
    | leaf hval =>
      cases hp with
      | leaf hlen => exact .leaf hval hlen
  | @dict n id h cs hnd hnl _ ih =>
    cases hf with
    | dict hid hf =>
      cases hp with
      | dict hp =>
        rw [varClone, varCloneInto_dict hid fun c hc => (hf c hc).clone_unlinked, List.nil_append]
        refine .dict ?_ ?_ ?_
        · rwa [map_id_keyedClone]
        · intro c' hc'
          obtain ⟨c, hc, rfl⟩ := List.mem_map.mp hc'
          exact (varKeyedClone_keyed (hid c hc) (hnl c hc)).2
        · intro c' hc'
          obtain ⟨c, hc, rfl⟩ := List.mem_map.mp hc'
          exact (ih c hc (hf c hc) (hp c hc)).keyedClone
  | @array n id h cs _ ih =>
    cases hf with
    | array hid hf =>
      cases hp with
      | array hp =>
        rw [varClone, varCloneInto_array fun c hc => (hf c hc).clone_unlinked, List.nil_append]
        refine .array ?_ ?_
        · intro c' hc'
          obtain ⟨c, hc, rfl⟩ := List.mem_map.mp hc'
          rw [(hf c hc).clone_unlinked.1]
          rfl
        · intro c' hc'
          obtain ⟨c, hc, rfl⟩ := List.mem_map.mp hc'
          exact ih c hc (hf c hc) (hp c hc)

theorem Var.Copyable.clone {v : Var} (hv : v.Copyable n) : (varClone ihash v).Clean ihash n :=
  hv.plain.clone_clean hv.formed hv.printable

/-- A copy is a clone under another key. -/
theorem Var.Linkable.varCopy_eq {v : Var} (hv : v.Linkable) (self : Var) :
    varCopy ihash self v = ((varClone ihash v).setId self.id).setHashcode self.hashcode := by
  cases hv with
  | leaf => rfl
  | dict hid hl =>
    rw [varCopy, varClone, varCloneInto_dict hid fun c hc => (hl c hc).clone_unlinked ihash,
      varCloneInto_dict hid fun c hc => (hl c hc).clone_unlinked ihash]
    rfl
  | array _ hl =>
    rw [varCopy, varClone, varCloneInto_array fun c hc => (hl c hc).clone_unlinked ihash,
      varCloneInto_array fun c hc => (hl c hc).clone_unlinked ihash]
    rfl

/-- A copy says what the original says, but for the key. -/
theorem Var.Linkable.copy_bare {v : Var} (hv : v.Linkable) (self : Var) :
    (varCopy ihash self v).bare = v.bare.setId self.id := by
  rw [hv.varCopy_eq, bare_setHashcode, bare_setId, hv.clone_bare, setId_setId]

theorem Var.Copyable.copy {v : Var} (hv : v.Copyable n) (self : Var) :
    (varCopy ihash self v).Clean ihash n ∧ (varCopy ihash self v).id = self.id ∧
      (varCopy ihash self v).hashcode = self.hashcode := by
  rw [hv.formed.linkable.varCopy_eq]
  refine ⟨(hv.clone.setId _).setHashcode _, ?_, ?_⟩
  · rw [Var.id_setHashcode, Var.id_setId]
  · rw [Var.hashcode_setHashcode]

end Clone

section Update

/-- The child of a dict under a key. -/
def Var.at (v : Var) (key : List UInt8) : Option Var := v.children.find? fun c => c.id.str = key

/-- A clean dict whose child under a key may be another one, or a new one. -/
structure Var.Updated (ihash : BitVec 32) (n : Nat) (key : List UInt8) (v v' : Var) : Prop where
  clean : v'.Clean ihash (n + 1)
  dict : ∃ bs, v' = .dict v.id v.hashcode bs
  other : ∀ k, k ≠ key → v'.at k = v.at k

/-- In a clean dict the child with a key is found where it is. -/
theorem varFindKey_clean {id : FString} {h : BitVec 32} {cs : List Var}
    (hv : (Var.dict id h cs).Clean ihash (n + 1)) (key : List UInt8) :
    (∃ i c, cs[i]? = some c ∧ c.id.str = key ∧
      varFindKey ihash (.dict id h cs) key = (.dict id h cs, some (i, c))) ∨
    (∀ c ∈ cs, c.id.str ≠ key) ∧
      varFindKey ihash (.dict id h cs) key = (.dict id h cs, none) := by
  cases hv with
  | dict hnd hkey hcs =>
    have hre := Var.Rehashed.eq_of_hashed (findKeyIn_rehashed ihash key cs) fun c hc => (hkey c hc).hash
    simp only [varFindKey]
    cases hfound : (findKeyIn ihash key cs).2 with
    | none =>
      rw [hre]
      refine .inr ⟨?_, rfl⟩
      rintro c hc rfl
      exact findKeyIn_none hfound c hc (.inr (hkey c hc).hash) rfl
    | some p =>
      obtain ⟨i, c⟩ := p
      obtain ⟨hget, -, hck⟩ := findKeyIn_some hfound
      rw [hre] at hget ⊢
      exact .inl ⟨i, c, hget, hck, rfl⟩

/-- Or it is linked in at the end. -/
theorem varForkey_clean {id : FString} {h : BitVec 32} {cs : List Var}
    (hv : (Var.dict id h cs).Clean ihash (n + 1)) {key : FString} (hk : key.str ≠ [])
    {make : FString → BitVec 32 → Var} (hid : ∀ i h, (make i h).id = i)
    (hhash : ∀ i h, (make i h).hashcode = h) :
    (∃ i c, cs[i]? = some c ∧ c.id = key ∧
      varForkey ihash (.dict id h cs) key.str make = (.dict id h cs, some i, c)) ∨
    (∀ c ∈ cs, c.id ≠ key) ∧ varForkey ihash (.dict id h cs) key.str make =
      (.dict id h (cs ++ [make key (hashToken ihash key.str)]), some cs.length,
        make key (hashToken ihash key.str)) := by
  obtain ⟨i, c, hget, hck, hr⟩ | ⟨hnew, hr⟩ := varFindKey_clean hv key.str
  · refine .inl ⟨i, c, hget, FString.ext hck, ?_⟩
    simp only [varForkey, hr]
  · refine .inr ⟨fun c hc hck => hnew c hc (congrArg FString.str hck), ?_⟩
    have hne : (make key (hashToken ihash key.str)).hashcode ≠ 0 := by
      rw [hhash]
      exact hashToken_ne_zero ihash _
    simp only [varForkey, hr, FString.strncpy_str]
    rw [varLink_dict hne (by rwa [hid])]

theorem find?_set_ne {cs : List Var} {i : Nat} {c vv : Var} (hget : cs[i]? = some c)
    (hid : vv.id = c.id) {k : List UInt8} (hk : k ≠ c.id.str) :
    (cs.set i vv).find? (fun c => c.id.str = k) = cs.find? fun c => c.id.str = k := by
  induction cs generalizing i with
  | nil => rfl
  | cons d cs ih =>
    cases i with
    | zero =>
      obtain rfl : d = c := by simpa using hget
      rw [List.set_cons_zero, List.find?_cons_of_neg (by rw [hid]; simpa using hk.symm),
        List.find?_cons_of_neg (by simpa using hk.symm)]
    | succ i =>
      rw [List.set_cons_succ, List.find?_cons, List.find?_cons, ih (by simpa using hget)]

theorem find?_eraseIdx_ne {cs : List Var} {i : Nat} {c : Var} (hget : cs[i]? = some c)
    {k : List UInt8} (hk : k ≠ c.id.str) :
    (cs.eraseIdx i).find? (fun c => c.id.str = k) = cs.find? fun c => c.id.str = k := by
  induction cs generalizing i with
  | nil => rfl
  | cons d cs ih =>
    cases i with
    | zero =>
      obtain rfl : d = c := by simpa using hget
      rw [List.eraseIdx_cons_zero, List.find?_cons_of_neg (by simpa using hk.symm)]
    | succ i =>
      rw [List.eraseIdx_cons_succ, List.find?_cons, List.find?_cons, ih (by simpa using hget)]

/-- The child in place of the one found, or at the end. -/
theorem Var.Clean.set {id : FString} {h : BitVec 32} {cs : List Var}
    (hv : (Var.dict id h cs).Clean ihash (n + 1)) {i : Nat} {c vv : Var} (hget : cs[i]? = some c)
    (hvv : vv.Clean ihash n) (hid : vv.id = c.id) (hh : vv.hashcode = c.hashcode) :
    Updated ihash n c.id.str (.dict id h cs) (.dict id h (cs.set i vv)) := by
  cases hv with
  | dict hnd hkey hcs =>
    have hmem : c ∈ cs := List.mem_of_getElem? hget
    have hall {P : Var → Prop} (h : ∀ c ∈ cs, P c) (hv : P vv) : ∀ c ∈ cs.set i vv, P c := by
      intro c hc
      obtain hc | rfl := List.mem_or_eq_of_mem_set hc
      · exact h c hc
      · exact hv
    refine ⟨.dict ?_ (hall hkey ?_) (hall hcs hvv), ⟨_, rfl⟩,
      fun k hk => find?_set_ne hget hid hk⟩
    · obtain ⟨hi, rfl⟩ := List.getElem?_eq_some_iff.mp hget
      have hmap : (cs.set i vv).map Var.id = cs.map Var.id := by
        rw [List.map_set, hid, ← List.map_set]
        exact congrArg _ (List.set_getElem_self hi)
      rwa [hmap]
    · obtain ⟨hne, hnl, hhash⟩ := hkey c hmem
      exact ⟨hid ▸ hne, hid ▸ hnl, by rw [hh, hid, hhash]⟩

theorem Var.Clean.append {id : FString} {h : BitVec 32} {cs : List Var}
    (hv : (Var.dict id h cs).Clean ihash (n + 1)) {vv : Var} (hvv : vv.Clean ihash n)
    (hnew : ∀ c ∈ cs, c.id ≠ vv.id) (hkeyed : vv.Keyed ihash) :
    Updated ihash n vv.id.str (.dict id h cs) (.dict id h (cs ++ [vv])) := by
  cases hv with
  | dict hnd hkey hcs =>
    refine ⟨.dict ?_ (forall_mem_append_singleton hkey hkeyed) (forall_mem_append_singleton hcs hvv),
      ⟨_, rfl⟩, ?_⟩
    · rw [List.map_append, List.map_cons, List.map_nil]
      refine List.nodup_append.mpr ⟨hnd, by simp, ?_⟩
      intro a ha b hb
      obtain ⟨c, hc, rfl⟩ := List.mem_map.mp ha
      rw [List.mem_singleton.mp hb]
      exact hnew c hc
    · intro k hk
      change (cs ++ [vv]).find? _ = cs.find? _
      rw [List.find?_append]
      simp [hk.symm]

/-- A key that a child of a clean dict may have. -/
structure FString.IsKey (key : FString) : Prop where
  ne : key.str ≠ []
  newline : 10 ∉ key.str

/-- Whatever becomes of the child with a key, it is written into its place. -/
theorem Var.Clean.put_forkey {id : FString} {h : BitVec 32} {cs : List Var}
    (hv : (Var.dict id h cs).Clean ihash (n + 1)) {key : FString} (hk : key.IsKey)
    {make : FString → BitVec 32 → Var} (hid : ∀ i h, (make i h).id = i)
    (hhash : ∀ i h, (make i h).hashcode = h) {vv : Var} (hvv : vv.Clean ihash n)
    (hvid : vv.id = (varForkey ihash (.dict id h cs) key.str make).2.2.id)
    (hvh : vv.hashcode = (varForkey ihash (.dict id h cs) key.str make).2.2.hashcode) :
    let r := varForkey ihash (.dict id h cs) key.str make
    Updated ihash n key.str (.dict id h cs) (r.1.put r.2.1 vv) ∧ (r.1.put r.2.1 vv).children ≠ [] := by
  obtain ⟨i, c, hget, rfl, hr⟩ | ⟨hnew, hr⟩ := varForkey_clean hv hk.ne hid hhash
  · rw [hr] at hvid hvh ⊢
    refine ⟨hv.set hget hvv hvid hvh, ?_⟩
    intro hnil
    have hlen : (cs.set i vv).length = 0 := congrArg List.length hnil
    rw [List.length_set] at hlen
    rw [List.eq_nil_of_length_eq_zero hlen] at hget
    cases hget
  · rw [hr] at hvid hvh ⊢
    have hvid : vv.id = key := hvid.trans (hid _ _)
    have hput : (Var.dict id h (cs ++ [make key (hashToken ihash key.str)])).put (some cs.length) vv =
        .dict id h (cs ++ [vv]) := put_last true id h cs _ vv
    simp only [hput]
    subst hvid
    have hkeyed : vv.Keyed ihash := ⟨hk.ne, hk.newline, hvh.trans (hhash _ _)⟩
    exact ⟨hv.append hvv hnew hkeyed, by simp [Var.children]⟩

/-- The child that is found or made has the key, and is clean if the one that is made is. -/
theorem varForkey_child {id : FString} {h : BitVec 32} {cs : List Var}
    (hv : (Var.dict id h cs).Clean ihash (n + 1)) {key : FString} (hk : key.str ≠ [])
    {make : FString → BitVec 32 → Var} (hid : ∀ i h, (make i h).id = i)
    (hhash : ∀ i h, (make i h).hashcode = h) {P : Var → Prop} (hcs : ∀ c, c.Clean ihash n → P c)
    (hmake : ∀ i h, P (make i h)) : P (varForkey ihash (.dict id h cs) key.str make).2.2 := by
  obtain ⟨i, c, hget, rfl, hr⟩ | ⟨hnew, hr⟩ := varForkey_clean hv hk hid hhash
  · rw [hr]
    cases hv with
    | dict _ _ hclean => exact hcs c (hclean c (List.mem_of_getElem? hget))
  · rw [hr]
    exact hmake _ _

theorem varSet_clean {v : Var} {val : VarValue} (hv : v.Clean ihash n ∨ ∃ id h, v = .leaf id h .null)
    (hval : val.Formed) (hlen : (valueText val).length ≤ 4095) :
    (varSet v val).Clean ihash n ∧ (varSet v val).id = v.id ∧
      (varSet v val).hashcode = v.hashcode := by
  obtain hv | ⟨id, h, rfl⟩ := hv
  · cases hv with
    | @leaf n id h old hf hl =>
      cases old <;> cases val <;>
        first | exact ⟨.leaf hf hl, rfl, rfl⟩ | exact ⟨.leaf hval hlen, rfl, rfl⟩
    | dict h₁ h₂ h₃ => exact ⟨.dict h₁ h₂ h₃, rfl, rfl⟩
    | array h₁ h₂ => exact ⟨.array h₁ h₂, rfl, rfl⟩
  · exact ⟨.leaf hval hlen, rfl, rfl⟩

/-- A value is set in a clean dict. -/
theorem varSetForkey_updated {id : FString} {h : BitVec 32} {cs : List Var}
    (hv : (Var.dict id h cs).Clean ihash (n + 1)) {key : FString} (hk : key.IsKey) {val : VarValue}
    (hval : val.Formed) (hlen : (valueText val).length ≤ 4095) :
    Var.Updated ihash n key.str (.dict id h cs) (varSetForkey ihash (.dict id h cs) key.str val) ∧
      (varSetForkey ihash (.dict id h cs) key.str val).children ≠ [] := by
  have hid : ∀ (i : FString) (h : BitVec 32), (Var.leaf i h .null).id = i := fun _ _ => rfl
  have hhash : ∀ (i : FString) (h : BitVec 32), (Var.leaf i h .null).hashcode = h := fun _ _ => rfl
  have hchild := varForkey_child (P := fun c => c.Clean ihash n ∨ ∃ id h', c = .leaf id h' .null) hv
    hk.ne hid hhash (fun _ => .inl) fun i h => .inr ⟨i, h, rfl⟩
  obtain ⟨hclean, hvid, hvh⟩ := varSet_clean hchild hval hlen
  exact hv.put_forkey hk hid hhash hclean hvid hvh

/-- A child is taken out of a clean dict. -/
theorem varDeleteKey_updated {id : FString} {h : BitVec 32} {cs : List Var}
    (hv : (Var.dict id h cs).Clean ihash (n + 1)) (key : List UInt8) :
    Var.Updated ihash n key (.dict id h cs) (varDeleteKey ihash (.dict id h cs) key) := by
  obtain ⟨i, c, hget, hck, hr⟩ | ⟨-, hr⟩ := varFindKey_clean hv key
  · simp only [varDeleteKey, hr]
    cases hv with
    | dict hnd hkey hcs =>
      have hmem {x : Var} (hx : x ∈ cs.eraseIdx i) : x ∈ cs := (List.eraseIdx_sublist cs i).mem hx
      refine ⟨.dict ?_ (fun x hx => hkey x (hmem hx)) fun x hx => hcs x (hmem hx), ⟨_, rfl⟩, ?_⟩
      · exact hnd.sublist ((List.eraseIdx_sublist cs i).map Var.id)
      · intro k hk
        exact find?_eraseIdx_ne hget (by rw [hck]; exact hk)
  · simp only [varDeleteKey, hr]
    exact ⟨hv, ⟨cs, rfl⟩, fun _ _ => rfl⟩

end Update

section Merge

/-- What is merged in leaves the child under a key alone: it has no such child, or the one
that is there is no dictionary, or what is merged into it is a value. -/
def Var.Untouched (k : List UInt8) (self : Var) (cs : List Var) : Prop :=
  ∀ c ∈ cs, c.id.str = k → ∃ d, self.at k = some d ∧ (d.isNode true → c.IsLeaf)

/-- The loop of a merge into a clean dict. -/
structure Merged (ihash : BitVec 32) (n : Nat) (id : FString) (h : BitVec 32) (ds cs : List Var)
    (self' : Var) : Prop where
  clean : self'.Clean ihash (n + 1)
  dict : ∃ bs, self' = .dict id h bs
  nonempty : ds ≠ [] → self'.children ≠ []
  untouched : ∀ k, Var.Untouched k (.dict id h ds) cs → self'.at k = (Var.dict id h ds).at k

theorem Var.at_of_mem {id : FString} {h : BitVec 32} {cs : List Var} (hnd : (cs.map Var.id).Nodup)
    {c : Var} (hc : c ∈ cs) : (Var.dict id h cs).at c.id.str = some c := by
  induction cs with
  | nil => cases hc
  | cons d cs ih =>
    obtain ⟨hd, hnd⟩ := List.nodup_cons.mp hnd
    change (d :: cs).find? _ = some c
    by_cases hk : d.id.str = c.id.str
    · have hid : d.id = c.id := FString.ext hk
      obtain rfl | hc := List.mem_cons.mp hc
      · rw [List.find?_cons_of_pos (by simp)]
      · exact absurd (hid ▸ List.mem_map_of_mem hc) hd
    · obtain rfl | hc := List.mem_cons.mp hc
      · exact absurd rfl hk
      · rw [List.find?_cons_of_neg (by simpa using hk)]
        exact ih hnd hc

/-- In a clean dict a key has the child that is first under it. -/
theorem Var.Clean.varChild_at {id : FString} {h : BitVec 32} {cs : List Var}
    (hv : (Var.dict id h cs).Clean ihash (n + 1)) (k : List UInt8) :
    varChild ihash (.dict id h cs) k = (Var.dict id h cs).at k := by
  obtain ⟨i, c, hget, rfl, hr⟩ | ⟨hnew, hr⟩ := varFindKey_clean hv k
  · cases hv with
    | dict hnd _ _ =>
      rw [Opticon.varChild, hr, Var.at_of_mem hnd (List.mem_of_getElem? hget)]
      rfl
  · rw [Opticon.varChild, hr]
    exact (List.find?_eq_none.mpr fun c hc => by simpa using hnew c hc).symm

theorem varMergeInto_merged {cs : List Var} (hcs : ∀ c ∈ cs, c.Copyable n)
    (hkey : ∀ c ∈ cs, c.id.IsKey)
    (hmerge : ∀ c ∈ cs, ∀ e, e.Clean ihash n → e.isNode true = true →
      (varMerge ihash e c).Clean ihash n ∧ (varMerge ihash e c).id = e.id ∧
        (varMerge ihash e c).hashcode = e.hashcode)
    (id : FString) (h : BitVec 32) (ds : List Var) (hv : (Var.dict id h ds).Clean ihash (n + 1)) :
    Merged ihash n id h ds cs (varMergeInto ihash (.dict id h ds) cs) := by
  induction cs generalizing ds with
  | nil =>
    rw [varMergeInto]
    exact ⟨hv, ⟨ds, rfl⟩, fun hne => hne, fun _ _ => rfl⟩
  | cons c cs ih =>
    have ih := ih (fun x hx => hcs x (List.mem_cons_of_mem c hx))
      (fun x hx => hkey x (List.mem_cons_of_mem c hx))
      (fun x hx => hmerge x (List.mem_cons_of_mem c hx))
    -- the rest of the loop, from the dict that one round leaves
    have hround {es : List Var} (hes : Var.Updated ihash n c.id.str (.dict id h ds) (.dict id h es))
        (hne : es ≠ [])
        (hc : ∀ k, c.id.str = k → (∃ d, (Var.dict id h ds).at k = some d ∧
          (d.isNode true → c.IsLeaf)) → (Var.dict id h es).at k = (Var.dict id h ds).at k) :
        Merged ihash n id h ds (c :: cs) (varMergeInto ihash (.dict id h es) cs) := by
      obtain ⟨hclean, hdict, hnonempty, hun⟩ := ih es hes.clean
      refine ⟨hclean, hdict, fun _ => hnonempty hne, ?_⟩
      intro k hk
      have hat : (Var.dict id h es).at k = (Var.dict id h ds).at k := by
        by_cases hck : c.id.str = k
        · exact hc k hck (hk c List.mem_cons_self hck)
        · exact hes.other k (Ne.symm hck)
      rw [hun k, hat]
      intro x hx hxk
      rw [hat]
      exact hk x (List.mem_cons_of_mem c hx) hxk
    obtain ⟨i, e, hget, hek, hr⟩ | ⟨hnew, hr⟩ := varFindKey_clean hv c.id.str
    · simp only [varMergeInto, hr]
      have hmem : e ∈ ds := List.mem_of_getElem? hget
      have hee : e.Clean ihash n := by
        cases hv with
        | dict _ _ hds => exact hds e hmem
      have hm : (if e.isNode true then varMerge ihash e c else e).Clean ihash n ∧
          (if e.isNode true then varMerge ihash e c else e).id = e.id ∧
          (if e.isNode true then varMerge ihash e c else e).hashcode = e.hashcode := by
        split
        · exact hmerge c List.mem_cons_self e hee ‹_›
        · exact ⟨hee, rfl, rfl⟩
      have hset := hv.set hget hm.1 hm.2.1 hm.2.2
      rw [hek] at hset
      apply hround hset
      · intro hnil
        have hlen := congrArg List.length hnil
        rw [List.length_set] at hlen
        rw [List.eq_nil_of_length_eq_zero hlen] at hget
        cases hget
      · rintro k rfl ⟨d, hd, hleaf⟩
        have hde : d = e := by
          cases hv with
          | dict hnd _ _ =>
            have hat : (Var.dict id h ds).at e.id.str = some e := Var.at_of_mem hnd hmem
            rw [hek, hd] at hat
            exact Option.some.inj hat
        subst hde
        have hsame : (if d.isNode true then varMerge ihash d c else d) = d := by
          split
          · have hc := hleaf ‹_›
            cases c with
            | leaf _ _ _ => rw [varMerge]
            | dict _ _ _ => exact hc.elim
            | array _ _ _ => exact hc.elim
          · rfl
        rw [hsame]
        obtain ⟨hi, rfl⟩ := List.getElem?_eq_some_iff.mp hget
        rw [List.set_getElem_self]
    · simp only [varMergeInto, hr]
      have hc := hcs c List.mem_cons_self
      have hk := hkey c List.mem_cons_self
      rw [varLinkAs_dict hc.formed.clone_unlinked.2 hk.ne]
      obtain ⟨hid, hkeyed⟩ := @varKeyedClone_keyed ihash c hk.ne hk.newline
      have happ := hv.append hc.clone.keyedClone (fun d hd hdk =>
        hnew d hd (congrArg FString.str (hdk.trans hid))) hkeyed
      rw [hid] at happ
      apply hround happ (by simp)
      rintro k rfl ⟨d, hd, -⟩
      have hd : ds.find? (fun x => x.id.str = c.id.str) = some d := hd
      have hdk := List.find?_some hd
      exact absurd (by simpa using hdk) (hnew d (List.mem_of_find?_eq_some hd))

theorem Var.Plain.merge_clean {v : Var} (hv : v.Plain n) (hf : v.Formed) (hp : v.Printable) (e : Var)
    (he : e.Clean ihash n) (hd : e.isNode true = true) :
    (varMerge ihash e v).Clean ihash n ∧ (varMerge ihash e v).id = e.id ∧
      (varMerge ihash e v).hashcode = e.hashcode := by
  induction hv generalizing e with
  | leaf =>
    rw [varMerge]
    exact ⟨he, rfl, rfl⟩
  | @dict n id h cs hnd hnl hpl ih =>
    cases hf with
    | dict hid hf =>
      cases hp with
      | dict hp =>
        cases e with
        | leaf _ _ _ => cases hd
        | array _ _ _ => cases hd
        | dict id' h' ds =>
          rw [varMerge]
          obtain ⟨hclean, ⟨bs, hbs⟩, -, -⟩ := varMergeInto_merged
            (fun c hc => ⟨hf c hc, hp c hc, hpl c hc⟩) (fun c hc => ⟨hid c hc, hnl c hc⟩)
            (fun c hc => ih c hc (hf c hc) (hp c hc)) id' h' ds he
          exact ⟨hclean, by rw [hbs]; rfl, by rw [hbs]; rfl⟩
  | @array n id h cs hpl ih =>
    have hclone : (varClone ihash (.array id h cs)).Clean ihash (n + 1) :=
      Var.Copyable.clone ⟨hf, hp, .array hpl⟩
    cases hf with
    | array hid hf =>
      cases e with
      | leaf _ _ _ => cases hd
      | array _ _ _ => cases hd
      | dict id' h' ds =>
        rw [varMerge, varCloneInto_array fun c hc => (hf c hc).clone_unlinked]
        rw [varClone, varCloneInto_array fun c hc => (hf c hc).clone_unlinked] at hclone
        exact ⟨(hclone.setId id').setHashcode h', rfl, rfl⟩

/-- A dict is merged into a clean one. -/
theorem varMerge_merged {id id' : FString} {h h' : BitVec 32} {ds cs : List Var}
    (hv : (Var.dict id h ds).Clean ihash (n + 1)) (hcs : (Var.dict id' h' cs).Copyable (n + 1)) :
    Merged ihash n id h ds cs (varMerge ihash (.dict id h ds) (.dict id' h' cs)) := by
  rw [varMerge]
  have hchildren := hcs.children
  have hkey : ∀ c ∈ cs, c.id.IsKey := by
    cases hcs.formed with
    | dict hid _ =>
      cases hcs.plain with
      | dict _ hnl _ => exact fun c hc => ⟨hid c hc, hnl c hc⟩
  exact varMergeInto_merged hchildren hkey (fun c hc =>
    (hchildren c hc).plain.merge_clean (hchildren c hc).formed (hchildren c hc).printable) id h ds hv

end Merge

end Opticon
