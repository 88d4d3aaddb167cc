import Opticon.Var.Tree
import Mathlib.Data.List.Forall2

/-! What the operations on a dictionary or an array do to its children. -/

namespace Opticon

@[simp] theorem Var.id_setHashcode (c : Var) (h : BitVec 32) : (c.setHashcode h).id = c.id := by
  cases c <;> rfl

@[simp] theorem Var.id_node (dict : Bool) (id : FString) (h : BitVec 32) (cs : List Var) :
    (Var.node dict id h cs).id = id := by
  cases dict <;> rfl

@[simp] theorem Var.hashcode_node (dict : Bool) (id : FString) (h : BitVec 32) (cs : List Var) :
    (Var.node dict id h cs).hashcode = h := by
  cases dict <;> rfl

/-- The same var, with the hash of its key filled in if it was not known. -/
def Var.Rehashed (ihash : BitVec 32) (c c' : Var) : Prop :=
  c' = c ∨ c.hashcode = 0 ∧ c' = c.setHashcode (hashToken ihash c.id.str)

variable {ihash : BitVec 32} {key : List UInt8}

theorem Var.Rehashed.exists {c c' : Var} (h : c.Rehashed ihash c') :
    c' = c ∨ ∃ h, c' = c.setHashcode h :=
  h.imp_right fun h => ⟨_, h.2⟩

theorem Var.Rehashed.id_eq {c c' : Var} (h : c.Rehashed ihash c') : c'.id = c.id := by
  obtain rfl | ⟨hash, rfl⟩ := h.exists
  · rfl
  · exact c.id_setHashcode hash

variable (ihash key) in
theorem findKeyIn_rehashed (cs : List Var) :
    List.Forall₂ (Var.Rehashed ihash) cs (findKeyIn ihash key cs).1 := by
  induction cs with
  | nil => exact .nil
  | cons c cs ih =>
    simp only [findKeyIn]
    split
    · exact .cons (.inl rfl) (List.forall₂_same.mpr fun c _ => .inl rfl)
    · apply List.Forall₂.cons _ ih
      split
      · exact .inr ⟨‹_›, rfl⟩
      · exact .inl rfl

theorem findKeyIn_some {cs : List Var} {i : Nat} {res : Var}
    (h : (findKeyIn ihash key cs).2 = some (i, res)) :
    (findKeyIn ihash key cs).1[i]? = some res ∧ res ∈ cs ∧ res.id.str = key := by
  induction cs generalizing i with
  | nil => simp [findKeyIn] at h
  | cons c cs ih =>
    simp only [findKeyIn] at h ⊢
    split at h
    · rename_i hc
      obtain ⟨rfl, rfl⟩ := Prod.mk.inj (Option.some.inj h)
      rw [if_pos hc]
      exact ⟨rfl, List.mem_cons_self, hc.2⟩
    · rename_i hc
      rw [if_neg hc]
      obtain ⟨⟨j, r⟩, hj, heq⟩ := Option.map_eq_some_iff.mp h
      obtain ⟨rfl, rfl⟩ := Prod.mk.inj heq
      obtain ⟨hget, hmem, hkey⟩ := ih hj
      exact ⟨hget, List.mem_cons_of_mem c hmem, hkey⟩

theorem findKeyIn_none {cs : List Var} (h : (findKeyIn ihash key cs).2 = none) :
    ∀ c ∈ cs, (c.hashcode = 0 ∨ c.hashcode = hashToken ihash key) → c.id.str ≠ key := by
  induction cs with
  | nil => simp
  | cons c cs ih =>
    simp only [findKeyIn] at h
    split at h
    · cases h
    · rename_i hc
      intro x hx hhash hid
      obtain rfl | hx := List.mem_cons.mp hx
      · exact hc ⟨hhash, hid⟩
      · exact ih (Option.map_eq_none_iff.mp h) x hx hhash hid

/-- Where `var_find_key` and `var_link` leave the child with a key: found, linked at the
end, or not linked for its key is empty. -/
inductive ForkeyResult (ihash : BitVec 32) (key : List UInt8) (make : FString → BitVec 32 → Var)
    (id : FString) (h : BitVec 32) (cs : List Var) : Var × Option Nat × Var → Prop
  | found {cs' : List Var} {i : Nat} {res : Var} : List.Forall₂ (Var.Rehashed ihash) cs cs' →
      cs'[i]? = some res → res ∈ cs → res.id.str = key →
      ForkeyResult ihash key make id h cs (.dict id h cs', some i, res)
  | linked {cs' : List Var} {i : Nat} : List.Forall₂ (Var.Rehashed ihash) cs cs' →
      (∀ c ∈ cs, (c.hashcode = 0 ∨ c.hashcode = hashToken ihash key) → c.id.str ≠ key) →
      (FString.strncpy key).str ≠ [] → i = cs'.length →
      ForkeyResult ihash key make id h cs
        (.dict id h (cs' ++ [make (FString.strncpy key) (hashToken ihash key)]), some i,
          make (FString.strncpy key) (hashToken ihash key))
  | orphan {cs' : List Var} : List.Forall₂ (Var.Rehashed ihash) cs cs' →
      (FString.strncpy key).str = [] →
      ForkeyResult ihash key make id h cs
        (.dict id h cs', none, make (FString.strncpy key) (hashToken ihash key))

theorem varLink_dict {self : Var} (hh : self.hashcode ≠ 0) (hid : self.id.str ≠ [])
    (id : FString) (h : BitVec 32) (cs : List Var) :
    varLink ihash self (.dict id h cs) = (self, .dict id h (cs ++ [self]), some cs.length) := by
  have hn : ¬ (self.hashcode = 0 ∧ self.id.str ≠ []) := fun hc => hh hc.1
  simp only [varLink, if_neg hn, if_neg hid]

theorem varLink_dict_noid {self : Var} (hid : self.id.str = []) (id : FString) (h : BitVec 32)
    (cs : List Var) : varLink ihash self (.dict id h cs) = (self, .dict id h cs, none) := by
  have hn : ¬ (self.hashcode = 0 ∧ self.id.str ≠ []) := fun hc => hc.2 hid
  simp only [varLink, if_neg hn, if_pos hid]

theorem varLink_array {self : Var} (hid : self.id.str = []) (id : FString) (h : BitVec 32)
    (cs : List Var) :
    varLink ihash self (.array id h cs) = (self, .array id h (cs ++ [self]), some cs.length) := by
  have hn : ¬ (self.hashcode = 0 ∧ self.id.str ≠ []) := fun hc => hc.2 hid
  simp only [varLink, if_neg hn, if_pos hid]

variable (ihash key) in
theorem varForkey_dict {make : FString → BitVec 32 → Var} (hid : ∀ i h, (make i h).id = i)
    (hhash : ∀ i h, (make i h).hashcode = h) (id : FString) (h : BitVec 32) (cs : List Var) :
    ForkeyResult ihash key make id h cs (varForkey ihash (.dict id h cs) key make) := by
  have hr := findKeyIn_rehashed ihash key cs
  simp only [varForkey, varFindKey]
  split
  · rename_i i res hfound
    obtain ⟨hget, hmem, hkey⟩ := findKeyIn_some hfound
    exact .found hr hget hmem hkey
  · rename_i hnone
    have hne : (make (FString.strncpy key) (hashToken ihash key)).hashcode ≠ 0 := by
      rw [hhash]
      exact hashToken_ne_zero ihash key
    by_cases hkey : (FString.strncpy key).str = []
    · rw [varLink_dict_noid (by rw [hid, hkey])]
      exact .orphan hr hkey
    · rw [varLink_dict hne (by rwa [hid])]
      exact .linked hr (findKeyIn_none hnone) hkey rfl

theorem varForkey_null {make : FString → BitVec 32 → Var} (id : FString) (h : BitVec 32) :
    varForkey ihash (.leaf id h .null) key make = varForkey ihash (.dict id h []) key make :=
  rfl

variable (ihash key) in
theorem varGetOrMake_dict (id : FString) (h : BitVec 32) (cs : List Var) :
    ForkeyResult ihash key (fun id h => .leaf id h .null) id h cs
      (varGetOrMake ihash (.dict id h cs) key) :=
  varForkey_dict ihash key (fun _ _ => rfl) (fun _ _ => rfl) id h cs

theorem varAdd_array (id : FString) (h : BitVec 32) (cs : List Var) (val : VarValue) :
    varAdd ihash (.array id h cs) val = .array id h (cs ++ [varAlloc val]) := by
  rw [varAdd, varLink_array rfl]

theorem varAddNode_array (id : FString) (h : BitVec 32) (cs : List Var) (dict : Bool) :
    varAddNode ihash (.array id h cs) dict =
      (.array id h (cs ++ [Var.node dict FString.empty 0 []]),
        some (some cs.length, Var.node dict FString.empty 0 [])) := by
  have hid : (Var.node dict FString.empty 0 []).id.str = [] := by
    rw [Var.id_node]
    rfl
  simp only [varAddNode, varLink_array hid]

end Opticon
