import Opticon.Var.ChildLaws

/-! Editing a dictionary in its place below another var. -/

namespace Opticon

variable {ihash : BitVec 32} {key k : List UInt8}

variable (ihash key) in
/-- What `var_get_dict_forkey` returns. -/
def dictSlot : Option Var → Option Var
  | none => some (.dict (FString.strncpy key) (hashToken ihash key) [])
  | some v => (varGetDict ihash v key).2

variable (ihash key) in
/-- A var after the dictionary that `var_get_dict_forkey` has returned was edited. -/
def dictPlaced (self child' : Option Var) : Option Var :=
  match self with
  | none => none
  | some v =>
    match varGetDictForkey ihash v key with
    | (v, none) => some v
    | (v, some (place, child)) => some (v.put place (child'.getD child))

/-- A key that fits where it is written. -/
structure FitsKey (key : List UInt8) : Prop where
  ne : key ≠ []
  str : (FString.strncpy key).str = key

theorem FString.str_fitsKey {key : FString} (hne : key.str ≠ []) : FitsKey key.str :=
  ⟨hne, by rw [FString.strncpy_str]⟩

theorem fitsKey_of_short (hne : key ≠ []) (hlen : key.length ≤ 127) (h0 : 0 ∉ key) : FitsKey key :=
  @FString.str_fitsKey ⟨key, hlen, h0⟩ hne

/-- The children of a dict after the dict under a key was edited. -/
structure Placed (ihash : BitVec 32) (key : List UInt8) (cs : List Var) (child' : Option Var)
    (slot : Option Var) (ds : List Var) : Prop where
  other : ∀ k, k ≠ key → Option.Rel (Var.Rehashed ihash) (childIn ihash k cs) (childIn ihash k ds)
  own : ∀ c, slot = some c → childIn ihash key ds = some (child'.getD c)
  none : slot = none → Option.Rel (Var.Rehashed ihash) (childIn ihash key cs) (childIn ihash key ds)

/-- The edit of what a slot holds keeps its key. -/
def SameKey (slot child' : Option Var) : Prop :=
  ∀ c c', slot = some c → child' = some c' → c'.id = c.id ∧ c'.hashcode = c.hashcode

theorem dictPlaced_dict (id : FString) (h : BitVec 32) (cs : List Var) {child' : Option Var}
    (hkey : FitsKey key) (hsame : SameKey (dictSlot ihash key (some (.dict id h cs))) child') :
    ∃ ds, dictPlaced ihash key (some (.dict id h cs)) child' = some (.dict id h ds) ∧
      Placed ihash key cs child' (dictSlot ihash key (some (.dict id h cs))) ds := by
  have hmid (i : FString) (h : BitVec 32) : (Var.node true i h []).id = i := rfl
  have hmhash (i : FString) (h : BitVec 32) : (Var.node true i h []).hashcode = h := rfl
  have hother (w : Var) (k : List UInt8) := @varForkey_put_other ihash key k
    (fun i h => Var.node true i h []) w (.dict id h cs) hmid hmhash
  have hown {w : Var} := @varForkey_put_own ihash key (fun i h => Var.node true i h []) w id h cs hmid
    hmhash hkey.str hkey.ne
  have hchilds := @varForkey_childs ihash key (.dict id h cs) (fun i h => Var.node true i h []) hmid hmhash
  have hsnd := @varForkey_snd ihash key (.dict id h cs) (fun i h => Var.node true i h []) hmhash
  obtain ⟨ds, hds⟩ : ∃ ds, (varForkey ihash (.dict id h cs) key fun i h => Var.node true i h []).1 =
      .dict id h ds := by
    have hr := varForkey_dict ihash key hmid hmhash id h cs
    generalize varForkey ihash (.dict id h cs) key (fun i h => Var.node true i h []) = r at hr
    cases hr <;> exact ⟨_, rfl⟩
  simp only [dictSlot, dictPlaced, varGetDict, varGetDictForkey, varGetNodeForkey] at hsame ⊢
  generalize varForkey ihash (.dict id h cs) key (fun i h => Var.node true i h []) = r at *
  obtain ⟨v, place, child⟩ := r
  obtain rfl : v = .dict id h ds := hds
  split at hsame
  · rename_i hnode
    rw [if_pos hnode]
    have hw : (child'.getD child).id = child.id ∧ (child'.getD child).hashcode = child.hashcode := by
      cases child' with
      | none => exact ⟨rfl, rfl⟩
      | some c' => exact hsame child c' rfl rfl
    obtain ⟨es, hes⟩ : ∃ es, (Var.dict id h ds).put place (child'.getD child) = .dict id h es := by
      cases place <;> exact ⟨_, rfl⟩
    refine ⟨es, congrArg some hes, ⟨fun k hk => ?_, fun c hc => ?_, fun hnone => by cases hnone⟩⟩
    · have hrel := hother (child'.getD child) k hw.1 (by rw [hkey.str]; exact hk.symm)
      rwa [hes] at hrel
    · obtain rfl := Option.some.inj hc
      have hc := hown hw.1 hw.2
      rwa [hes] at hc
  · rename_i hnode
    rw [if_neg hnode]
    refine ⟨ds, rfl, ⟨fun k hk => ?_, (fun c hc => by cases hc), fun _ => ?_⟩⟩
    · exact (hchilds k).resolve_right fun h => hk (hkey.str ▸ h.2.1).symm
    · refine (hchilds key).resolve_right fun h => hnode ?_
      obtain rfl : child = _ := hsnd
      rw [h.1]
      rfl

/-- A slot holds a dict: the one that is there, a new one, or none if another var has the key. -/
theorem dictSlot_eq (v : Var) : dictSlot ihash key (some v) = match varChild ihash v key with
    | some c => if c.isNode true then some c else none
    | none => some (.dict (FString.strncpy key) (hashToken ihash key) []) :=
  varGetDictForkey_snd v key

theorem dictSlot_dict {self : Option Var} {c : Var} (h : dictSlot ihash key self = some c) :
    ∃ id hash cs, c = .dict id hash cs := by
  cases self with
  | none => exact ⟨_, _, _, (Option.some.inj h).symm⟩
  | some v =>
    rw [dictSlot_eq] at h
    split at h
    · rename_i d _
      split at h
      · rename_i hnode
        obtain rfl := Option.some.inj h
        cases d with
        | leaf _ _ _ => cases hnode
        | array _ _ _ => cases hnode
        | dict id hash cs => exact ⟨id, hash, cs, rfl⟩
      · cases h
    · exact ⟨_, _, _, (Option.some.inj h).symm⟩

variable (ihash key) in
/-- An unset var becomes a dictionary. -/
theorem dictSlot_null : dictSlot ihash key (some (varAlloc .null)) =
    some (.dict (FString.strncpy key) (hashToken ihash key) []) :=
  dictSlot_eq (varAlloc .null)

theorem dictPlaced_null (child' : Option Var) : dictPlaced ihash key (some (varAlloc .null)) child' =
    dictPlaced ihash key (some (.dict FString.empty 0 [])) child' :=
  rfl

end Opticon
