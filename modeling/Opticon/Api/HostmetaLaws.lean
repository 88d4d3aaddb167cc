import Opticon.Api.Hostmeta
import Opticon.Api.Privileged
import Opticon.Var.ChildLaws

/-! What the requests for watchers make of the metadata of a host. -/

namespace Opticon

variable {ihash : BitVec 32} {n : Nat}

section Edits

theorem Var.Clean.at_of_mem {id : FString} {h : BitVec 32} {cs : List Var}
    (hv : (Var.dict id h cs).Clean ihash n) {c : Var} (hc : c ∈ cs) :
    (Var.dict id h cs).at c.id.str = some c := by
  cases hv with
  | dict hnd _ _ => exact Var.at_of_mem hnd hc

/-- An edit of the dict under a key, where no other kind of child is in the way: the dict is
replaced, or it is added. -/
theorem inDictForkey_cases {f : Option Var → Except Halt (Option Var)} (hf : Replaces ihash n f)
    {key : FString} (hkey : key.IsKey) {id : FString} {h : BitVec 32} {cs : List Var}
    {v' : Option Var} (hv : (Var.dict id h cs).Clean ihash (n + 1 + 1))
    (hnode : ∀ c, (Var.dict id h cs).at key.str = some c → c.isNode true = true)
    (hr : inDictForkey ihash key.str f (some (.dict id h cs)) = .ok v') :
    ∃ bs, v' = some (.dict id h bs) ∧ (Var.dict id h bs).Clean ihash (n + 1 + 1) ∧
      (∀ k, k ≠ key.str → (Var.dict id h bs).at k = (Var.dict id h cs).at k) ∧
      ((∃ i c c', cs[i]? = some c ∧ c.id = key ∧ f (some c) = .ok (some c') ∧ c'.id = key ∧
          bs = cs.set i c') ∨
        (∀ c ∈ cs, c.id ≠ key) ∧ ∃ c', f (some (.dict key (hashToken ihash key.str) [])) = .ok (some c') ∧
          c'.id = key ∧ bs = cs ++ [c']) := by
  have hktext : KeyText key.str := ⟨hkey.ne, key.length_le, key.nonul, hkey.newline⟩
  obtain ⟨w, rfl, hup, -⟩ := inDictForkey_updated hf hktext hv hr
  obtain ⟨bs, rfl⟩ := hup.dict
  refine ⟨bs, rfl, hup.clean, hup.other, ?_⟩
  have hid : ∀ (i : FString) (h : BitVec 32), (Var.node true i h []).id = i := fun _ _ => rfl
  have hhash : ∀ (i : FString) (h : BitVec 32), (Var.node true i h []).hashcode = h := fun _ _ => rfl
  have hcs : ∀ c ∈ cs, c.Clean ihash (n + 1) := by
    cases hv with
    | dict _ _ hcs => exact hcs
  have hreplaced {c : Var} (hc : c.Clean ihash (n + 1)) (hn : c.isNode true = true)
      {o : Option Var} (hfc : f (some c) = .ok o) : ∃ c', o = some c' ∧ c'.id = c.id := by
    cases c with
    | leaf _ _ _ => cases hn
    | array _ _ _ => cases hn
    | dict cid ch ds =>
      obtain ⟨w, rfl, -, hwid, -⟩ := hf cid ch ds o hc hfc
      exact ⟨w, rfl, hwid⟩
  simp only [inDictForkey, varGetDictForkey, varGetNodeForkey] at hr
  obtain ⟨i, c, hget, hck, heq⟩ | ⟨hnew, heq⟩ := varForkey_clean hv hkey.ne hid hhash
  · have hmem := List.mem_of_getElem? hget
    have hn : c.isNode true = true := hnode c (hck ▸ hv.at_of_mem hmem)
    rw [heq] at hr
    simp only [hn, if_true] at hr
    obtain ⟨o, ho, hr⟩ := Outcome.bind_ok_iff.mp hr
    obtain ⟨c', rfl, hc'⟩ := @hreplaced c (hcs c hmem) hn o ho
    have hbs := (Var.dict.inj (Option.some.inj (Except.ok.inj hr))).2.2
    exact .inl ⟨i, c, c', hget, hck, ho, hc'.trans hck, hbs.symm⟩
  · rw [heq] at hr
    simp only [Var.node, Var.isNode, if_true] at hr
    obtain ⟨o, ho, hr⟩ := Outcome.bind_ok_iff.mp hr
    obtain ⟨c', rfl, hc'⟩ := @hreplaced (.dict key (hashToken ihash key.str) [])
      (.dict (by simp) (by simp) (by simp)) rfl o ho
    have hput := put_last true id h cs (.dict key (hashToken ihash key.str) []) c'
    simp only [Option.getD_some] at hr
    have hbs : Var.dict id h (cs ++ [c']) = .dict id h bs :=
      hput.symm.trans (Option.some.inj (Except.ok.inj hr))
    exact .inr ⟨hnew, c', ho, hc', ((Var.dict.inj hbs).2.2).symm⟩

/-- The child that is found or made, once it was written back. -/
theorem Var.Clean.at_put_forkey {id : FString} {h : BitVec 32} {cs : List Var}
    (hv : (Var.dict id h cs).Clean ihash (n + 1)) {key : FString} (hk : key.IsKey)
    {make : FString → BitVec 32 → Var} (hid : ∀ i h, (make i h).id = i)
    (hhash : ∀ i h, (make i h).hashcode = h) {vv : Var} (hvv : vv.Clean ihash n)
    (hvid : vv.id = (varForkey ihash (.dict id h cs) key.str make).2.2.id)
    (hvh : vv.hashcode = (varForkey ihash (.dict id h cs) key.str make).2.2.hashcode) :
    let r := varForkey ihash (.dict id h cs) key.str make
    (r.1.put r.2.1 vv).at key.str = some vv := by
  have hup := (hv.put_forkey hk hid hhash hvv hvid hvh).1.clean
  obtain ⟨i, c, hget, hck, heq⟩ | ⟨hnew, heq⟩ := varForkey_clean hv hk.ne hid hhash
  · simp only [heq] at hvid hup ⊢
    have hkey : vv.id = key := hvid.trans hck
    obtain ⟨hi, -⟩ := List.getElem?_eq_some_iff.mp hget
    rw [← hkey]
    exact Var.Clean.at_of_mem hup (List.mem_set hi vv)
  · simp only [heq] at hvid hup ⊢
    have hkey : vv.id = key := hvid.trans (hid _ _)
    have hput : (Var.dict id h (cs ++ [make key (hashToken ihash key.str)])).put (some cs.length) vv =
        .dict id h (cs ++ [vv]) := put_last true id h cs _ vv
    rw [hput] at hup ⊢
    rw [← hkey]
    exact Var.Clean.at_of_mem hup (List.mem_append_right cs (List.mem_singleton_self vv))

end Edits

section Values

/-- On a value that is set nothing else is set. -/
theorem varSetForkey_value {id : FString} {h : BitVec 32} {val : VarValue} (hval : val ≠ .null)
    (key : List UInt8) (x : VarValue) :
    varSetForkey ihash (.leaf id h val) key x = .leaf id h val := by
  have hput (place : Option Nat) (c : Var) : (Var.leaf id h val).put place c = .leaf id h val := by
    cases place <;> rfl
  have hleaf : (varGetOrMake ihash (.leaf id h val) key).1 = .leaf id h val := by
    cases val with
    | null => exact absurd rfl hval
    | int _ => exact varForkey_leaf rfl
    | double _ => exact varForkey_leaf rfl
    | str _ => exact varForkey_leaf rfl
  rw [varSetForkey, hleaf, hput]

theorem valKey : ∃ key : FString, key.str = asc "val" ∧ key.IsKey :=
  KeyText.key (by decide)

/-- A value that is copied into a level. -/
theorem setHostVal_clean {id : FString} {h : BitVec 32} {cs : List Var}
    (hv : (Var.dict id h cs).Clean ihash (n + 1)) {nid : FString} {nh : BitVec 32} {val : VarValue}
    (hnull : val ≠ .null) (hval : val.Formed) (hlen : (valueText val).length ≤ 4095) (weight : ℚ) :
    ∃ bs, setHostVal ihash (.leaf nid nh val) weight (.dict id h cs) = .dict id h bs ∧
      (Var.dict id h bs).Clean ihash (n + 1) ∧
      (∃ id' h', (Var.dict id h bs).at (asc "val") = some (.leaf id' h' val)) ∧
      ∀ k, k ≠ asc "val" → (Var.dict id h bs).at k = (Var.dict id h cs).at k := by
  obtain ⟨key, hkey, hk⟩ := valKey
  have hid : ∀ (i : FString) (h : BitVec 32), (Var.leaf i h .null).id = i := fun _ _ => rfl
  have hhash : ∀ (i : FString) (h : BitVec 32), (Var.leaf i h .null).hashcode = h := fun _ _ => rfl
  have hset : setHostVal ihash (.leaf nid nh val) weight (.dict id h cs) =
      let r := varForkey ihash (.dict id h cs) key.str fun i h => .leaf i h .null
      r.1.put r.2.1 (.leaf r.2.2.id r.2.2.hashcode val) := by
    rw [hkey]
    simp only [setHostVal, varCopy, varSetForkey_value hnull]
    rfl
  have hclean : (Var.leaf (varForkey ihash (.dict id h cs) key.str fun i h => .leaf i h .null).2.2.id
      (varForkey ihash (.dict id h cs) key.str fun i h => .leaf i h .null).2.2.hashcode val).Clean
      ihash n := .leaf hval hlen
  obtain ⟨hup, -⟩ := hv.put_forkey hk hid hhash hclean rfl rfl
  have hat := hv.at_put_forkey hk hid hhash hclean rfl rfl
  rw [hset, ← hkey]
  obtain ⟨bs, hbs⟩ := hup.dict
  simp only at hbs hat hup ⊢
  rw [hbs] at hat hup ⊢
  exact ⟨bs, rfl, hup.clean, ⟨_, _, hat⟩, hup.other⟩

end Values

end Opticon
