import Opticon.Api.AuthsessionLaws
import Opticon.Api.UserFile

/-! Who can log in with which password, after any history of changes to the user database. -/

namespace Opticon

variable {ihash : BitVec 32} {user stored p : List UInt8} {userdb : UserDb} {f : Fields} {A : Accounts}

/-- A copy of a record has its texts. -/
theorem UserRecord.clone {r : Var} (h : UserRecord ihash r) :
    recordFields ihash (varClone ihash r) = recordFields ihash r := by
  obtain ⟨id, hash, cs, rfl⟩ := isNode_true h.node
  have hclean : (varClone ihash (.dict id hash cs)).Clean ihash 7 :=
    h.clean.plain.clone_clean h.clean.formed h.clean.printable
  rw [h.clean.formed.linkable.varClone_dict] at hclean ⊢
  funext key
  rw [recordFields, recordFields, varGetStrForkey, varGetStrForkey, h.clean.varChild_at, hclean.varChild_at]
  change ((cs.map (varKeyedClone ihash)).find? fun c => c.id.str = key).bind varGetStr =
    (cs.find? fun c => c.id.str = key).bind varGetStr
  have hid (c : Var) : (varKeyedClone ihash c).id = c.id := by simp [varKeyedClone]
  have hkeys : ((fun c : Var => decide (c.id.str = key)) ∘ varKeyedClone ihash) =
      fun c => decide (c.id.str = key) := by
    funext c
    simp only [Function.comp_apply, hid]
  rw [List.find?_map, hkeys]
  cases hfind : cs.find? fun c => c.id.str = key with
  | none => rfl
  | some c =>
    obtain ⟨cid, chash, old, rfl⟩ := exists_text (h.texts c (List.mem_of_find?_eq_some hfind))
    rfl

end Opticon
