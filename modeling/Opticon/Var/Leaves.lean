import Opticon.Lib.KeyedWrites
import Opticon.Var.ChildLaws

/-! Dictionaries with nothing but values in them. -/

namespace Opticon

open KeyedWrites

/-- A value that is set keeps the type of the one that was there. -/
def VarValue.onto : VarValue → VarValue → VarValue
  | .null, y => y
  | .int _, .int ival => .int ival
  | .double _, .double dval => .double dval
  | .str _, .str sval => .str sval
  | x, _ => x

/-- The children that such a dictionary has. -/
def leaves (ihash : BitVec 32) (es : List (FString × VarValue)) : List Var :=
  es.map fun e => .leaf e.1 (hashToken ihash e.1.str) e.2

def VarValue.kind : VarValue → Nat
  | .null => 0
  | .int _ => 1
  | .double _ => 2
  | .str _ => 3

theorem onto_keepsKind : KeepsKind VarValue.onto VarValue.kind (· ≠ .null) := by
  intro x y hx
  cases x with
  | null => exact absurd rfl hx
  | int _ => cases y <;> simp [VarValue.onto, VarValue.kind]
  | double _ => cases y <;> simp [VarValue.onto, VarValue.kind]
  | str _ => cases y <;> simp [VarValue.onto, VarValue.kind]

variable {ihash : BitVec 32} {key id : FString} {h : BitVec 32} {val : VarValue}
  {es ws : List (FString × VarValue)}

theorem varSet_leaf (x y : VarValue) : varSet (.leaf id h x) y = .leaf id h (x.onto y) := by
  cases x <;> cases y <;> rfl

theorem findKeyIn_leaves (key : List UInt8) : (findKeyIn ihash key (leaves ihash es)).1 = leaves ihash es := by
  refine Var.Rehashed.eq_of_hashed (findKeyIn_rehashed ihash key (leaves ihash es)) fun c hc => ?_
  obtain ⟨e, -, rfl⟩ := List.mem_map.mp hc
  rfl

theorem findKeyIn_leaves_cons (e : FString × VarValue) : findKeyIn ihash key.str (leaves ihash (e :: es)) =
    if e.1 = key then (leaves ihash (e :: es), some (0, .leaf e.1 (hashToken ihash e.1.str) e.2))
    else (leaves ihash (e :: es), (findKeyIn ihash key.str (leaves ihash es)).2.map fun p => (p.1 + 1, p.2)) := by
  have hnz : (Var.leaf e.1 (hashToken ihash e.1.str) e.2).hashcode ≠ 0 := hashToken_ne_zero ihash _
  have hall := @findKeyIn_leaves ihash es key.str
  by_cases he : e.1 = key
  · subst he
    rw [if_pos rfl, leaves, List.map_cons, findKeyIn, if_pos ⟨.inr rfl, rfl⟩]
  · rw [if_neg he, leaves, List.map_cons, findKeyIn, if_neg fun h => he (FString.ext h.2)]
    dsimp only
    rw [if_neg hnz]
    change (_ :: (findKeyIn ihash key.str (leaves ihash es)).1, _) = _
    rw [hall]
    rfl

theorem findKeyIn_leaves_some {i : Nat} {c : Var}
    (hf : (findKeyIn ihash key.str (leaves ihash es)).2 = some (i, c)) :
    (leaves ihash es).set i (varSet c val) = leaves ihash (write VarValue.onto key val es) := by
  induction es generalizing i with
  | nil => cases hf
  | cons e es ih =>
    rw [findKeyIn_leaves_cons] at hf
    by_cases he : e.1 = key
    · rw [if_pos he] at hf
      cases hf
      rw [write, if_pos he, varSet_leaf]
      rfl
    · rw [if_neg he] at hf
      obtain ⟨⟨j, d⟩, hd, hp⟩ := Option.map_eq_some_iff.mp hf
      cases hp
      rw [write, if_neg he, leaves, List.map_cons, List.set_cons_succ]
      exact congrArg _ (ih hd)

theorem findKeyIn_leaves_none (hf : (findKeyIn ihash key.str (leaves ihash es)).2 = none) :
    key ∉ es.map Prod.fst := by
  intro hmem
  obtain ⟨e, he, rfl⟩ := List.mem_map.mp hmem
  exact findKeyIn_none hf _ (List.mem_map_of_mem he) (.inr rfl) rfl

/-- Setting a value is writing it. -/
theorem varSetForkey_leaves (hne : key.str ≠ []) : varSetForkey ihash (.dict id h (leaves ihash es)) key.str val =
    .dict id h (leaves ihash (write VarValue.onto key val es)) := by
  cases hf : (findKeyIn ihash key.str (leaves ihash es)).2 with
  | some p =>
    obtain ⟨i, c⟩ := p
    rw [varSetForkey_found hf, findKeyIn_leaves, findKeyIn_leaves_some hf]
  | none =>
    rw [varSetForkey_absent hf, FString.strncpy_str, if_neg hne, findKeyIn_leaves,
      write_new (findKeyIn_leaves_none hf), leaves, leaves, List.map_append]
    rfl

theorem foldl_varSetForkey_leaves (hne : ∀ w ∈ ws, w.1.str ≠ []) :
    ws.foldl (fun v w => varSetForkey ihash v w.1.str w.2) (.dict id h (leaves ihash es)) =
      .dict id h (leaves ihash (writeAll VarValue.onto es ws)) := by
  induction ws generalizing es with
  | nil => rfl
  | cons w ws ih =>
    rw [List.foldl_cons, varSetForkey_leaves (hne w List.mem_cons_self),
      ih fun x hx => hne x (List.mem_cons_of_mem w hx)]
    rfl

end Opticon
