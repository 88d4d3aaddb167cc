import Opticon.Var.Laws

/-! What a tree says: its types, keys and values in their order, without the hashes of the keys,
which lookups fill in as they go. -/

namespace Opticon

mutual

/-- A var without the hashes. -/
def Var.bare : Var → Var
  | .leaf id _ value => .leaf id 0 value
  | .dict id _ cs => .dict id 0 (bareAll cs)
  | .array id _ cs => .array id 0 (bareAll cs)

def Var.bareAll : List Var → List Var
  | [] => []
  | c :: cs => c.bare :: bareAll cs

end

namespace Var

variable {ihash : BitVec 32}

theorem bareAll_eq_map (cs : List Var) : bareAll cs = cs.map bare := by
  induction cs with
  | nil => rfl
  | cons c cs ih => rw [bareAll, ih, List.map_cons]

@[simp] theorem bare_leaf (id : FString) (h : BitVec 32) (value : VarValue) :
    (Var.leaf id h value).bare = .leaf id 0 value := by
  rw [bare]

@[simp] theorem bare_dict (id : FString) (h : BitVec 32) (cs : List Var) :
    (Var.dict id h cs).bare = .dict id 0 (cs.map bare) := by
  rw [bare, bareAll_eq_map]

@[simp] theorem bare_array (id : FString) (h : BitVec 32) (cs : List Var) :
    (Var.array id h cs).bare = .array id 0 (cs.map bare) := by
  rw [bare, bareAll_eq_map]

@[simp] theorem bare_setHashcode (v : Var) (h : BitVec 32) : (v.setHashcode h).bare = v.bare := by
  cases v <;> simp [setHashcode]

@[simp] theorem id_bare (v : Var) : v.bare.id = v.id := by
  cases v <;> simp [Var.id]

theorem Rehashed.bare_eq {c c' : Var} (h : c.Rehashed ihash c') : c'.bare = c.bare := by
  obtain rfl | ⟨hash, rfl⟩ := h.exists
  · rfl
  · exact bare_setHashcode c hash

theorem map_bare_rehashed {cs cs' : List Var} (h : List.Forall₂ (Rehashed ihash) cs cs') :
    cs'.map bare = cs.map bare := by
  induction h with
  | nil => rfl
  | cons hc _ ih => rw [List.map_cons, List.map_cons, hc.bare_eq, ih]

end Var

end Opticon
