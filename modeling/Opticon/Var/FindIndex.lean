import Opticon.Lib.Transition
import Opticon.Var.ChainLaws

/-! Lookups by index in a dict or an array, over whole runs of the operations that change it. -/

namespace Opticon

open Linked

/-- A call for a dict or an array. Those that may make a var have the address `malloc` gives it. -/
inductive VarStep where
  | findIndex (index : BitVec 32)
  | add (a : Nat) (val : VarValue)
  | addNode (a : Nat) (dict : Bool)
  | setForkey (a : Nat) (key : List UInt8) (val : VarValue)
  | getNodeForkey (a : Nat) (key : List UInt8) (dict : Bool)
  | deleteKey (key : List UInt8)
  | clearArray

namespace VarStep

def address : VarStep → Option Nat
  | .add a _ | .addNode a _ | .setForkey a _ _ | .getNodeForkey a _ _ => some a
  | .findIndex _ | .deleteKey _ | .clearArray => none

def run (ihash : BitVec 32) (v : LinkedVar) : VarStep → Except Fault LinkedVar
  | .findIndex index => do
    let (_, v) ← v.varFindIndex index
    return v
  | .add a val => v.varAdd ihash a val
  | .addNode a dict => v.varAddNode ihash a dict
  | .setForkey a key val => v.varSetForkey ihash a key val
  | .getNodeForkey a key dict => v.varGetNodeForkey ihash a key dict
  | .deleteKey key => v.varDeleteKey ihash key
  | .clearArray => v.varClearArray

/-- What a call does to the tree. -/
def onTree (ihash : BitVec 32) (v : Var) : VarStep → Var
  | .findIndex _ => v
  | .add _ val => varAdd ihash v val
  | .addNode _ dict => (varAddNode ihash v dict).1
  | .setForkey _ key val => varSetForkey ihash v key val
  | .getNodeForkey _ key dict => (varGetNodeForkey ihash v key dict).1
  | .deleteKey key => varDeleteKey ihash v key
  | .clearArray => varClearArray v

/-- A call that keeps the last lookup right: a key that is deleted is behind its position, and there
are not too many children for an `int`. -/
def Safe (ihash : BitVec 32) (v : LinkedVar) : VarStep → Prop
  | .findIndex _ | .clearArray => True
  | .deleteKey key => ∀ l, v.Chain l → ∀ i,
      (varFindKey ihash (v.tree l) key).2.map Prod.fst = some i → v.cachepos < i
  | .add _ _ | .addNode _ _ | .setForkey _ _ _ | .getNodeForkey _ _ _ => v.count.toNat + 1 < 2 ^ 31

end VarStep

/-- Dicts and arrays from their start on. A fault is the end of a run. -/
def containers (ihash : BitVec 32) : Transition (Except Fault LinkedVar) VarStep where
  init s := ∃ dict cachenode, s = .ok (.alloc dict cachenode)
  step s call t := ∃ v, s = .ok v ∧ (∀ a, call.address = some a → v.mem a = none) ∧ t = call.run ihash v

def safely (ihash : BitVec 32) (s : Except Fault LinkedVar) (call : VarStep) : Prop :=
  ∀ v, s = .ok v → call.Safe ihash v

namespace LinkedVar

/-- The child for an index, counted from the end if it is negative. -/
def nth (as : List Nat) (i : ℤ) : Option Nat :=
  if 0 ≤ i then as[i.toNat]? else if -as.length ≤ i then as[(as.length + i).toNat]? else none

/-- A lookup finds the child for its index. -/
def Finds (v : LinkedVar) (l : List (Nat × Var)) (index : BitVec 32) : Prop :=
  ∃ v', v.varFindIndex index = .ok (nth (addrs l) index.toInt, v')

/-- What holds of a container on the way: it is what the calls make of a tree, and the last lookup is
right. -/
structure Indexed (ihash : BitVec 32) (calls : List VarStep) (v : LinkedVar) (l : List (Nat × Var)) :
    Prop where
  chain : v.Chain l
  cached : v.Cached (addrs l)
  short : l.length < 2 ^ 31
  tree : ∃ dict, v.tree l = calls.foldl (VarStep.onTree ihash) (Var.node dict FString.empty 0 [])

variable {ihash : BitVec 32} {calls : List VarStep} {v v' : LinkedVar} {l l' : List (Nat × Var)}

theorem Indexed.next (h : Indexed ihash calls v l) {call : VarStep} (c : v'.Chain l')
    (hc : v'.Cached (addrs l')) (hlen : l'.length < 2 ^ 31)
    (htree : v'.tree l' = call.onTree ihash (v.tree l)) : Indexed ihash (calls ++ [call]) v' l' := by
  obtain ⟨dict, hd⟩ := h.tree
  refine ⟨c, hc, hlen, dict, ?_⟩
  rw [List.foldl_append, List.foldl_cons, List.foldl_nil, ← hd, htree]

/-- A call that extends a container that is not too long. -/
theorem Indexed.extend (h : Indexed ihash calls v l) {call : VarStep} (he : v.Extends v' l l')
    (hroom : v.count.toNat + 1 < 2 ^ 31) (htree : v'.tree l' = call.onTree ihash (v.tree l)) :
    Indexed ihash (calls ++ [call]) v' l' := by
  obtain ⟨bs, haddrs, hbs⟩ := he.addrs
  have hlen : l'.length = l.length + bs.length := by simpa [addrs] using congrArg List.length haddrs
  rw [h.chain.count_toNat h.short] at hroom
  refine h.next he.chain ?_ (by omega) htree
  rw [haddrs]
  exact h.cached.append he.same bs

/-- A child behind the last lookup goes. -/
theorem Cached.eraseIdx {as : List Nat} (hc : v.Cached as) (hs : v.SameLookup v') {i : Nat}
    (hi : v.cachepos < i) : v'.Cached (as.eraseIdx i) := by
  apply hc.of_same hs
  intro j hj hlen
  rw [List.length_eraseIdx, List.getElem?_eraseIdx_of_lt (by omega)]
  refine ⟨?_, rfl⟩
  split <;> omega

/-- A call that is safe keeps the lookups right. -/
theorem Indexed.step (h : Indexed ihash calls v l) {call : VarStep}
    (ha : ∀ a, call.address = some a → v.mem a = none) (hsafe : call.Safe ihash v) :
    ∃ v' l', call.run ihash v = .ok v' ∧ Indexed ihash (calls ++ [call]) v' l' := by
  cases call with
  | findIndex index =>
    obtain ⟨pos, node, hrun, hc⟩ := h.chain.varFindIndex h.cached h.short index
    have c : Chain { v with cachepos := pos, cachenode := node } l :=
      ⟨h.chain.walk, h.chain.nodup, h.chain.made, h.chain.count⟩
    refine ⟨_, l, ?_, h.next c hc h.short rfl⟩
    rw [VarStep.run, hrun]
    rfl
  | add a val =>
    obtain ⟨v', l', hrun, he, htree⟩ := h.chain.varAdd ihash (ha a rfl) val
    exact ⟨v', l', hrun, h.extend he hsafe htree⟩
  | addNode a dict =>
    obtain ⟨v', l', hrun, he, htree⟩ := h.chain.varAddNode ihash (ha a rfl) dict
    exact ⟨v', l', hrun, h.extend he hsafe htree⟩
  | setForkey a key val =>
    obtain ⟨v', l', hrun, he, htree⟩ := h.chain.varSetForkey ihash (ha a rfl) key val
    exact ⟨v', l', hrun, h.extend he hsafe htree⟩
  | getNodeForkey a key dict =>
    obtain ⟨v', l', hrun, he, htree⟩ := h.chain.varGetNodeForkey ihash (ha a rfl) key dict
    exact ⟨v', l', hrun, h.extend he hsafe htree⟩
  | deleteKey key =>
    obtain ⟨v', l', hrun, c', hs, htree, ⟨-, hsame⟩ | ⟨i, hi, herase, -⟩⟩ := h.chain.varDeleteKey ihash key
    · have hlen : l'.length = l.length := by simpa [addrs] using congrArg List.length hsame
      refine ⟨v', l', hrun, h.next c' ?_ (hlen ▸ h.short) htree⟩
      rw [hsame]
      exact h.cached.of_same hs fun i _ hi => ⟨hi, rfl⟩
    · have hlen : l'.length ≤ l.length := by
        have hle := congrArg List.length herase
        rw [List.length_eraseIdx] at hle
        simp only [addrs, List.length_map] at hle
        split at hle <;> omega
      refine ⟨v', l', hrun, h.next c' ?_ (by have := h.short; omega) htree⟩
      rw [herase]
      exact h.cached.eraseIdx hs (hsafe l h.chain i hi)
  | clearArray =>
    obtain ⟨v', l', hrun, c', htree, hlen, hc⟩ := h.chain.varClearArray
    exact ⟨v', l', hrun, h.next c' (hc h.cached) (Nat.lt_of_le_of_lt hlen h.short) htree⟩

/-- Every run of safe calls goes on without a fault and keeps the lookups right. -/
theorem Indexed.history {s : Except Fault LinkedVar}
    (h : ((containers ihash).guard (safely ihash)).History calls s) :
    ∃ v l, s = .ok v ∧ Indexed ihash calls v l := by
  apply h.induction (I := fun calls s => ∃ v l, s = .ok v ∧ Indexed ihash calls v l)
  · rintro s ⟨dict, cachenode, rfl⟩
    exact ⟨_, [], rfl, .alloc dict cachenode, .inl rfl, by simp, dict, rfl⟩
  · rintro calls s call t ⟨v, l, rfl, hi⟩ ⟨hsafe, _, ⟨⟩, ha, rfl⟩
    obtain ⟨v', l', hrun, hi'⟩ := hi.step ha (hsafe v rfl)
    exact ⟨v', l', hrun, hi'⟩

/-- A lookup finds its child unless the index is a negative one that the container has. -/
theorem Indexed.finds_iff (h : Indexed ihash calls v l) (index : BitVec 32) :
    v.Finds l index ↔ ¬ (-(l.length : ℤ) ≤ index.toInt ∧ index.toInt < 0) := by
  obtain ⟨pos, node, hrun, -⟩ := h.chain.varFindIndex h.cached h.short index
  have hsize : (addrs l).length = l.length := List.length_map _
  have hfinds : v.Finds l index ↔ foundAt (addrs l) index.toInt = nth (addrs l) index.toInt := by
    constructor
    · rintro ⟨v', hv'⟩
      rw [hrun] at hv'
      exact congrArg Prod.fst (Except.ok.inj hv')
    · intro heq
      exact ⟨_, heq ▸ hrun⟩
  rw [hfinds, foundAt, nth, hsize]
  split_ifs with hneg hpos hin
  · omega
  · have hlt : (l.length + index.toInt).toNat < (addrs l).length := by omega
    rw [List.getElem?_eq_getElem hlt]
    simp [hneg, hin]
  · simp [hin]
  · simp [hneg]
  · omega
  · omega

/-- A child that is deleted while the last lookup points to it is found again, freed, if there is one
behind it. -/
theorem Indexed.deleted_found (h : Indexed ihash calls v l) {key : List UInt8} {i : Nat}
    (hi : (Opticon.varFindKey ihash (v.tree l) key).2.map Prod.fst = some i) (hpos : v.cachepos = i)
    (hlen : i + 1 < l.length) : ∃ v' a, v.varDeleteKey ihash key = .ok v' ∧
      v'.varFindIndex (BitVec.ofNat 32 i) = .ok (some a, v') ∧ v'.mem a = none := by
  obtain ⟨v', l', hrun, c', hs, -, ⟨hnone, -⟩ | ⟨j, hj, herase, hfreed⟩⟩ :=
    h.chain.varDeleteKey ihash key
  · rw [hnone] at hi
    cases hi
  · obtain rfl : i = j := Option.some.inj (hi.symm.trans hj)
    have hshort := h.short
    have hlen' : l'.length = l.length - 1 := by
      have hle := congrArg List.length herase
      rw [List.length_eraseIdx] at hle
      simp only [addrs, List.length_map] at hle
      rw [hle, if_pos (by omega)]
    obtain ⟨a, w, -, ha⟩ := getElem?_addrs (l := l) (i := i) (by omega)
    have hnode : v'.cachenode = some a := by
      obtain hno | ⟨k, hk, -, hnode⟩ := h.cached
      · omega
      · obtain rfl : k = i := by omega
        rw [hs.cachenode, hnode, ha]
    have hindex : (BitVec.ofNat 32 i).toInt = i := by
      rw [BitVec.toInt_eq_toNat_cond, BitVec.toNat_ofNat]
      omega
    have habs : v'.absindex (BitVec.ofNat 32 i) = i := by
      rw [LinkedVar.absindex, hindex, if_neg (by omega)]
    have hcount := c'.count_toNat (by omega)
    refine ⟨v', a, hrun, ?_, hfreed a ha⟩
    rw [LinkedVar.varFindIndex, habs, if_neg (by omega), if_neg (by omega), if_pos (hs.cachepos.trans hpos), hnode]
    rfl

/-- After any run of safe calls the container is what they make of a tree, and a lookup in it finds the
child for its index exactly if the index is not one that counts from the end. -/
theorem find_index_right (ihash : BitVec 32) {calls : List VarStep} {s : Except Fault LinkedVar}
    (h : ((containers ihash).guard (safely ihash)).History calls s) :
    ∃ v l dict, s = .ok v ∧ v.Chain l ∧
      v.tree l = calls.foldl (VarStep.onTree ihash) (Var.node dict FString.empty 0 []) ∧
      ∀ index, v.Finds l index ↔ ¬ (-(l.length : ℤ) ≤ index.toInt ∧ index.toInt < 0) := by
  obtain ⟨v, l, rfl, hi⟩ := Indexed.history h
  obtain ⟨dict, htree⟩ := hi.tree
  exact ⟨v, l, dict, rfl, hi.chain, htree, hi.finds_iff⟩

/-- A run with a key that comes and goes. -/
theorem find_index_right_key : ∃ (v : LinkedVar) (l : List (Nat × Var)) (dict : Bool), v.Chain l ∧
    v.tree l = [VarStep.setForkey 0 (asc "a") (.int 5), .deleteKey (asc "a")].foldl
      (VarStep.onTree 5138) (Var.node dict FString.empty 0 []) ∧
    ∀ index, v.Finds l index ↔ ¬ (-(l.length : ℤ) ≤ index.toInt ∧ index.toInt < 0) := by
  let S := (containers 5138).guard (safely 5138)
  let set : VarStep := .setForkey 0 (asc "a") (.int 5)
  have h₀ : S.History [] (.ok (.alloc true none)) := .init ⟨true, none, rfl⟩
  obtain ⟨v₁, hv₁⟩ : ∃ v₁, set.run 5138 (.alloc true none) = .ok v₁ ∧ v₁.cachepos = -1 := ⟨_, rfl, rfl⟩
  have h₁ : S.History [set] (.ok v₁) := by
    refine h₀.step ⟨?_, _, rfl, fun _ _ => rfl, hv₁.1.symm⟩
    rintro v ⟨⟩
    show (0 : BitVec 32).toNat + 1 < 2 ^ 31
    decide
  have h₂ : S.History [set, .deleteKey (asc "a")] ((VarStep.deleteKey (asc "a")).run 5138 v₁) := by
    refine h₁.step ⟨?_, v₁, rfl, ?_, rfl⟩
    · rintro v ⟨⟩ l _ i _
      rw [hv₁.2]
      omega
    · intro a ha
      cases ha
  obtain ⟨v, l, dict, -, hright⟩ := find_index_right 5138 h₂
  exact ⟨v, l, dict, hright⟩

/-- The last child of an array, looked up by the index `-1`. -/
theorem last_child_missed : ¬ ∀ calls s, (containers 5138).History calls s →
    ∃ v l, s = .ok v ∧ v.Chain l ∧ ∀ index, v.Finds l index := by
  intro hall
  have h₀ : (containers 5138).History [] (.ok (.alloc false none)) := .init ⟨false, none, rfl⟩
  obtain ⟨v₁, hv₁⟩ : ∃ v₁, (VarStep.add 0 (.int 5)).run 5138 (.alloc false none) = .ok v₁ := ⟨_, rfl⟩
  obtain ⟨v, l, hv, c, hfinds⟩ := hall [.add 0 (.int 5)] _ (h₀.step ⟨_, rfl, fun _ _ => rfl, hv₁.symm⟩)
  cases hv₁
  cases hv
  have hl := c.walk.unique (show Seg _ none (some 0) [(0, varAlloc (.int 5))] (some 0) none from
    ⟨rfl, none, rfl, rfl, rfl⟩)
  obtain ⟨v', hfind⟩ := hfinds (-1)
  rw [hl] at hfind
  have hmiss := congrArg (Except.map Prod.fst) hfind
  cases hmiss

end LinkedVar

end Opticon
