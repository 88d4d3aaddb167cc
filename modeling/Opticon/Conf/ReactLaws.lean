import Mathlib.Data.List.Forall2
import Opticon.Conf.React
import Opticon.Lib.Words

/-! Which reactions a configuration is told to: those that were set up for a matching path. -/

namespace Opticon

universe u

variable {F : Type u} {gen : BitVec 32}

/-- A token of a path as it is kept in a pathnode. -/
structure Token (t : List UInt8) : Prop where
  length_le : t.length ≤ 127
  nonul : 0 ∉ t

theorem Token.strncpy {t : List UInt8} (ht : Token t) : (FString.strncpy t).str = t := by
  have h := FString.strncpy_str ⟨t, ht.length_le, ht.nonul⟩
  rw [h]

theorem Token.eq_iff {t : List UInt8} (ht : Token t) (s : FString) :
    s.str = t ↔ s = FString.strncpy t := by
  constructor
  · rintro rfl
    exact (FString.strncpy_str s).symm
  · rintro rfl
    exact ht.strncpy

/-- `strcmp` with the id of a var, and the wildcard. -/
def wildcmp (idmatch id : FString) : Bool := idmatch.str = [42] ∨ idmatch = id

theorem pathnodeFindMatch_eq (T : Pathnode F) (id : FString) :
    pathnodeFindMatch T id.str = T.children.find? fun res => wildcmp res.pattern id := by
  simp only [pathnodeFindMatch, wildcmp, FString.ext_iff]

/-- The way down to a reaction's pathnode is the way to its place in the tree of patterns. -/
theorem addReactionBelow_eq {f : F} {tokens : List (List UInt8)} (h : ∀ t ∈ tokens, Token t)
    (T : Pathnode F) : addReactionBelow f tokens T = T.insert f (tokens.map .strncpy) := by
  induction tokens generalizing T with
  | nil => obtain ⟨a, bs, cs⟩ := T; rfl
  | cons token tokens ih =>
    obtain ⟨ht, htokens⟩ := List.forall_mem_cons.mp h
    obtain ⟨a, bs, cs⟩ := T
    have hp : (fun res : Pathnode F => decide (res.pattern.str = token)) =
        fun res => decide (res.pattern = FString.strncpy token) :=
      funext fun res => decide_eq_decide.mpr (ht.eq_iff res.pattern)
    have hdown : addReactionBelow f tokens = PatternTrie.insert f (tokens.map .strncpy) :=
      funext fun T => ih htokens T
    rw [List.map_cons, PatternTrie.insert, addReactionBelow, pathnodeGetIdmatch, hdown]
    simp only [PatternTrie.children, hp]
    cases hfind : cs.findIdx? fun res => decide (res.pattern = FString.strncpy token) with
    | some i =>
      have hany : (cs.any fun res => decide (res.pattern = FString.strncpy token)) = true := by
        rw [← List.findIdx?_isSome, hfind]
        rfl
      rw [if_pos hany, ← modify_findIdx? hfind]
      rfl
    | none =>
      have hany : (cs.any fun res => decide (res.pattern = FString.strncpy token)) = false := by
        rw [← List.findIdx?_isSome, hfind]
        rfl
      rw [if_neg (by simp [hany])]
      have hlast (res : Pathnode F) (g : Pathnode F → Pathnode F) :
          (cs ++ [res]).modify cs.length g = cs ++ [g res] := by
        simp [List.modify_eq_take_cons_drop]
      simp only [PatternTrie.pattern, PatternTrie.values, hlast]
      rfl

/-- The registrations of a program as paths of patterns. -/
def patterns (regs : List (CString × F)) : List (List FString × F) :=
  regs.map fun r => (r.1.tokens.map .strncpy, r.2)

theorem CString.token {path : CString} {t : List UInt8} (ht : t ∈ path.tokens)
    (hlen : t.length ≤ 127) : Token t where
  length_le := hlen
  nonul h0 := path.nonul (Words.mem_of_mem_splitOn ht h0)

theorem opticonfRoot_eq {regs : List (CString × F)}
    (h : ∀ r ∈ regs, ∀ t ∈ r.1.tokens, t.length ≤ 127) :
    opticonfRoot regs = .ofList FString.empty (patterns regs) := by
  induction regs using List.reverseRecOn with
  | nil => rfl
  | append_singleton regs r ih =>
    have hr : ∀ t ∈ r.1.tokens, Token t := fun t ht => CString.token ht (h r (by simp) t ht)
    rw [patterns, List.map_append, List.map_singleton, PatternTrie.ofList_snoc, ← patterns,
      ← ih fun r' hr' => h r' (List.mem_append_left _ hr')]
    simp [opticonfRoot, opticonfAddReaction, addReactionBelow_eq hr]

mutual

/-- The vars below a var, each with the ids on the way to it, as they are walked. -/
def Conf.walk : Conf → List (List FString × Conf)
  | .leaf _ _ _ => []
  | .dict _ _ cs | .array _ _ cs => Conf.walkAll cs

def Conf.walkAll : List Conf → List (List FString × Conf)
  | [] => []
  | v :: vs => ([v.id], v) :: (Conf.walk v).map (fun x => (v.id :: x.1, x.2)) ++ Conf.walkAll vs

end

mutual

/-- The calls for a tree are those for each var in it, by the pathnode its ids lead to. -/
theorem opticonfHandle_eq (T : Pathnode F) : (v : Conf) → opticonfHandle gen T v =
    v.walk.flatMap fun x => called gen (T.lookup wildcmp x.1) x.2
  | .leaf _ _ _ => rfl
  | .dict _ _ cs => by
    rw [opticonfHandle, Conf.walk, opticonfHandleChildren_eq T cs]
  | .array _ _ cs => by
    rw [opticonfHandle, Conf.walk, opticonfHandleChildren_eq T cs]

theorem opticonfHandleChildren_eq (T : Pathnode F) : (vs : List Conf) →
    opticonfHandleChildren gen T vs =
      (Conf.walkAll vs).flatMap fun x => called gen (T.lookup wildcmp x.1) x.2
  | [] => rfl
  | v :: vs => by
    rw [opticonfHandleChildren, Conf.walkAll, opticonfHandleChildren_eq T vs,
      pathnodeFindMatch_eq, List.cons_append, List.flatMap_cons, List.flatMap_append,
      List.flatMap_map, ← List.append_assoc]
    congr 1
    cases hfind : T.children.find? fun res => wildcmp res.pattern v.id with
    | none =>
      simp [PatternTrie.lookup, hfind, called]
    | some p =>
      simp [PatternTrie.lookup, hfind, opticonfHandle_eq p v]

end

/-- A registered path stands for the ids on the way to a var. -/
def PathMatches (path : CString) (ids : List FString) : Prop :=
  List.Forall₂ (fun t id => t = [42] ∨ t = id.str) path.tokens ids

instance (path : CString) (ids : List FString) : Decidable (PathMatches path ids) :=
  inferInstanceAs (Decidable (List.Forall₂ _ _ _))

/-- Where two paths part, neither has a wildcard. -/
def unmixed : List (List UInt8) → List (List UInt8) → Bool
  | t :: ts, u :: us => if t = u then unmixed ts us else t ≠ [42] ∧ u ≠ [42]
  | _, _ => true

theorem covers_wildcmp {tokens : List (List UInt8)} (h : ∀ t ∈ tokens, Token t)
    (ids : List FString) : PatternTrie.covers wildcmp (tokens.map .strncpy) ids = true ↔
      List.Forall₂ (fun t id => t = [42] ∨ t = id.str) tokens ids := by
  induction tokens generalizing ids with
  | nil => cases ids <;> simp [PatternTrie.covers]
  | cons t tokens ih =>
    obtain ⟨ht, htokens⟩ := List.forall_mem_cons.mp h
    cases ids with
    | nil => simp [PatternTrie.covers]
    | cons id ids =>
      have hid : FString.strncpy t = id ↔ t = id.str := by
        rw [eq_comm, ← ht.eq_iff id, eq_comm]
      simp [PatternTrie.covers, wildcmp, ih htokens, ht.strncpy, hid]

theorem clear_of_unmixed {ts us : List (List UInt8)} (hts : ∀ t ∈ ts, Token t)
    (hus : ∀ u ∈ us, Token u) (h : unmixed ts us = true) :
    PatternTrie.Clear wildcmp (ts.map .strncpy) (us.map .strncpy) := by
  induction ts generalizing us with
  | nil => trivial
  | cons t ts ih =>
    cases us with
    | nil => trivial
    | cons u us =>
      obtain ⟨ht, hts⟩ := List.forall_mem_cons.mp hts
      obtain ⟨hu, hus⟩ := List.forall_mem_cons.mp hus
      have heq : FString.strncpy t = FString.strncpy u ↔ t = u := by
        rw [← hu.eq_iff, ht.strncpy]
      rw [unmixed] at h
      rw [List.map_cons, List.map_cons, PatternTrie.Clear]
      simp only [heq]
      split at h
      · rename_i htu
        rw [if_pos htu]
        exact ih hts hus h
      · rename_i htu
        obtain ⟨htw, huw⟩ : t ≠ [42] ∧ u ≠ [42] := by simpa using h
        rw [if_neg htu]
        rintro id ⟨hm, hm'⟩
        simp only [wildcmp, ht.strncpy, hu.strncpy, htw, huw, false_or, decide_eq_true_eq] at hm hm'
        exact htu (heq.mp (hm.trans hm'.symm))

/-- What the pathnode is told that the ids lead to: each reaction whose path matches them. -/
theorem lookup_opticonfRoot {regs : List (CString × F)}
    (hfit : ∀ r ∈ regs, ∀ t ∈ r.1.tokens, t.length ≤ 127)
    (hmixed : ∀ r ∈ regs, ∀ r' ∈ regs, unmixed r.1.tokens r'.1.tokens) (ids : List FString) :
    (opticonfRoot regs).lookup wildcmp ids =
      (regs.filter fun r => PathMatches r.1 ids).map Prod.snd := by
  have htoken (r : CString × F) (hr : r ∈ regs) : ∀ t ∈ r.1.tokens, Token t :=
    fun t ht => CString.token ht (hfit r hr t ht)
  have hclear : ∀ e ∈ patterns regs, ∀ e' ∈ patterns regs, PatternTrie.Clear wildcmp e.1 e'.1 := by
    intro e he e' he'
    obtain ⟨r, hr, rfl⟩ := List.mem_map.mp he
    obtain ⟨r', hr', rfl⟩ := List.mem_map.mp he'
    exact clear_of_unmixed (htoken r hr) (htoken r' hr') (hmixed r hr r' hr')
  rw [opticonfRoot_eq hfit, PatternTrie.lookup_of_clear _ hclear, patterns, List.filter_map,
    List.map_map]
  have hmatch : ∀ r ∈ regs, (PatternTrie.covers wildcmp (r.1.tokens.map .strncpy) ids) =
      decide (PathMatches r.1 ids) := fun r hr =>
    Bool.eq_iff_iff.mpr ((covers_wildcmp (htoken r hr) ids).trans decide_eq_true_iff.symm)
  rw [← List.filter_congr hmatch]
  rfl

/-- Unless a wildcard stands beside another token, each var of a configuration is announced, in
the order of the document, to just the reactions that were set up for a path that matches it, in
the order in which they were set up. -/
theorem reactions_called {regs : List (CString × F)}
    (hfit : ∀ r ∈ regs, ∀ t ∈ r.1.tokens, t.length ≤ 127)
    (hmixed : ∀ r ∈ regs, ∀ r' ∈ regs, unmixed r.1.tokens r'.1.tokens) (conf : Conf) :
    opticonfHandleConfig (opticonfRoot regs) conf = conf.walk.flatMap fun x =>
      called conf.marks.generation ((regs.filter fun r => PathMatches r.1 x.1).map Prod.snd) x.2 := by
  simp only [opticonfHandleConfig, opticonfHandle_eq, lookup_opticonfRoot hfit hmixed]

/-- Below the probes of an agent each one is announced, and below the rest of its configuration
nothing is. -/
theorem reactions_called_agent :
    (opticonfHandleConfig (opticonfRoot agentReactions)
      (.dict .empty ⟨2, 2, 1⟩ [
        .leaf (.strncpy (asc "collector")) ⟨2, 1, 1⟩ (.str []),
        .dict (.strncpy (asc "probes")) ⟨2, 2, 1⟩ [
          .leaf (.strncpy (asc "a")) ⟨1, 1, 1⟩ .null,
          .dict (.strncpy (asc "b")) ⟨2, 2, 2⟩ [.leaf (.strncpy (asc "x")) ⟨2, 2, 2⟩ .null]],
        .leaf (.strncpy (asc "update")) ⟨2, 2, 1⟩ (.str [])])).map
      (fun c => (c.1, c.2.1.id.str, c.2.2)) =
    [(.conf_probe, asc "a", .remove), (.conf_probe, asc "b", .add),
      (.conf_winupdate, asc "update", .change)] := by
  rw [reactions_called (by decide) (by decide)]
  decide

mutual

theorem Conf.marks_ofVar : (v : Var) → ∀ x ∈ (Conf.ofVar v).walk, x.2.marks = ⟨0, 0, 0⟩
  | .leaf _ _ _ => by simp [Conf.ofVar, Conf.walk]
  | .dict _ _ cs => by
    rw [Conf.ofVar, Conf.walk]
    exact Conf.marks_ofVars cs
  | .array _ _ cs => by
    rw [Conf.ofVar, Conf.walk]
    exact Conf.marks_ofVars cs

theorem Conf.marks_ofVars : (vs : List Var) →
    ∀ x ∈ Conf.walkAll (Conf.ofVars vs), x.2.marks = ⟨0, 0, 0⟩
  | [] => by simp [Conf.ofVars, Conf.walkAll]
  | v :: vs => by
    intro x hx
    rw [Conf.ofVars, Conf.walkAll, List.cons_append, List.mem_cons, List.mem_append,
      List.mem_map] at hx
    obtain rfl | ⟨y, hy, rfl⟩ | hx := hx
    · cases v <;> rfl
    · exact Conf.marks_ofVar v y hy
    · exact Conf.marks_ofVars vs x hx

end

/-- A document that is loaded is announced as new, however often it is loaded. -/
theorem document_announced {regs : List (CString × F)}
    (hfit : ∀ r ∈ regs, ∀ t ∈ r.1.tokens, t.length ≤ 127)
    (hmixed : ∀ r ∈ regs, ∀ r' ∈ regs, unmixed r.1.tokens r'.1.tokens) (v : Var) :
    opticonfHandleConfig (opticonfRoot regs) (.ofVar v) = (Conf.ofVar v).walk.flatMap fun x =>
      (regs.filter fun r => PathMatches r.1 x.1).map fun r => (r.2, x.2, .add) := by
  have hroot : (Conf.ofVar v).marks = ⟨0, 0, 0⟩ := by cases v <;> rfl
  simp only [opticonfHandleConfig, opticonfHandle_eq, lookup_opticonfRoot hfit hmixed, hroot]
  refine List.flatMap_congr fun x hx => ?_
  simp [called, updatetypeOf, Conf.marks_ofVar v x hx, Function.comp_def]

end Opticon
