import Opticon.Lib.PatternTrie
import Opticon.Var.Parse

/-! Reactions to a configuration (`react.c`). -/

namespace Opticon

universe u

variable {F : Type u}

/-- Node in the match tree for configuration paths: its pattern is `idmatch`, its values are the
reactions. -/
abbrev Pathnode (F : Type u) := PatternTrie FString F

def pathnodeAlloc : Pathnode F := .bare FString.empty

/-- Add a reaction to a pathnode. -/
def pathnodeAddReaction (self : Pathnode F) (f : F) : Pathnode F :=
  .node self.pattern (self.values ++ [f]) self.children

/-- Find a pathnode that matches against a given id. Wildcards will be honored. -/
def pathnodeFindMatch (self : Pathnode F) (id : List UInt8) : Option (Pathnode F) :=
  self.children.find? fun res => res.pattern.str = [42] ∨ res.pattern.str = id

/-- Find or create a pathnode with a specific match string: the node with it, and its place. -/
def pathnodeGetIdmatch (self : Pathnode F) (id : List UInt8) : Pathnode F × ℕ :=
  match self.children.findIdx? fun res => res.pattern.str = id with
  | some i => (self, i)
  | none =>
    let res : Pathnode F := .node (.strncpy id) pathnodeAlloc.values pathnodeAlloc.children
    (.node self.pattern self.values (self.children ++ [res]), self.children.length)

/-- The way down along the tokens of a path. -/
def addReactionBelow (f : F) : List (List UInt8) → Pathnode F → Pathnode F
  | [], T => pathnodeAddReaction T f
  | token :: tokens, T =>
    let r := pathnodeGetIdmatch T token
    .node r.1.pattern r.1.values (r.1.children.modify r.2 (addReactionBelow f tokens))

/-- What `strsep` cuts out of a path. -/
def CString.tokens (path : CString) : List (List UInt8) := path.bytes.splitOn 47

/-- Set up a configuration reaction to a specific configuration path. -/
def opticonfAddReaction (T : Pathnode F) (path : CString) (f : F) : Pathnode F :=
  addReactionBelow f path.tokens T

/-- The reactions that a program sets up. -/
def opticonfRoot (regs : List (CString × F)) : Pathnode F :=
  regs.foldl (fun T r => opticonfAddReaction T r.1 r.2) pathnodeAlloc

/-- What happened to the data when a reaction function is called for it. -/
inductive Updatetype where
  | none
  | add
  | change
  | remove
  deriving DecidableEq

/-- The generations in which a var was last seen, last changed and first seen. -/
structure Marks where
  generation : BitVec 32
  lastmodified : BitVec 32
  firstseen : BitVec 32
  deriving DecidableEq

/-- A configuration variable space with its marks. -/
inductive Conf where
  | leaf (id : FString) (marks : Marks) (value : VarValue)
  | dict (id : FString) (marks : Marks) (children : List Conf)
  | array (id : FString) (marks : Marks) (children : List Conf)

namespace Conf

def id : Conf → FString
  | .leaf id _ _ | .dict id _ _ | .array id _ _ => id

def marks : Conf → Marks
  | .leaf _ marks _ | .dict _ marks _ | .array _ marks _ => marks

end Conf

mutual

/-- A variable space that never had a new generation. -/
def Conf.ofVar : Var → Conf
  | .leaf id _ value => .leaf id ⟨0, 0, 0⟩ value
  | .dict id _ cs => .dict id ⟨0, 0, 0⟩ (Conf.ofVars cs)
  | .array id _ cs => .array id ⟨0, 0, 0⟩ (Conf.ofVars cs)

def Conf.ofVars : List Var → List Conf
  | [] => []
  | v :: vs => Conf.ofVar v :: Conf.ofVars vs

end

def updatetypeOf (gen : BitVec 32) (v : Conf) : Updatetype :=
  if v.marks.generation < gen then .remove
  else if v.marks.lastmodified = gen then
    if v.marks.firstseen = gen then .add else .change
  else .none

/-- The calls of the reactions of one pathnode, for a var that it matches. -/
def called (gen : BitVec 32) (reactions : List F) (v : Conf) : List (F × Conf × Updatetype) :=
  if updatetypeOf gen v = .none then [] else reactions.map fun f => (f, v, updatetypeOf gen v)

mutual

/-- The calls of `opticonf_handle`, in their order: `gen` is the generation of the root. -/
def opticonfHandle (gen : BitVec 32) (path : Pathnode F) : Conf → List (F × Conf × Updatetype)
  | .leaf _ _ _ => []
  | .dict _ _ cs | .array _ _ cs => opticonfHandleChildren gen path cs

def opticonfHandleChildren (gen : BitVec 32) (path : Pathnode F) :
    List Conf → List (F × Conf × Updatetype)
  | [] => []
  | v :: vs =>
    (match pathnodeFindMatch path v.id.str with
      | none => []
      | some p => called gen p.values v ++ opticonfHandle gen p v) ++
      opticonfHandleChildren gen path vs

end

/-- Feed a configuration variable space to the reaction framework. -/
def opticonfHandleConfig (T : Pathnode F) (conf : Conf) : List (F × Conf × Updatetype) :=
  opticonfHandle conf.marks.generation T conf

/-- The reactions of the agent. -/
inductive AgentReaction where
  | conf_collector
  | conf_probe
  | conf_winupdate
  deriving DecidableEq

def agentReactions : List (CString × AgentReaction) :=
  [(⟨asc "collector", by decide⟩, .conf_collector),
    (⟨asc "probes/*", by decide⟩, .conf_probe),
    (⟨asc "update", by decide⟩, .conf_winupdate)]

end Opticon
