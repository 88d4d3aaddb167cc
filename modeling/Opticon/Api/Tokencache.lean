import Opticon.Api.Dispatch
import Opticon.Lib.UpdateFirst

/-! The cache of what the identity service said about tokens (`tokencache.c`). -/

namespace Opticon

def TOKEN_TIMEOUT_VALID : Nat := 1800
def TOKEN_TIMEOUT_INVALID : Nat := 60

structure TcacheNode where
  token : List UInt8
  hashcode : BitVec 32
  lastref : Nat
  ctime : Nat
  tenantlist : List Uuid
  userlevel : AuthLevel
  deriving DecidableEq

def tcacheNodeClear : TcacheNode := ⟨[], 0, 0, 0, [], .guest⟩

/-- Of the positive nodes only the first `count` are listed. -/
structure Tokencache where
  nodes : List TcacheNode
  invalids : List TcacheNode
  last_expire : Nat
  count_le : nodes.length ≤ 256
  invalids_length : invalids.length = 16

def tokencacheInit (tnow : Nat) : Tokencache where
  nodes := []
  invalids := List.replicate 16 tcacheNodeClear
  last_expire := tnow
  count_le := Nat.zero_le _
  invalids_length := List.length_replicate

namespace Tokencache

/-- The node a search for a token stops at. The hash of a token is never that of a
cleared node. -/
def hit (ihash : BitVec 32) (token : List UInt8) (crsr : TcacheNode) : Bool :=
  crsr.hashcode == hashToken ihash token && crsr.token == token

def clearIf (p : TcacheNode → Bool) (crsr : TcacheNode) : TcacheNode :=
  if p crsr then tcacheNodeClear else crsr

/-- The first slot that is free or expired, else the one that was not referenced for the
longest time, if one was not referenced just now. -/
def freeSlot (timeout tnow : Nat) :
    List TcacheNode → (i : Nat) → (into : Option Nat) → (oldest : Nat) → Option Nat
  | [], _, into, _ => into
  | crsr :: rest, i, into, oldest =>
    if crsr.hashcode = 0 ∨ crsr.ctime + timeout ≤ tnow then some i
    else if crsr.lastref < oldest then freeSlot timeout tnow rest (i + 1) (some i) crsr.lastref
    else freeSlot timeout tnow rest (i + 1) into oldest

end Tokencache

open Tokencache

def tokencacheExpire (self : Tokencache) (tnow : Nat) : Tokencache :=
  if tnow - self.last_expire < 60 then self
  else
    { nodes := self.nodes.map (clearIf fun crsr => crsr.ctime + TOKEN_TIMEOUT_VALID ≤ tnow)
      invalids := self.invalids.map
        (clearIf fun crsr => crsr.ctime + TOKEN_TIMEOUT_INVALID ≤ tnow)
      last_expire := tnow
      count_le := by simpa using self.count_le
      invalids_length := by simpa using self.invalids_length }

/-- The clock is read a second time by the expiry after a hit. -/
def tokencacheLookup (ihash : BitVec 32) (self : Tokencache) (token : List UInt8)
    (tnow texpire : Nat) : Tokencache × Option TcacheNode :=
  match (self.invalids.find? (hit ihash token)).filter
      (fun crsr => tnow < crsr.ctime + TOKEN_TIMEOUT_INVALID) with
  | some crsr =>
    let self := { self with
      invalids := updateFirst (hit ihash token) (fun crsr => { crsr with lastref := tnow })
        self.invalids
      invalids_length := by simpa using self.invalids_length }
    (tokencacheExpire self texpire, some { crsr with lastref := tnow })
  | none =>
    match self.nodes.find? (hit ihash token) with
    | none => (self, none)
    | some crsr =>
      if tnow < crsr.ctime + TOKEN_TIMEOUT_VALID then
        let self := { self with
          nodes := updateFirst (hit ihash token) (fun crsr => { crsr with lastref := tnow })
            self.nodes
          count_le := by simpa using self.count_le }
        (tokencacheExpire self texpire, some { crsr with lastref := tnow })
      else
        let self := { self with
          nodes := updateFirst (hit ihash token) (fun _ => tcacheNodeClear) self.nodes
          count_le := by simpa using self.count_le }
        (self, none)

/-- Whatever is known under the hash of the token is dropped from the positive nodes. -/
def tokencacheStoreInvalid (ihash : BitVec 32) (self : Tokencache) (token : List UInt8)
    (tnow rand : Nat) : Tokencache :=
  let into := (freeSlot TOKEN_TIMEOUT_INVALID tnow self.invalids 0 none tnow).getD (rand % 16)
  { self with
    invalids := self.invalids.set into
      ⟨token.take 1023, hashToken ihash token, tnow, tnow, [], .guest⟩
    nodes := self.nodes.map (clearIf fun crsr => crsr.hashcode == hashToken ihash token)
    count_le := by simpa using self.count_le
    invalids_length := by simpa using self.invalids_length }

/-- The slot of the positive nodes that a store takes. -/
def Tokencache.into (self : Tokencache) (tnow rand : Nat) : Nat :=
  if self.nodes.length < 256 then self.nodes.length
  else (freeSlot TOKEN_TIMEOUT_VALID tnow self.nodes 0 none tnow).getD (rand % 256)

/-- Only the negative nodes are searched for what is known under the hash of the token. -/
def tokencacheStoreValid (ihash : BitVec 32) (self : Tokencache) (token : List UInt8)
    (tenantlist : List Uuid) (userlevel : AuthLevel) (tnow rand : Nat) : Tokencache :=
  { self with
    nodes :=
      (if self.nodes.length < 256 then self.nodes ++ [tcacheNodeClear] else self.nodes).set
        (self.into tnow rand)
        ⟨token.take 1023, hashToken ihash token, tnow, tnow, tenantlist, userlevel⟩
    invalids := self.invalids.map (clearIf fun crsr => crsr.hashcode == hashToken ihash token)
    count_le := by
      have hle := self.count_le
      split <;> simp <;> omega
    invalids_length := by simpa using self.invalids_length }

end Opticon
