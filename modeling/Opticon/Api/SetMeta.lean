import Opticon.Api.Privileged
import Opticon.Api.TenantCmds
import Opticon.Var.ChildLaws

/-! Setting the metadata of a tenant: what a merge leaves under each key. -/

namespace Opticon

variable {ihash : BitVec 32} {k : List UInt8}

section Round

/-- The value of a var that has no vars below it. -/
def Var.scalar : Var → Option VarValue
  | .leaf _ _ val => some val
  | _ => none

theorem Var.Rehashed.scalar {c c' : Var} (h : c.Rehashed ihash c') : c'.scalar = c.scalar := by
  obtain rfl | ⟨hash, rfl⟩ := h.exists
  · rfl
  · cases c <;> rfl

/-- The values under a key are the same in what is the same but for hashes. -/
theorem bind_scalar_of_rel {o o' : Option Var} (h : Option.Rel (Var.Rehashed ihash) o o') :
    o'.bind Var.scalar = o.bind Var.scalar := by
  cases h with
  | none => rfl
  | some hc => exact hc.scalar

theorem varMerge_node {v : Var} (hv : v.Formed) {id : FString} {h : BitVec 32} {ds : List Var} :
    ∃ dict es, varMerge ihash (.dict id h ds) v = Var.node dict id h es := by
  cases hv with
  | leaf _ =>
    rw [varMerge]
    exact ⟨true, ds, rfl⟩
  | array hid hcs =>
    rw [varMerge, varCloneInto_array fun c hc => (hcs c hc).clone_unlinked]
    exact ⟨false, _, rfl⟩
  | @dict _ _ cs hid hcs =>
    rw [varMerge]
    induction cs generalizing ds with
    | nil =>
      rw [varMergeInto]
      exact ⟨true, ds, rfl⟩
    | cons c cs ih =>
      have ih {es : List Var} := @ih es (fun x hx => hid x (List.mem_cons_of_mem c hx))
        fun x hx => hcs x (List.mem_cons_of_mem c hx)
      simp only [varMergeInto, varFindKey]
      split
      · exact ih
      · rw [varLinkAs_dict (hcs c List.mem_cons_self).clone_unlinked.2 (hid c List.mem_cons_self)]
        exact ih

/-- One round of a merge: the child that is there is kept, with its key and its hash and, if it
is no dict, its value; one that is not there is added. -/
inductive MergeRound (ihash : BitVec 32) (c : Var) (ds : List Var) : List Var → Prop
  | kept {i : Nat} {e w : Var} : (findKeyIn ihash c.id.str ds).2 = some (i, e) → w.id = e.id →
      w.hashcode = e.hashcode → w.scalar = e.scalar →
      MergeRound ihash c ds ((findKeyIn ihash c.id.str ds).1.set i w)
  | added : (findKeyIn ihash c.id.str ds).2 = none →
      MergeRound ihash c ds ((findKeyIn ihash c.id.str ds).1 ++ [varKeyedClone ihash c])

theorem varMergeInto_cons {c : Var} (hc : c.Formed) (hk : c.id.str ≠ []) (id : FString)
    (h : BitVec 32) (ds cs : List Var) : ∃ es, MergeRound ihash c ds es ∧
      varMergeInto ihash (.dict id h ds) (c :: cs) = varMergeInto ihash (.dict id h es) cs := by
  simp only [varMergeInto, varFindKey]
  split
  · rename_i i e hfound
    have hkept : (if e.isNode true then varMerge ihash e c else e).id = e.id ∧
        (if e.isNode true then varMerge ihash e c else e).hashcode = e.hashcode ∧
        (if e.isNode true then varMerge ihash e c else e).scalar = e.scalar := by
      split
      · rename_i hnode
        cases e with
        | leaf _ _ _ => cases hnode
        | array _ _ _ => cases hnode
        | dict id' h' ds' =>
          obtain ⟨dict, es, hes⟩ := @varMerge_node ihash c hc id' h' ds'
          rw [hes]
          cases dict <;> exact ⟨rfl, rfl, rfl⟩
      · exact ⟨rfl, rfl, rfl⟩
    exact ⟨_, .kept hfound hkept.1 hkept.2.1 hkept.2.2, rfl⟩
  · rename_i hnone
    rw [varLinkAs_dict hc.clone_unlinked.2 hk]
    exact ⟨_, .added hnone, rfl⟩

end Round

section Loop

theorem scalar_keyedClone {c : Var} (hc : c.Formed) : (varKeyedClone ihash c).scalar = c.scalar := by
  cases hc with
  | leaf _ => rfl
  | dict hid hcs =>
    rw [varKeyedClone, (Var.Formed.dict hid hcs).linkable.varClone_dict]
    rfl
  | array hid hcs =>
    rw [varKeyedClone, (Var.Formed.array hid hcs).linkable.varClone_array]
    rfl

theorem childIn_keyedClone (c : Var) : childIn ihash k [varKeyedClone ihash c] =
    if c.id.str = k then some (varKeyedClone ihash c) else none := by
  rw [childIn_cons]
  have hid : (varKeyedClone ihash c).id = c.id := by rw [varKeyedClone, Var.id_setHashcode, Var.id_setId]
  have hhash : (varKeyedClone ihash c).hashcode = hashToken ihash c.id.str := Var.hashcode_setHashcode _ _
  rw [hid, hhash]
  by_cases hk : c.id.str = k
  · rw [if_pos ⟨.inr (by rw [hk]), hk⟩, if_pos hk]
  · rw [if_neg fun h => hk h.2, if_neg hk]
    rfl

/-- Another key is left alone. -/
theorem MergeRound.other {c : Var} {ds es : List Var} (h : MergeRound ihash c ds es)
    (hk : c.id.str ≠ k) : Option.Rel (Var.Rehashed ihash) (childIn ihash k ds) (childIn ihash k es) := by
  have hre := @childIn_rehashed ihash k _ _ (findKeyIn_rehashed ihash c.id.str ds)
  cases h with
  | @kept i e w hfound hid _ _ =>
    obtain ⟨hget, -, hek⟩ := findKeyIn_some hfound
    rwa [childIn_set hget (by rwa [hek]) (by rwa [hid, hek])]
  | added _ =>
    rw [childIn_append, childIn_keyedClone, if_neg hk, Option.or_none]
    exact hre

/-- The key has the value it had, or the one that is merged in. -/
theorem MergeRound.own {c : Var} {ds es : List Var} (hc : c.Formed) (h : MergeRound ihash c ds es) :
    ∃ w, childIn ihash c.id.str es = some w ∧
      w.scalar = ((childIn ihash c.id.str ds).getD c).scalar := by
  cases h with
  | @kept i e w hfound hid hhash hval =>
    refine ⟨w, childIn_set_found hfound hid hhash, ?_⟩
    rw [childIn, hfound]
    exact hval
  | added hnone =>
    refine ⟨varKeyedClone ihash c, ?_, ?_⟩
    · rw [childIn_append, childIn_keyedClone, if_pos rfl]
      have hre := @childIn_rehashed ihash c.id.str _ _ (findKeyIn_rehashed ihash c.id.str ds)
      rw [childIn, hnone] at hre
      generalize childIn ihash c.id.str (findKeyIn ihash c.id.str ds).1 = o at hre ⊢
      cases hre
      rfl
    · rw [childIn, hnone]
      exact scalar_keyedClone hc

/-- What is read under a key after a merge: the value that was there, or else the first one that
was sent, and what was there if none was sent. -/
theorem varMergeInto_child {cs : List Var} (hcs : ∀ c ∈ cs, c.Formed) (hid : ∀ c ∈ cs, c.id.str ≠ [])
    (id : FString) (h : BitVec 32) (ds : List Var) :
    ∃ es, varMergeInto ihash (.dict id h ds) cs = .dict id h es ∧
      (∀ k, (childIn ihash k es).bind Var.scalar =
        ((childIn ihash k ds).or (cs.find? fun c => c.id.str = k)).bind Var.scalar) ∧
      ∀ k, (∀ c ∈ cs, c.id.str ≠ k) →
        (childIn ihash k es).map Var.bare = (childIn ihash k ds).map Var.bare := by
  induction cs generalizing ds with
  | nil =>
    rw [varMergeInto]
    refine ⟨ds, rfl, fun k => ?_, fun _ _ => rfl⟩
    rw [List.find?_nil, Option.or_none]
  | cons c cs ih =>
    obtain ⟨es₁, hround, heq⟩ := @varMergeInto_cons ihash c (hcs c List.mem_cons_self)
      (hid c List.mem_cons_self) id h ds cs
    obtain ⟨es, hes, hval, hother⟩ := ih (fun x hx => hcs x (List.mem_cons_of_mem c hx))
      (fun x hx => hid x (List.mem_cons_of_mem c hx)) es₁
    refine ⟨es, heq.trans hes, fun k => ?_, fun k hk => ?_⟩
    · rw [hval]
      by_cases hck : c.id.str = k
      · subst hck
        obtain ⟨w, hw, hscalar⟩ := hround.own (hcs c List.mem_cons_self)
        rw [hw, List.find?_cons_of_pos (by simp)]
        refine Eq.trans hscalar ?_
        cases childIn ihash c.id.str ds <;> rfl
      · rw [List.find?_cons_of_neg (by simpa using hck)]
        have hrel := hround.other hck
        generalize childIn ihash k ds = o at hrel ⊢
        generalize childIn ihash k es₁ = o' at hrel ⊢
        cases hrel with
        | none => rfl
        | some hc => exact hc.scalar
    · rw [hother k fun x hx => hk x (List.mem_cons_of_mem c hx),
        map_bare_of_rel (hround.other (hk c List.mem_cons_self))]

end Loop

section Linkable

variable {id : FString} {h : BitVec 32} {cs : List Var}

theorem Var.Linkable.rehashed (hv : (Var.dict id h cs).Linkable) {cs' : List Var}
    (hre : List.Forall₂ (Var.Rehashed ihash) cs cs') : (Var.dict id h cs').Linkable := by
  cases hv with
  | dict h₁ h₂ =>
    exact .dict (Var.forall_rehashed (fun c h hc => by rwa [Var.id_setHashcode]) hre h₁)
      (Var.forall_rehashed (fun c h hc => hc.setHashcode h) hre h₂)

theorem Var.Linkable.set (hv : (Var.dict id h cs).Linkable) (i : Nat) {w : Var} (hid : w.id.str ≠ [])
    (hw : w.Linkable) : (Var.dict id h (cs.set i w)).Linkable := by
  cases hv with
  | dict h₁ h₂ =>
    refine .dict ?_ ?_
    · intro x hx
      obtain hx | rfl := List.mem_or_eq_of_mem_set hx
      · exact h₁ x hx
      · exact hid
    · intro x hx
      obtain hx | rfl := List.mem_or_eq_of_mem_set hx
      · exact h₂ x hx
      · exact hw

theorem Var.Linkable.snoc (hv : (Var.dict id h cs).Linkable) {w : Var} (hid : w.id.str ≠ [])
    (hw : w.Linkable) : (Var.dict id h (cs ++ [w])).Linkable := by
  cases hv with
  | dict h₁ h₂ => exact .dict (forall_mem_append_singleton h₁ hid) (forall_mem_append_singleton h₂ hw)

theorem varMergeInto_linkable (hcs : ∀ c ∈ cs, c.Formed) (hid : ∀ c ∈ cs, c.id.str ≠ [])
    (hmerge : ∀ c ∈ cs, ∀ e : Var, e.Linkable → (varMerge ihash e c).Linkable) {ds : List Var}
    (hv : (Var.dict id h ds).Linkable) : (varMergeInto ihash (.dict id h ds) cs).Linkable := by
  induction cs generalizing ds with
  | nil => rwa [varMergeInto]
  | cons c cs ih =>
    have ih {es : List Var} := @ih (fun x hx => hcs x (List.mem_cons_of_mem c hx))
      (fun x hx => hid x (List.mem_cons_of_mem c hx)) (fun x hx => hmerge x (List.mem_cons_of_mem c hx)) es
    have hv := hv.rehashed (findKeyIn_rehashed ihash c.id.str ds)
    simp only [varMergeInto, varFindKey]
    split
    · rename_i i e hfound
      have hmem : e ∈ (findKeyIn ihash c.id.str ds).1 := List.mem_of_getElem? (findKeyIn_some hfound).1
      obtain ⟨hek, he⟩ : e.id.str ≠ [] ∧ e.Linkable := by
        cases hv with
        | dict h₁ h₂ => exact ⟨h₁ e hmem, h₂ e hmem⟩
      apply ih
      apply hv.set
      · split
        · rename_i hnode
          cases e with
          | leaf _ _ _ => cases hnode
          | array _ _ _ => cases hnode
          | dict id' h' ds' =>
            obtain ⟨dict, es, hes⟩ := @varMerge_node ihash c (hcs c List.mem_cons_self) id' h' ds'
            rwa [hes, Var.id_node]
        · exact hek
      · split
        · exact hmerge c List.mem_cons_self e he
        · exact he
    · have hc := hcs c List.mem_cons_self
      rw [varLinkAs_dict hc.clone_unlinked.2 (hid c List.mem_cons_self)]
      apply ih
      apply hv.snoc
      · rw [Var.id_setHashcode, Var.id_setId]
        exact hid c List.mem_cons_self
      · exact ((hc.linkable.clone ihash).setId _).setHashcode _

/-- A merge keeps the keys where they belong. -/
theorem Var.Formed.merge_linkable {b : Var} (hb : b.Formed) {a : Var} (ha : a.Linkable) :
    (varMerge ihash a b).Linkable := by
  induction hb generalizing a with
  | leaf _ =>
    rw [varMerge]
    exact ha
  | @array id h cs hid hcs _ =>
    have hf := @Var.Formed.array id h cs hid hcs
    have hclone := hf.linkable.clone ihash
    rw [hf.linkable.varClone_array] at hclone
    cases ha with
    | dict h₁ h₂ =>
      rw [varMerge, varCloneInto_array fun c hc => (hcs c hc).clone_unlinked]
      exact (hclone.setId _).setHashcode _
    | leaf => exact .leaf
    | array h₁ h₂ => exact .array h₁ h₂
  | dict hid hcs ih =>
    cases ha with
    | dict h₁ h₂ =>
      rw [varMerge]
      exact varMergeInto_linkable hcs hid (fun c hc e => ih c hc) (.dict h₁ h₂)
    | leaf => exact .leaf
    | array h₁ h₂ => exact .array h₁ h₂

end Linkable

section Request

variable {ctx : MetaCtx} {file : MetaFile} {doc doc' posted : Var}

/-- A dict in an empty one. -/
theorem inResponse_dict {key : FString} (hk : key.str ≠ []) (f : Var → Except Fault Var) (id : FString)
    (h : BitVec 32) : inResponse ihash key.str f (.dict id h []) =
      (f (.dict key (hashToken ihash key.str) [])).map fun v => .dict id h [v] := by
  have hlink := @varLink_dict ihash (.dict key (hashToken ihash key.str) []) (hashToken_ne_zero ihash _)
    hk id h []
  have hget : varGetDictForkey ihash (.dict id h []) key.str =
      (.dict id h [.dict key (hashToken ihash key.str) []],
        some (some 0, .dict key (hashToken ihash key.str) [])) := by
    simp only [varGetDictForkey, varGetNodeForkey, varForkey, varFindKey, FString.strncpy_str, Var.node,
      if_true, findKeyIn, hlink]
    rfl
  rw [inResponse, hget]
  show (f _ >>= _) = _
  cases f (.dict key (hashToken ihash key.str) []) <;> rfl

/-- A fresh response is an empty dict. -/
theorem inResponse_alloc (key : List UInt8) (f : Var → Except Fault Var) :
    inResponse ihash key f (varAlloc .null) = inResponse ihash key f (.dict FString.empty 0 []) := rfl

/-- What a request that sets metadata is to do: each value that was sent is found under its key in
the document that is stored, the other keys are as they were, and the response shows the document. -/
structure SetsMetadata (ctx : MetaCtx) (file : MetaFile) (doc posted doc' : Var) : Prop where
  run : cmdTenantSetMeta ctx file = .ok doc'
  stored : (MetaCmd.set_meta.ending ctx file).stored = dbSetMetadata file doc'
  values : ∀ c ∈ posted.children, ∀ val, c.scalar = some val →
    (varChild ctx.ihash doc' c.id.str).bind Var.scalar = some val
  others : ∀ k, (∀ c ∈ posted.children, c.id.str ≠ k) →
    (varChild ctx.ihash doc' k).map Var.bare = (varChild ctx.ihash doc k).map Var.bare
  response : ∃ shown, (MetaCmd.set_meta.ending ctx file).answer =
    .ok ⟨200, .dict FString.empty 0 [shown]⟩ ∧ shown.bare = doc'.bare.setId (FString.strncpy (asc "metadata"))

/-- The documents that `var_load_json` reads. -/
theorem varLoadJson_content {file : MetaFile} {doc : Var} (h : varLoadJson ihash file = .ok (some doc)) :
    doc.Content true ∧ doc.id = FString.empty := by
  unfold varLoadJson at h
  split at h
  · cases h
  · split at h
    · rename_i hparse
      split at h
      · obtain rfl := Option.some.inj (Except.ok.inj h)
        exact varParseJson_formed hparse
      · cases Except.ok.inj h
    · cases h

theorem Var.Content.linkable {v : Var} (hv : v.Content true) : v.Linkable := by
  cases hv with
  | null => exact .leaf
  | dict h => exact h.linkable

/-- What is answered after the document has been merged. -/
theorem set_meta_response (hrun : cmdTenantSetMeta ctx file = .ok doc') (hl : doc'.Linkable) :
    ∃ shown, (MetaCmd.set_meta.ending ctx file).answer = .ok ⟨200, .dict FString.empty 0 [shown]⟩ ∧
      shown.bare = doc'.bare.setId (FString.strncpy (asc "metadata")) := by
  have hkey : (FString.strncpy (asc "metadata")).str = asc "metadata" := by decide
  have hres := @inResponse_dict ctx.ihash (FString.strncpy (asc "metadata")) (by rw [hkey]; decide)
    (copyFrom ctx.ihash (some doc')) FString.empty 0
  rw [hkey, ← inResponse_alloc] at hres
  refine ⟨_, ?_, @Var.Linkable.copy_bare ctx.ihash _ hl (.dict (FString.strncpy (asc "metadata")) (hashToken ctx.ihash (asc "metadata")) [])⟩
  have hrun : MetaCmd.set_meta.run ctx file = .ok doc' := hrun
  have henv : MetaCmd.set_meta.env ctx.ihash = varAlloc .null := rfl
  simp only [MetaCmd.ending, hrun, MetaCmd.response, henv, hres]
  rfl

theorem set_meta_stored (hrun : cmdTenantSetMeta ctx file = .ok doc') :
    (MetaCmd.set_meta.ending ctx file).stored = dbSetMetadata file doc' := by
  have hrun : MetaCmd.set_meta.run ctx file = .ok doc' := hrun
  simp only [MetaCmd.ending, hrun]

/-- Metadata is set if and only if no value was sent for a key that has another one already, in the
metadata or further up in what was sent, and the metadata is not empty if a value was sent. -/
theorem set_meta_sets_iff (hload : varLoadJson ctx.ihash file = .ok (some doc)) {body : Option CString}
    (hbody : parseBody ctx.ihash body = .ok ctx.bodyjson)
    (hposted : ctx.bodyDict (asc "metadata") = some posted) :
    (∃ doc', SetsMetadata ctx file doc posted doc') ↔
      ∀ c ∈ posted.children, ∀ val, c.scalar = some val → doc.isNode true ∧
        ((varChild ctx.ihash doc c.id.str).or
          (posted.children.find? fun x => x.id.str = c.id.str)).bind Var.scalar = some val := by
  have hdoc := (varLoadJson_content hload).1
  obtain ⟨hform, hnode⟩ := ctx.bodyDict_formed (parseBody_content hbody) hposted
  have hrun : cmdTenantSetMeta ctx file = .ok (varMerge ctx.ihash doc posted) := by
    unfold cmdTenantSetMeta
    rw [dbGetMetadata_eq hload, Outcome.ok_bind, hposted]
    rfl
  have hmerged := @Var.Formed.merge_linkable ctx.ihash _ hform _ hdoc.linkable
  have hres := set_meta_response hrun hmerged
  cases hdoc with
  | @null id h =>
    -- an unset document stays as it is
    have hsame : varMerge ctx.ihash (.leaf id h .null) posted = .leaf id h .null := by
      cases posted <;> simp only [varMerge]
    rw [hsame] at hrun hres
    constructor
    · rintro ⟨doc', hset⟩ c hc val hval
      obtain rfl := Except.ok.inj (hrun.symm.trans hset.run)
      cases hset.values c hc val hval
    · intro hcond
      refine ⟨_, hrun, set_meta_stored hrun, ?_, fun _ _ => rfl, hres⟩
      intro c hc val hval
      cases (hcond c hc val hval).1
  | @dict id h ds hdoc =>
    cases hform with
    | leaf _ => cases hnode
    | array _ _ => cases hnode
    | @dict pid ph cs hid hcs =>
      obtain ⟨es, hes, hval, hother⟩ := @varMergeInto_child ctx.ihash cs hcs hid id h ds
      rw [varMerge, hes] at hrun hres
      constructor
      · rintro ⟨doc', hset⟩ c hc val hv
        obtain rfl := Except.ok.inj (hrun.symm.trans hset.run)
        refine ⟨rfl, ?_⟩
        rw [varChild_dict, ← hset.values c hc val hv, varChild_dict, hval]
        rfl
      · intro hcond
        refine ⟨_, hrun, set_meta_stored hrun, ?_, ?_, hres⟩
        · intro c hc val hv
          rw [varChild_dict, hval, ← (hcond c hc val hv).2]
          rfl
        · intro k hk
          rw [varChild_dict, varChild_dict, hother k hk]

/-- A command with a body. -/
def bodyCtx (bodyjson : Var) : MetaCtx where
  ihash := 5138
  userlevel := .admin
  bodyjson := bodyjson
  stackKey := ⟨List.replicate 16 170 ++ List.replicate 16 170, rfl⟩
  stackId := []

/-- A key of a parsed text. -/
def parsedKey (key : String) (make : FString → BitVec 32 → Var) : Var :=
  make (FString.strncpy (asc key)) (hashToken 5138 (asc key))

/-- `{"color": "b"}` as metadata. -/
def colorPosted : Var :=
  parsedKey "metadata" fun id h => .dict id h [parsedKey "color" fun id h => .leaf id h (.str (asc "b"))]

def colorBody : CString :=
  ⟨asc "\x7b\"metadata\": \x7b\"color\": \"b\"\x7d\x7d", by decide +kernel⟩

/-- A tenant with a name gets a color. -/
theorem set_meta_sets_color :
    (∃ doc', SetsMetadata (bodyCtx (.dict FString.empty 0 [colorPosted])) nameFile nameDoc colorPosted doc') ↔
      ∀ c ∈ colorPosted.children, ∀ val, c.scalar = some val → nameDoc.isNode true ∧
        ((varChild 5138 nameDoc c.id.str).or
          (colorPosted.children.find? fun x => x.id.str = c.id.str)).bind Var.scalar = some val :=
  @set_meta_sets_iff (bodyCtx (.dict FString.empty 0 [colorPosted])) nameFile nameDoc colorPosted rfl
    (some colorBody) rfl rfl

/-- `{"name": "b"}` as metadata. -/
def namePosted : Var :=
  parsedKey "metadata" fun id h => .dict id h [parsedKey "name" fun id h => .leaf id h (.str (asc "b"))]

def nameBody : CString :=
  ⟨asc "\x7b\"metadata\": \x7b\"name\": \"b\"\x7d\x7d", by decide +kernel⟩

/-- The tenant is not renamed. -/
theorem set_meta_keeps_name : parseBody 5138 (some nameBody) = .ok (.dict FString.empty 0 [namePosted]) ∧
    varLoadJson 5138 nameFile = .ok (some nameDoc) ∧
    ¬ ∃ doc', SetsMetadata (bodyCtx (.dict FString.empty 0 [namePosted])) nameFile nameDoc namePosted doc' := by
  refine ⟨rfl, rfl, ?_⟩
  rintro ⟨doc', hset⟩
  have hval := hset.values _ List.mem_cons_self (.str (asc "b")) rfl
  have hold : (cmdTenantSetMeta (bodyCtx (.dict FString.empty 0 [namePosted])) nameFile).toOption.bind
      (fun doc => (varChild 5138 doc (asc "name")).bind Var.scalar) = some (.str (asc "a")) := by
    decide +kernel
  rw [hset.run] at hold
  have hab : some (VarValue.str (asc "b")) = some (.str (asc "a")) := hval.symm.trans hold
  revert hab
  decide +kernel

end Request

end Opticon
