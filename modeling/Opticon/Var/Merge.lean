import Opticon.Lib.Overlay
import Opticon.Var.CopyLaws

/-! Merging one tree into another (`var.c`): what is there already, and what is added. -/

namespace Opticon

variable {ihash : BitVec 32} {id : FString} {h : BitVec 32} {cs ds : List Var}

/-! ### Proper trees -/

/-- A var below a dict has a key, with its hash if that is known. -/
structure Var.Named (ihash : BitVec 32) (c : Var) : Prop where
  id : c.id.str ≠ []
  hash : c.hashcode = 0 ∨ c.hashcode = hashToken ihash c.id.str

/-- The keys of a dict are distinct, and the elements of an array have none. -/
inductive Var.Proper (ihash : BitVec 32) : Var → Prop
  | leaf {id : FString} {h : BitVec 32} {val : VarValue} : Proper ihash (.leaf id h val)
  | dict {id : FString} {h : BitVec 32} {cs : List Var} : (cs.map Var.id).Nodup →
      (∀ c ∈ cs, c.Named ihash) → (∀ c ∈ cs, Proper ihash c) → Proper ihash (.dict id h cs)
  | array {id : FString} {h : BitVec 32} {cs : List Var} : (∀ c ∈ cs, c.id = FString.empty) →
      (∀ c ∈ cs, Proper ihash c) → Proper ihash (.array id h cs)

/-- The keys of a dict are distinct and not empty, and the elements of an array have none. -/
inductive Var.WellKeyed : Var → Prop
  | leaf {id : FString} {h : BitVec 32} {val : VarValue} : WellKeyed (.leaf id h val)
  | dict {id : FString} {h : BitVec 32} {cs : List Var} : (cs.map Var.id).Nodup →
      (∀ c ∈ cs, c.id.str ≠ []) → (∀ c ∈ cs, WellKeyed c) → WellKeyed (.dict id h cs)
  | array {id : FString} {h : BitVec 32} {cs : List Var} : (∀ c ∈ cs, c.id = FString.empty) →
      (∀ c ∈ cs, WellKeyed c) → WellKeyed (.array id h cs)

namespace Var

theorem Proper.wellKeyed {v : Var} (hv : v.Proper ihash) : v.WellKeyed := by
  induction hv with
  | leaf => exact .leaf
  | dict hnd hn _ ih => exact .dict hnd (fun c hc => (hn c hc).id) ih
  | array hid _ ih => exact .array hid ih

theorem Proper.setHashcode {v : Var} (hv : v.Proper ihash) (h : BitVec 32) :
    (v.setHashcode h).Proper ihash := by
  cases hv with
  | leaf => exact .leaf
  | dict hnd hn hc => exact .dict hnd hn hc
  | array hid hc => exact .array hid hc

theorem Proper.setId {v : Var} (hv : v.Proper ihash) (id : FString) : (v.setId id).Proper ihash := by
  cases hv with
  | leaf => exact .leaf
  | dict hnd hn hc => exact .dict hnd hn hc
  | array hid hc => exact .array hid hc

theorem Proper.child (hv : (Var.dict id h cs).Proper ihash) {c : Var} (hc : c ∈ cs) : c.Proper ihash := by
  cases hv with
  | dict _ _ hcs => exact hcs c hc

theorem Named.rehashed {c c' : Var} (hc : c.Named ihash) (h : c.Rehashed ihash c') : c'.Named ihash := by
  obtain rfl | ⟨-, rfl⟩ := h
  · exact hc
  · exact ⟨by rw [id_setHashcode]; exact hc.id, .inr (by rw [id_setHashcode, hashcode_setHashcode])⟩

theorem exists_rehashed {cs' : List Var} (h : List.Forall₂ (Rehashed ihash) cs cs') {c' : Var}
    (hc : c' ∈ cs') : ∃ c ∈ cs, c.Rehashed ihash c' := by
  induction h with
  | nil => cases hc
  | cons hd _ ih =>
    obtain rfl | hc := List.mem_cons.mp hc
    · exact ⟨_, List.mem_cons_self, hd⟩
    · obtain ⟨c, hmem, hre⟩ := ih hc
      exact ⟨c, List.mem_cons_of_mem _ hmem, hre⟩

theorem map_id_rehashed {cs' : List Var} (h : List.Forall₂ (Rehashed ihash) cs cs') :
    cs'.map Var.id = cs.map Var.id := by
  induction h with
  | nil => rfl
  | cons hc _ ih => rw [List.map_cons, List.map_cons, hc.id_eq, ih]

theorem Proper.rehashed (hv : (Var.dict id h cs).Proper ihash) {cs' : List Var}
    (hre : List.Forall₂ (Rehashed ihash) cs cs') : (Var.dict id h cs').Proper ihash := by
  cases hv with
  | dict hnd hn hc =>
    refine .dict (map_id_rehashed hre ▸ hnd) ?_ ?_
    · intro c' hmem
      obtain ⟨c, hc, hre⟩ := exists_rehashed hre hmem
      exact (hn c hc).rehashed hre
    · intro c' hmem
      obtain ⟨c, hold, hre⟩ := exists_rehashed hre hmem
      obtain rfl | ⟨hash, rfl⟩ := hre.exists
      · exact hc _ hold
      · exact (hc c hold).setHashcode hash

/-- In a proper dict the child with a key is found, and the hashes that were not known are filled in. -/
theorem Proper.varFindKey (hv : (Var.dict id h cs).Proper ihash) (key : List UInt8) : ∃ cs',
    List.Forall₂ (Rehashed ihash) cs cs' ∧
      ((∃ i c, cs'[i]? = some c ∧ c.id.str = key ∧
        varFindKey ihash (.dict id h cs) key = (.dict id h cs', some (i, c))) ∨
      (∀ c ∈ cs, c.id.str ≠ key) ∧
        varFindKey ihash (.dict id h cs) key = (.dict id h cs', none)) := by
  refine ⟨_, findKeyIn_rehashed ihash key cs, ?_⟩
  simp only [Opticon.varFindKey]
  cases hfound : (findKeyIn ihash key cs).2 with
  | none =>
    refine .inr ⟨?_, rfl⟩
    rintro c hc rfl
    cases hv with
    | dict _ hn _ => exact findKeyIn_none hfound c hc (hn c hc).hash rfl
  | some p =>
    obtain ⟨i, c⟩ := p
    obtain ⟨hget, -, hck⟩ := findKeyIn_some hfound
    exact .inl ⟨i, c, hget, hck, rfl⟩

/-- The children of a dict with one of them changed in place. -/
theorem Proper.set (hv : (Var.dict id h cs).Proper ihash) {i : Nat} {c w : Var} (hget : cs[i]? = some c)
    (hw : w.Proper ihash) (hid : w.id = c.id) (hhash : w.hashcode = c.hashcode) :
    (Var.dict id h (cs.set i w)).Proper ihash := by
  cases hv with
  | dict hnd hn hc =>
    have hids : (cs.set i w).map Var.id = cs.map Var.id := by
      have hget' : (cs.map Var.id)[i]? = some c.id := by rw [List.getElem?_map, hget, Option.map_some]
      obtain ⟨hi, heq⟩ := List.getElem?_eq_some_iff.mp hget'
      rw [List.map_set, hid, ← heq, List.set_getElem_self]
    have hmem : c ∈ cs := List.mem_of_getElem? hget
    refine .dict (hids ▸ hnd) ?_ ?_
    · intro x hx
      obtain hx | rfl := List.mem_or_eq_of_mem_set hx
      · exact hn x hx
      · exact ⟨hid ▸ (hn c hmem).id, hhash ▸ hid ▸ (hn c hmem).hash⟩
    · intro x hx
      obtain hx | rfl := List.mem_or_eq_of_mem_set hx
      · exact hc x hx
      · exact hw

/-- The children of a dict with a new one behind them. -/
theorem Proper.append (hv : (Var.dict id h cs).Proper ihash) {c : Var} (hnew : ∀ x ∈ cs, x.id ≠ c.id)
    (hn : c.Named ihash) (hc : c.Proper ihash) : (Var.dict id h (cs ++ [c])).Proper ihash := by
  cases hv with
  | dict hnd hns hcs =>
    refine .dict ?_ ?_ ?_
    · rw [List.map_append, List.nodup_append_comm]
      refine List.nodup_cons.mpr ⟨?_, hnd⟩
      intro hmem
      obtain ⟨x, hx, hid⟩ := List.mem_map.mp hmem
      exact hnew x hx hid
    · intro x hx
      obtain hx | hx := List.mem_append.mp hx
      · exact hns x hx
      · exact List.mem_singleton.mp hx ▸ hn
    · intro x hx
      obtain hx | hx := List.mem_append.mp hx
      · exact hcs x hx
      · exact List.mem_singleton.mp hx ▸ hc

/-! ### Clones -/

theorem WellKeyed.linkable {v : Var} (hv : v.WellKeyed) : v.Linkable := by
  induction hv with
  | leaf => exact .leaf
  | dict _ hn _ ih => exact .dict hn ih
  | array hid _ ih => exact .array (fun c hc => congrArg FString.str (hid c hc)) ih

variable (ihash) in
theorem keyedClone_named {c : Var} (hc : c.id.str ≠ []) : (varKeyedClone ihash c).Named ihash ∧
    (varKeyedClone ihash c).id = c.id := by
  have hid : (varKeyedClone ihash c).id = c.id := by
    rw [varKeyedClone, id_setHashcode, id_setId]
  refine ⟨⟨by rwa [hid], .inr ?_⟩, hid⟩
  rw [hid, varKeyedClone, hashcode_setHashcode]

variable (ihash) in
theorem WellKeyed.clone {v : Var} (hv : v.WellKeyed) : (varClone ihash v).Proper ihash := by
  induction hv with
  | leaf => exact .leaf
  | @dict id h cs hnd hn hc ih =>
    rw [Linkable.varClone_dict ihash (WellKeyed.dict hnd hn hc).linkable]
    refine .dict (by rwa [map_id_keyedClone]) ?_ ?_
    · intro x hx
      obtain ⟨c, hc, rfl⟩ := List.mem_map.mp hx
      exact (keyedClone_named ihash (hn c hc)).1
    · intro x hx
      obtain ⟨c, hc, rfl⟩ := List.mem_map.mp hx
      exact ((ih c hc).setId _).setHashcode _
  | @array id h cs hid hc ih =>
    rw [Linkable.varClone_array ihash (WellKeyed.array hid hc).linkable]
    refine .array ?_ ?_
    · intro x hx
      obtain ⟨c, hmem, rfl⟩ := List.mem_map.mp hx
      exact ((hc c hmem).linkable.clone_unlinked ihash).1
    · intro x hx
      obtain ⟨c, hc, rfl⟩ := List.mem_map.mp hx
      exact ih c hc

end Var

/-! ### The shape of a tree -/

mutual

/-- The dicts of a tree, with the values and arrays below them as values. -/
def Var.shape : Var → KeyedTree FString Var
  | .leaf id _ val => .leaf id (.leaf FString.empty 0 val)
  | .dict id _ cs => .dict id (shapeAll cs)
  | .array id _ cs => .leaf id (.array FString.empty 0 (bareAll cs))

def Var.shapeAll : List Var → List (KeyedTree FString Var)
  | [] => []
  | c :: cs => c.shape :: shapeAll cs

end

namespace Var

theorem shapeAll_eq_map (cs : List Var) : shapeAll cs = cs.map shape := by
  induction cs with
  | nil => rfl
  | cons c cs ih => rw [shapeAll, ih, List.map_cons]

@[simp] theorem shape_leaf (id : FString) (h : BitVec 32) (val : VarValue) :
    (Var.leaf id h val).shape = .leaf id (.leaf FString.empty 0 val) := by
  rw [shape]

@[simp] theorem shape_dict (id : FString) (h : BitVec 32) (cs : List Var) :
    (Var.dict id h cs).shape = .dict id (cs.map shape) := by
  rw [shape, shapeAll_eq_map]

@[simp] theorem shape_array (id : FString) (h : BitVec 32) (cs : List Var) :
    (Var.array id h cs).shape = .leaf id (.array FString.empty 0 (cs.map bare)) := by
  rw [shape, bareAll_eq_map]

@[simp] theorem key_shape (v : Var) : v.shape.key = v.id := by
  cases v <;> simp [KeyedTree.key, Var.id]

theorem map_key_shape (cs : List Var) : (cs.map shape).map KeyedTree.key = cs.map Var.id := by
  rw [List.map_map]
  exact List.map_congr_left fun c _ => key_shape c

theorem shape_setHashcode (v : Var) (h : BitVec 32) : (v.setHashcode h).shape = v.shape := by
  cases v <;> simp [setHashcode]

theorem map_shape_rehashed {cs' : List Var} (h : List.Forall₂ (Rehashed ihash) cs cs') :
    cs'.map shape = cs.map shape := by
  induction h with
  | nil => rfl
  | @cons c c' _ _ hc _ ih =>
    have hshape : c'.shape = c.shape := by
      obtain rfl | ⟨hash, rfl⟩ := hc.exists
      · rfl
      · exact shape_setHashcode c hash
    rw [List.map_cons, List.map_cons, hshape, ih]

theorem bare_bare {v : Var} (hv : v.Proper ihash) : v.bare.bare = v.bare := by
  induction hv with
  | leaf => simp
  | dict _ _ _ ih =>
    simp only [bare_dict, List.map_map]
    congr 1
    exact List.map_congr_left ih
  | array _ _ ih =>
    simp only [bare_array, List.map_map]
    congr 1
    exact List.map_congr_left ih

theorem shape_bare {v : Var} (hv : v.Proper ihash) : v.bare.shape = v.shape := by
  induction hv with
  | leaf => simp
  | dict _ _ _ ih =>
    simp only [bare_dict, shape_dict, List.map_map]
    congr 1
    exact List.map_congr_left ih
  | array _ hc _ =>
    simp only [bare_array, shape_array, List.map_map]
    congr 2
    exact List.map_congr_left fun c hmem => bare_bare (hc c hmem)

theorem shape_keyedClone {c : Var} (hc : c.Proper ihash) : (varKeyedClone ihash c).shape = c.shape := by
  have hclone : (varKeyedClone ihash c).Proper ihash :=
    ((hc.wellKeyed.clone ihash).setId c.id).setHashcode _
  rw [← shape_bare hclone, hc.wellKeyed.linkable.bare_keyedClone, shape_bare hc]

theorem Proper.distinct {v : Var} (hv : v.Proper ihash) : v.shape.Distinct := by
  induction hv with
  | leaf =>
    rw [shape_leaf]
    exact .leaf
  | @dict id h cs hnd _ _ ih =>
    rw [shape_dict]
    refine .dict (by rwa [map_key_shape]) ?_
    intro t ht
    obtain ⟨c, hc, rfl⟩ := List.mem_map.mp ht
    exact ih c hc
  | array _ _ _ =>
    rw [shape_array]
    exact .leaf

/-- An array takes the place of a dict. -/
def takesPlace (v : Var) : Bool := v.isNode false

open KeyedTree

/-- A merged var is proper, keeps its key, and has the other one laid over it. -/
structure MergedAs (ihash : BitVec 32) (a b r : Var) : Prop where
  proper : r.Proper ihash
  id : r.id = a.id
  hash : r.hashcode = a.hashcode
  shape : r.shape = overlay takesPlace a.shape b.shape

/-- The loop over the children that are merged into a dict. -/
theorem varMergeInto_shape (hcs : ∀ c ∈ cs, c.id.str ≠ [] ∧ c.Proper ihash)
    (hmerge : ∀ c ∈ cs, ∀ e : Var, e.Proper ihash → MergedAs ihash e c (varMerge ihash e c))
    (hv : (Var.dict id h ds).Proper ihash) :
    (varMergeInto ihash (.dict id h ds) cs).Proper ihash ∧
      ∃ es, varMergeInto ihash (.dict id h ds) cs = .dict id h es ∧
        es.map Var.shape = overlayAll takesPlace (ds.map Var.shape) (cs.map Var.shape) := by
  induction cs generalizing ds with
  | nil =>
    rw [varMergeInto]
    exact ⟨hv, ds, rfl, by simp only [List.map_nil, overlayAll]⟩
  | cons c cs ih =>
    have ih {es : List Var} (hes : (Var.dict id h es).Proper ihash) :=
      ih (fun x hx => hcs x (List.mem_cons_of_mem c hx)) (fun x hx => hmerge x (List.mem_cons_of_mem c hx)) hes
    obtain ⟨hck, hc⟩ := hcs c List.mem_cons_self
    obtain ⟨ds', hre, ⟨i, e, hget, hek, hr⟩ | ⟨hnew, hr⟩⟩ := hv.varFindKey c.id.str
    · have hid : e.id = c.id := FString.ext hek
      have hv' := hv.rehashed hre
      have he : e.Proper ihash := hv'.child (List.mem_of_getElem? hget)
      have hm : MergedAs ihash e c (if e.isNode true then varMerge ihash e c else e) := by
        split
        · exact hmerge c List.mem_cons_self e he
        · rename_i hd
          refine ⟨he, rfl, rfl, ?_⟩
          cases e with
          | leaf _ _ _ => rw [shape_leaf, overlay_leaf]
          | array _ _ _ => rw [shape_array, overlay_leaf]
          | dict _ _ _ => exact absurd rfl hd
      obtain ⟨hp, es, hes, hshape⟩ := ih (hv'.set hget hm.proper hm.id hm.hash)
      simp only [varMergeInto, hr, Var.put]
      refine ⟨hp, es, hes, ?_⟩
      have hmem : c.shape.key ∈ (ds.map Var.shape).map key := by
        rw [← map_shape_rehashed hre, map_key_shape, key_shape, ← hid]
        exact List.mem_map_of_mem (List.mem_of_getElem? hget)
      have hnd : ((ds'.map Var.shape).map key).Nodup := by
        rw [map_key_shape]
        cases hv' with
        | dict hnd _ _ => exact hnd
      have hget' : (ds'.map Var.shape)[i]? = some e.shape := by rw [List.getElem?_map, hget, Option.map_some]
      rw [hshape, List.map_cons, overlayAll, if_pos hmem, List.map_set, hm.shape, ← map_shape_rehashed hre,
        map_overlay_eq_set hnd hget' (by rw [key_shape, key_shape, hid])]
    · have hv' := hv.rehashed hre
      obtain ⟨hnamed, hcid⟩ := keyedClone_named ihash hck
      have hnew' : ∀ x ∈ ds', x.id ≠ (varKeyedClone ihash c).id := by
        intro x hx heq
        obtain ⟨y, hy, hxy⟩ := exists_rehashed hre hx
        exact hnew y hy (by rw [← hxy.id_eq, heq, hcid])
      have hclone := ((hc.wellKeyed.clone ihash).setId c.id).setHashcode (hashToken ihash c.id.str)
      obtain ⟨hp, es, hes, hshape⟩ := ih (hv'.append hnew' hnamed hclone)
      simp only [varMergeInto, hr]
      rw [varLinkAs_dict (hc.wellKeyed.linkable.clone_unlinked ihash).2 hck]
      refine ⟨hp, es, hes, ?_⟩
      have hmem : c.shape.key ∉ (ds.map Var.shape).map key := by
        rw [map_key_shape, key_shape]
        intro hmem
        obtain ⟨x, hx, hxc⟩ := List.mem_map.mp hmem
        exact hnew x hx (congrArg FString.str hxc)
      rw [hshape, List.map_cons, overlayAll, if_neg hmem, List.map_append, map_shape_rehashed hre,
        List.map_cons, List.map_nil, shape_keyedClone hc]

theorem MergedAs.self {a b : Var} (ha : a.Proper ihash)
    (h : a.shape = overlay takesPlace a.shape b.shape) : MergedAs ihash a b a :=
  ⟨ha, rfl, rfl, h⟩

theorem overlay_not_dict {a : Var} (ha : ¬ a.isNode true) (t : KeyedTree FString Var) :
    overlay takesPlace a.shape t = a.shape := by
  cases a with
  | leaf _ _ _ => rw [shape_leaf, overlay_leaf]
  | array _ _ _ => rw [shape_array, overlay_leaf]
  | dict _ _ _ => exact absurd rfl ha

theorem varMerge_not_dict {a : Var} (ha : ¬ a.isNode true) (b : Var) : varMerge ihash a b = a := by
  cases a with
  | leaf _ _ _ => cases b <;> simp only [varMerge]
  | array _ _ _ => cases b <;> simp only [varMerge]
  | dict _ _ _ => exact absurd rfl ha

/-- Merging lays one tree over the other. -/
theorem Proper.merge {b : Var} (hb : b.Proper ihash) (a : Var) (ha : a.Proper ihash) :
    MergedAs ihash a b (varMerge ihash a b) := by
  induction hb generalizing a with
  | leaf =>
    rw [varMerge]
    refine .self ha ?_
    cases a with
    | leaf _ _ _ => rw [shape_leaf, overlay_leaf]
    | array _ _ _ => rw [shape_array, overlay_leaf]
    | dict _ _ _ => simp [overlay, takesPlace, isNode]
  | @dict id h cs hnd hn hc ih =>
    cases a with
    | leaf _ _ _ =>
      rw [varMerge_not_dict (by simp [isNode])]
      exact .self ha (overlay_not_dict (by simp [isNode]) _).symm
    | array _ _ _ =>
      rw [varMerge_not_dict (by simp [isNode])]
      exact .self ha (overlay_not_dict (by simp [isNode]) _).symm
    | dict id' h' ds =>
      obtain ⟨hp, es, hes, hshape⟩ := varMergeInto_shape (fun c hmem => ⟨(hn c hmem).id, hc c hmem⟩)
        (fun c hmem e he => ih c hmem e he) ha
      rw [varMerge]
      refine ⟨hp, by rw [hes]; rfl, by rw [hes]; rfl, ?_⟩
      rw [hes, shape_dict, shape_dict, shape_dict, overlay_dict, hshape]
  | @array id h cs hid hc ih =>
    cases a with
    | leaf _ _ _ =>
      rw [varMerge_not_dict (by simp [isNode])]
      exact .self ha (overlay_not_dict (by simp [isNode]) _).symm
    | array _ _ _ =>
      rw [varMerge_not_dict (by simp [isNode])]
      exact .self ha (overlay_not_dict (by simp [isNode]) _).symm
    | dict id' h' ds =>
      have hkeys : (Var.array id h cs).WellKeyed := .array hid fun c hmem => (hc c hmem).wellKeyed
      have hclone := hkeys.clone ihash
      rw [hkeys.linkable.varClone_array] at hclone
      have hbare : (cs.map (varClone ihash)).map bare = cs.map bare := by
        rw [List.map_map]
        refine List.map_congr_left fun c hmem => ?_
        rw [Function.comp_apply, (hc c hmem).wellKeyed.linkable.clone_bare, ← hid c hmem, ← id_bare, setId_self]
      rw [varMerge, varCloneInto_array fun c hmem => (hc c hmem).wellKeyed.linkable.clone_unlinked ihash,
        List.nil_append]
      refine ⟨(hclone.setId id').setHashcode h', rfl, rfl, ?_⟩
      rw [shape_array, shape_dict, shape_array, hbare]
      simp [overlay, takesPlace, isNode]

/-- In one tree there is a dict where the other one has an array. -/
def Clash (a b : Var) : Prop :=
  ∃ p k ds k' x, along p a.shape = some (.dict k ds) ∧ along p b.shape = some (.leaf k' x) ∧
    x.isNode false = true

/-- What a merge keeps and adds, by the paths that lead to it. -/
structure KeepsAndAdds (ihash : BitVec 32) (a b : Var) : Prop where
  values : ∀ p k x, along p a.shape = some (.leaf k x) →
    along p (varMerge ihash a b).shape = some (.leaf k x)
  dicts : ∀ p k ds, along p a.shape = some (.dict k ds) → ∃ es,
    along p (varMerge ihash a b).shape = some (.dict k es) ∧ ds.map key <+: es.map key
  added : ∀ p k ds l y, along p a.shape = some (.dict k ds) → along (p ++ [l]) a.shape = none →
    along (p ++ [l]) b.shape = some y → along (p ++ [l]) (varMerge ihash a b).shape = some y
  nothingElse : ∀ p t, along p (varMerge ihash a b).shape = some t → along p a.shape ≠ none ∨
    ∃ q l r, p = q ++ l :: r ∧ (∃ k ds, along q a.shape = some (.dict k ds)) ∧
      along (q ++ [l]) a.shape = none ∧ along p b.shape = some t
  again : (varMerge ihash (varMerge ihash a b) b).shape = (varMerge ihash a b).shape

/-- A merge keeps what is there and adds what is not exactly if no array meets a dict. -/
theorem merge_right {a b : Var} (ha : a.Proper ihash) (hb : b.Proper ihash) (_ : a.isNode true = true)
    (_ : b.isNode true = true) : KeepsAndAdds ihash a b ↔ ¬ Clash a b := by
  have hm := hb.merge a ha
  have hclash : Clash a b ↔ Conflict takesPlace a.shape b.shape := by
    constructor
    · rintro ⟨p, k, ds, k', x, ht, hx, hw⟩
      exact ⟨p, _, k', x, ht, trivial, hx, hw⟩
    · rintro ⟨p, t, k', x, ht, hdict, hx, hw⟩
      cases t with
      | leaf _ _ => exact hdict.elim
      | dict k ds => exact ⟨p, k, ds, k', x, ht, hx, hw⟩
  rw [hclash]
  constructor
  · intro hkeep hn
    obtain ⟨p, k, ds, k', x, ht, hlost⟩ := hn.lost hb.distinct
    obtain ⟨es, hes, -⟩ := hkeep.dicts p k ds ht
    rw [hm.shape, hlost] at hes
    cases hes
  · intro hn
    refine ⟨?_, ?_, ?_, ?_, ?_⟩
    · intro p k x ht
      rw [hm.shape]
      exact along_overlay_leaf hb.distinct hn ht
    · intro p k ds ht
      rw [hm.shape]
      exact along_overlay_dict hb.distinct hn ht
    · intro p k ds l y ht hnone hy
      rw [hm.shape]
      exact along_overlay_new hb.distinct hn ht hnone hy
    · intro p t ht
      rw [hm.shape] at ht
      exact along_of_overlay hb.distinct hn ht
    · rw [(hb.merge _ hm.proper).shape, hm.shape, overlay_again hb.distinct]

/-- A dict with one key. -/
def oneKey (key : String) (v : Var) : Var :=
  .dict FString.empty 0 [v.setId (FString.strncpy (asc key))]

theorem oneKey_proper {key : String} (hkey : (FString.strncpy (asc key)).str ≠ []) {v : Var}
    (hv : v.Proper ihash) (hz : v.hashcode = 0) : (oneKey key v).Proper ihash := by
  refine .dict (List.nodup_singleton _) ?_ ?_
  · intro c hc
    obtain rfl := List.mem_singleton.mp hc
    exact ⟨by rwa [id_setId], .inl (by rw [hashcode_setId, hz])⟩
  · intro c hc
    obtain rfl := List.mem_singleton.mp hc
    exact hv.setId _

/-- Two interfaces that are configured apart. -/
theorem merge_right_eth0 :
    KeepsAndAdds 5138 (oneKey "net" (oneKey "eth0" (varAlloc (.int 1))))
        (oneKey "net" (oneKey "eth1" (varAlloc .null))) ↔
      ¬ Clash (oneKey "net" (oneKey "eth0" (varAlloc (.int 1))))
        (oneKey "net" (oneKey "eth1" (varAlloc .null))) :=
  merge_right (oneKey_proper (by decide) (oneKey_proper (by decide) .leaf rfl) rfl)
    (oneKey_proper (by decide) (oneKey_proper (by decide) .leaf rfl) rfl) rfl rfl

/-- An array that meets a dict. -/
theorem array_replaces_dict : ¬ KeepsAndAdds 5138 (oneKey "net" (oneKey "eth0" (varAlloc (.int 1))))
    (oneKey "net" (.array FString.empty 0 [])) := by
  intro h
  obtain ⟨es, hes, -⟩ := h.dicts [FString.strncpy (asc "net")] _ _ rfl
  cases hes

end Var

end Opticon
