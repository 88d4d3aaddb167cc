import Opticon.Var.Cursor
import Opticon.Var.Laws

/-! The trees the parser makes out of an unset var. -/

namespace Opticon

def VarValue.Formed : VarValue → Prop
  | .null => False
  | .int _ => True
  | .double dval => 0 ≤ dval
  | .str sval => 0 ∉ sval

namespace Var

/-- Every var below this one is set, the children of a dict have keys and the elements of
an array have none. -/
inductive Formed : Var → Prop
  | leaf {id : FString} {h : BitVec 32} {val : VarValue} : val.Formed → Formed (.leaf id h val)
  | dict {id : FString} {h : BitVec 32} {cs : List Var} :
      (∀ c ∈ cs, c.id.str ≠ []) → (∀ c ∈ cs, c.Formed) → Formed (.dict id h cs)
  | array {id : FString} {h : BitVec 32} {cs : List Var} :
      (∀ c ∈ cs, c.id.str = []) → (∀ c ∈ cs, c.Formed) → Formed (.array id h cs)

/-- The var of a level for a dict is a dict, or still unset, that of a level for an array
is an array. -/
inductive Content : Bool → Var → Prop
  | null {id : FString} {h : BitVec 32} : Content true (.leaf id h .null)
  | dict {id : FString} {h : BitVec 32} {cs : List Var} :
      Formed (.dict id h cs) → Content true (.dict id h cs)
  | array {id : FString} {h : BitVec 32} {cs : List Var} :
      Formed (.array id h cs) → Content false (.array id h cs)

def IsLeaf : Var → Prop
  | .leaf _ _ _ => True
  | _ => False

/-- Whether the var can stand below a dict, or below an array. -/
def Fits (dict : Bool) (v : Var) : Prop := if dict then v.id.str ≠ [] else v.id.str = []

/-- What a level for a dict or an array may make of its var. -/
structure Follows (dict : Bool) (v v' : Var) : Prop where
  content : v'.Content dict
  id_eq : v'.id = v.id
  isLeaf : v'.IsLeaf → v.IsLeaf

theorem Content.follows {dict : Bool} {v : Var} (h : v.Content dict) : v.Follows dict v :=
  ⟨h, rfl, fun h => h⟩

theorem Content.formed {dict : Bool} {v : Var} (h : v.Content dict) (hl : ¬ v.IsLeaf) : v.Formed := by
  cases h with
  | null => exact absurd trivial hl
  | dict h => exact h
  | array h => exact h

theorem Formed.setHashcode {v : Var} (hv : v.Formed) (h : BitVec 32) : (v.setHashcode h).Formed := by
  cases hv with
  | leaf h => exact .leaf h
  | dict h₁ h₂ => exact .dict h₁ h₂
  | array h₁ h₂ => exact .array h₁ h₂

theorem forall_rehashed {ihash : BitVec 32} {P : Var → Prop}
    (hP : ∀ c h, P c → P (c.setHashcode h)) {cs cs' : List Var}
    (h : List.Forall₂ (Rehashed ihash) cs cs') (hcs : ∀ c ∈ cs, P c) : ∀ c ∈ cs', P c := by
  induction h with
  | nil => exact hcs
  | cons hc _ ih =>
    intro x hx
    obtain rfl | hx := List.mem_cons.mp hx
    · obtain rfl | ⟨hash, rfl⟩ := hc.exists
      · exact hcs _ List.mem_cons_self
      · exact hP _ _ (hcs _ List.mem_cons_self)
    · exact ih (fun c hc => hcs c (List.mem_cons_of_mem _ hc)) x hx

theorem Formed.rehashed {ihash : BitVec 32} {id : FString} {h : BitVec 32} {cs cs' : List Var}
    (hf : Formed (.dict id h cs)) (hcs : List.Forall₂ (Rehashed ihash) cs cs') : Formed (.dict id h cs') := by
  cases hf with
  | dict h₁ h₂ =>
    refine .dict (forall_rehashed ?_ hcs h₁) (forall_rehashed (fun c h hc => hc.setHashcode h) hcs h₂)
    intro c h hc
    rwa [id_setHashcode]

theorem Content.put {dict : Bool} {v vv : Var} {place : Option Nat} (h : v.Content dict)
    (hv : vv.Formed) (hfits : ∀ i, place = some i → vv.Fits dict) :
    v.Follows dict (v.put place vv) := by
  cases place with
  | none => cases h <;> exact Content.follows (by constructor <;> assumption)
  | some i =>
    have hfits := hfits i rfl
    have hmem {P : Var → Prop} (cs : List Var) (hcs : ∀ c ∈ cs, P c) (hvv : P vv) :
        ∀ c ∈ cs.set i vv, P c := by
      intro c hc
      obtain hc | rfl := List.mem_or_eq_of_mem_set hc
      · exact hcs c hc
      · exact hvv
    cases h with
    | null => exact Content.follows .null
    | dict h =>
      cases h with
      | dict h₁ h₂ => exact ⟨.dict (.dict (hmem _ h₁ hfits) (hmem _ h₂ hv)), rfl, fun h => h⟩
    | array h =>
      cases h with
      | array h₁ h₂ => exact ⟨.array (.array (hmem _ h₁ hfits) (hmem _ h₂ hv)), rfl, fun h => h⟩

theorem Formed.append {id : FString} {h : BitVec 32} {cs : List Var} {c : Var}
    (hf : Formed (.dict id h cs)) (hc : c.Formed) (hid : c.id.str ≠ []) :
    Formed (.dict id h (cs ++ [c])) := by
  cases hf with
  | dict h₁ h₂ =>
    refine .dict ?_ ?_
    · intro x hx
      obtain hx | rfl := List.mem_append.mp hx |>.imp_right List.mem_singleton.mp
      · exact h₁ x hx
      · exact hid
    · intro x hx
      obtain hx | rfl := List.mem_append.mp hx |>.imp_right List.mem_singleton.mp
      · exact h₂ x hx
      · exact hc

theorem Formed.append_array {id : FString} {h : BitVec 32} {cs : List Var} {c : Var}
    (hf : Formed (.array id h cs)) (hc : c.Formed) (hid : c.id.str = []) :
    Formed (.array id h (cs ++ [c])) := by
  cases hf with
  | array h₁ h₂ =>
    refine .array ?_ ?_
    · intro x hx
      obtain hx | rfl := List.mem_append.mp hx |>.imp_right List.mem_singleton.mp
      · exact h₁ x hx
      · exact hid
    · intro x hx
      obtain hx | rfl := List.mem_append.mp hx |>.imp_right List.mem_singleton.mp
      · exact h₂ x hx
      · exact hc

end Var

open Var

variable {ihash : BitVec 32}

theorem varSet_formed {v : Var} {val : VarValue}
    (hv : v.Formed ∨ ∃ id h, v = .leaf id h .null) (hval : val.Formed) :
    (varSet v val).Formed ∧ (varSet v val).id = v.id := by
  obtain hv | ⟨id, h, rfl⟩ := hv
  · cases hv with
    | leaf h =>
      rename_i old
      cases old <;> cases val <;>
        first
        | exact h.elim
        | exact ⟨.leaf hval, rfl⟩
        | exact ⟨.leaf h, rfl⟩
    | dict h₁ h₂ => exact ⟨.dict h₁ h₂, rfl⟩
    | array h₁ h₂ => exact ⟨.array h₁ h₂, rfl⟩
  · exact ⟨.leaf hval, rfl⟩

section Forkey

variable {key : List UInt8} {make : FString → BitVec 32 → Var} {id : FString} {h : BitVec 32}
  {cs : List Var} {r : Var × Option Nat × Var}

theorem ForkeyResult.fits (hr : ForkeyResult ihash key make id h cs r)
    (hf : Formed (.dict id h cs)) (hid : ∀ i h, (make i h).id = i) :
    ∀ i, r.2.1 = some i → r.2.2.Fits true := by
  intro i hi
  cases hr with
  | found _ _ hmem _ =>
    cases hf with
    | dict h₁ _ => exact h₁ _ hmem
  | linked _ _ hkey _ =>
    change (make _ _).id.str ≠ []
    rwa [hid]
  | orphan _ _ => cases hi

/-- The child with the key may be replaced by another one with the key. -/
theorem ForkeyResult.put (hr : ForkeyResult ihash key make id h cs r)
    (hf : Formed (.dict id h cs)) (hid : ∀ i h, (make i h).id = i) {vv : Var} (hvv : vv.Formed)
    (hvid : vv.id = r.2.2.id) : Follows true (.dict id h cs) (r.1.put r.2.1 vv) := by
  have hfits : ∀ i, r.2.1 = some i → vv.Fits true := by
    intro i hi
    have hfit := hr.fits hf hid i hi
    rwa [Fits, if_pos rfl, ← hvid] at hfit
  cases hr with
  | found hcs _ _ _ =>
    have h := Content.put (.dict (hf.rehashed hcs)) hvv hfits
    exact ⟨h.content, h.id_eq, h.isLeaf⟩
  | linked hcs _ _ hi =>
    subst hi
    simp only [Var.put, List.set_append_right _ _ (Nat.le_refl _), Nat.sub_self,
      List.set_cons_zero]
    exact ⟨.dict ((hf.rehashed hcs).append hvv (hfits _ rfl)), rfl, fun h => h⟩
  | orphan hcs _ => exact ⟨.dict (hf.rehashed hcs), rfl, fun h => h⟩

theorem ForkeyResult.put_self (hr : ForkeyResult ihash key make id h cs r) :
    r.1.put r.2.1 r.2.2 = r.1 := by
  cases hr with
  | found _ hget _ _ =>
    obtain ⟨hi, rfl⟩ := List.getElem?_eq_some_iff.mp hget
    simp only [Var.put, List.set_getElem_self]
  | linked _ _ _ hi => simp [Var.put, hi]
  | orphan _ _ => rfl

theorem ForkeyResult.child {P : Var → Prop} (hr : ForkeyResult ihash key make id h cs r)
    (hcs : ∀ c ∈ cs, P c) (hmake : ∀ i h, P (make i h)) : P r.2.2 := by
  cases hr with
  | found _ _ hmem _ => exact hcs _ hmem
  | linked _ _ _ _ => exact hmake _ _
  | orphan _ _ => exact hmake _ _

end Forkey

theorem Var.Formed.child {id : FString} {h : BitVec 32} {cs : List Var}
    (hf : Formed (.dict id h cs)) : ∀ c ∈ cs, c.Formed := by
  cases hf with
  | dict _ h₂ => exact h₂

theorem Var.Formed.empty {id : FString} {h : BitVec 32} : Formed (.dict id h []) :=
  .dict (by simp) (by simp)

theorem Var.Follows.of_empty {id : FString} {h : BitVec 32} {v : Var}
    (hv : Follows true (.dict id h []) v) : Follows true (.leaf id h .null) v :=
  ⟨hv.content, hv.id_eq, fun _ => trivial⟩

theorem varSetForkey_dict {id : FString} {h : BitVec 32} {cs : List Var}
    (hf : Formed (.dict id h cs)) (key : List UInt8) {val : VarValue} (hval : val.Formed) :
    Follows true (.dict id h cs) (varSetForkey ihash (.dict id h cs) key val) := by
  have hr := varGetOrMake_dict ihash key id h cs
  have hset := varSet_formed
    (hr.child (P := fun c => c.Formed ∨ ∃ id h, c = .leaf id h .null)
      (fun c hc => .inl (hf.child c hc)) (fun i h => .inr ⟨i, h, rfl⟩)) hval
  exact hr.put hf (fun _ _ => rfl) hset.1 hset.2

/-- An unset var is an empty dict to the operations that look for a key. -/
theorem varSetForkey_follows {v : Var} (hv : v.Content true) (key : List UInt8) {val : VarValue}
    (hval : val.Formed) : Follows true v (varSetForkey ihash v key val) := by
  cases hv with
  | null => exact (varSetForkey_dict .empty key hval).of_empty
  | dict hf => exact varSetForkey_dict hf key hval

theorem Var.Formed.node_nil (dict : Bool) (id : FString) (h : BitVec 32) :
    (Var.node dict id h []).Formed := by
  cases dict
  · exact .array (by simp) (by simp)
  · exact .dict (by simp) (by simp)

theorem Var.Formed.content {v : Var} {kind : Bool} (hv : v.Formed) (hk : v.isNode kind) :
    v.Content kind ∧ ¬ v.IsLeaf := by
  cases hv with
  | leaf _ => cases hk
  | dict h₁ h₂ =>
    obtain rfl : kind = true := hk
    exact ⟨.dict (.dict h₁ h₂), fun h => h⟩
  | array h₁ h₂ =>
    obtain rfl : kind = false := by simpa [Var.isNode] using hk
    exact ⟨.array (.array h₁ h₂), fun h => h⟩

theorem varGetNodeForkey_dict {id : FString} {h : BitVec 32} {cs : List Var}
    (hf : Formed (.dict id h cs)) (key : List UInt8) (kind : Bool) :
    Follows true (.dict id h cs) (varGetNodeForkey ihash (.dict id h cs) key kind).1 ∧
      ∀ place vv, (varGetNodeForkey ihash (.dict id h cs) key kind).2 = some (place, vv) →
        vv.Content kind ∧ ¬ vv.IsLeaf ∧ ∀ i, place = some i → vv.Fits true := by
  have hr := varForkey_dict ihash key (fun _ _ => Var.id_node kind _ _ []) (fun _ _ => Var.hashcode_node kind _ _ []) id h cs
  have hformed := hr.child hf.child (Formed.node_nil kind)
  have hput := hr.put hf (fun _ _ => Var.id_node kind _ _ []) hformed rfl
  rw [hr.put_self] at hput
  unfold varGetNodeForkey
  simp only
  split
  · rename_i hk
    refine ⟨hput, ?_⟩
    intro place vv hvv
    obtain ⟨rfl, rfl⟩ := Prod.mk.inj (Option.some.inj hvv)
    obtain ⟨hc, hl⟩ := hformed.content hk
    exact ⟨hc, hl, hr.fits hf (fun _ _ => Var.id_node kind _ _ [])⟩
  · exact ⟨hput, by simp⟩

variable (ihash) in
theorem varGetNodeForkey_follows {v : Var} (hv : v.Content true) (key : List UInt8) (kind : Bool) :
    Follows true v (varGetNodeForkey ihash v key kind).1 ∧
      ∀ place vv, (varGetNodeForkey ihash v key kind).2 = some (place, vv) →
        vv.Content kind ∧ ¬ vv.IsLeaf ∧ ∀ i, place = some i → vv.Fits true := by
  cases hv with
  | null =>
    obtain ⟨h₁, h₂⟩ := varGetNodeForkey_dict .empty key kind
    exact ⟨h₁.of_empty, h₂⟩
  | dict hf => exact varGetNodeForkey_dict hf key kind

theorem varAdd_follows {v : Var} (hv : v.Content false) {val : VarValue} (hval : val.Formed) :
    Follows false v (varAdd ihash v val) := by
  cases hv with
  | array hf =>
    rw [varAdd_array]
    exact ⟨.array (hf.append_array (.leaf hval) rfl), rfl, fun h => h⟩

variable (ihash) in
theorem varAddNode_follows {v : Var} (hv : v.Content false) (kind : Bool) :
    Follows false v (varAddNode ihash v kind).1 ∧
      ∀ place vv, (varAddNode ihash v kind).2 = some (place, vv) →
        vv.Content kind ∧ ¬ vv.IsLeaf ∧ ∀ i, place = some i → vv.Fits false := by
  cases hv with
  | array hf =>
    rw [varAddNode_array]
    have hid : (Var.node kind FString.empty 0 []).id.str = [] := by
      rw [Var.id_node]
      rfl
    refine ⟨⟨.array (hf.append_array (.node_nil _ _ _) hid), rfl, fun h => h⟩, ?_⟩
    intro place vv hvv
    obtain ⟨rfl, rfl⟩ := Prod.mk.inj (Option.some.inj hvv)
    have hk : (Var.node kind FString.empty 0 []).isNode kind := by cases kind <;> rfl
    obtain ⟨hc, hl⟩ := (Formed.node_nil kind FString.empty 0).content hk
    exact ⟨hc, hl, fun _ _ => hid⟩

/-- Whether a level in this state is for a dict. -/
def PState.inDict : PState → Bool
  | .arrayWaitvalue | .arrayValue | .arrayValueQuoted => false
  | _ => true

/-- A comment belongs to the level it stands in. -/
def Frame.inDict (f : Frame) : Bool := if f.st = .comment then f.stnext.inDict else f.st.inDict

structure Frame.Sound (f : Frame) : Prop where
  content : f.v.Content f.inDict
  nonul : 0 ∉ f.valuebuf

/-- What a level for a dict or an array may do from its var on. -/
def Action.Sound (dict : Bool) (v : Var) : Action → Prop
  | .next f | .escape f => Follows dict v f.v ∧ f.inDict = dict ∧ 0 ∉ f.valuebuf
  | .child f place vv st =>
    (Follows dict v f.v ∧ f.inDict = dict ∧ 0 ∉ f.valuebuf) ∧
      vv.Content st.inDict ∧ st ≠ .comment ∧ ¬ vv.IsLeaf ∧ ∀ i, place = some i → vv.Fits dict
  | .leave v' | .fail v' _ => Follows dict v v'

theorem Action.Sound.fail_self {dict : Bool} {v : Var} (h : v.Content dict)
    (error : Option (List UInt8)) : Action.Sound dict v (.fail v error) :=
  h.follows

theorem openDict_sound {f : Frame} (hf : f.v.Content true) (hb : 0 ∉ f.valuebuf) :
    (openDict ihash f).Sound true f.v := by
  obtain ⟨h₁, h₂⟩ := varGetNodeForkey_follows ihash hf f.keybuf true
  simp only [openDict, varGetDictForkey]
  split
  · exact h₁
  · rename_i place vv heq
    obtain ⟨hc, hl, hfit⟩ := h₂ place vv heq
    exact ⟨⟨h₁, rfl, hb⟩, hc, by simp, hl, hfit⟩

theorem Var.Content.clearArray {v : Var} (hv : v.Content false) :
    (varClearArray v).Content false ∧ ¬ (varClearArray v).IsLeaf ∧ (varClearArray v).id = v.id := by
  cases hv with
  | array hf => exact ⟨.array (.array (by simp) (by simp)), fun h => h, rfl⟩

theorem openArray_sound {f : Frame} (hf : f.v.Content true) (hb : 0 ∉ f.valuebuf) :
    (openArray ihash f).Sound true f.v := by
  obtain ⟨h₁, h₂⟩ := varGetNodeForkey_follows ihash hf f.keybuf false
  simp only [openArray, varGetArrayForkey]
  split
  · exact h₁
  · rename_i place vv heq
    obtain ⟨hc, hl, hfit⟩ := h₂ place vv heq
    obtain ⟨hcc, hcl, hcid⟩ := hc.clearArray
    refine ⟨⟨h₁, rfl, hb⟩, hcc, by simp, hcl, ?_⟩
    intro i hi
    rw [Fits, hcid]
    exact hfit i hi

theorem dictKey_sound {f : Frame} (hst : f.st = .dictKey) (hf : f.v.Content true)
    (hb : 0 ∉ f.valuebuf) (c : UInt8) : (dictKey ihash f c).Sound true f.v := by
  unfold dictKey
  split_ifs
  · exact ⟨hf.follows, rfl, hb⟩
  · exact ⟨hf.follows, rfl, hb⟩
  · exact openDict_sound hf hb
  · exact openArray_sound hf hb
  · exact ⟨hf.follows, rfl, hb⟩
  · exact .fail_self hf _
  · exact ⟨hf.follows, by simp [Frame.inDict, hst, PState.inDict], hb⟩
  · exact .fail_self hf _

theorem dictWaitkey_sound {f : Frame} (hst : f.st = .dictWaitkey ∨ f.st = .beginning)
    (hf : f.v.Content true) (hb : 0 ∉ f.valuebuf) (c : UInt8) :
    (dictWaitkey ihash f c).Sound true f.v := by
  have hd : f.inDict = true := by obtain hst | hst := hst <;> simp [Frame.inDict, hst, PState.inDict]
  unfold dictWaitkey
  split_ifs
  · obtain hst | hst := hst <;>
      exact ⟨hf.follows, by simp [Frame.inDict, Frame.comment, hst, PState.inDict], hb⟩
  · exact ⟨hf.follows, hd, hb⟩
  · exact ⟨hf.follows, hd, hb⟩
  · exact hf.follows
  · exact ⟨hf.follows, rfl, by simp⟩
  · exact dictKey_sound (f := { f with st := .dictKey, keybuf := [], valuebuf := [] }) rfl hf
      (by simp) c
  · exact .fail_self hf _

theorem unquoted_formed {f : Frame} (hb : 0 ∉ f.valuebuf) : f.unquoted.Formed := by
  unfold Frame.unquoted
  split_ifs
  · trivial
  · simp only [VarValue.Formed, atof]
    positivity
  · exact hb

theorem unquotedValue_sound {closer : UInt8} {wait : PState} {stored : Var}
    {error : Option (List UInt8)} {f : Frame} {d : Bool} (hwait : wait.inDict = d)
    (hw : wait ≠ .comment) (hd : f.inDict = d)
    (hf : f.v.Content d) (hb : 0 ∉ f.valuebuf) (hs : Follows d f.v stored) {c : UInt8}
    (hc : c ≠ 0) : (unquotedValue closer wait stored error f c).Sound d f.v := by
  have hbc : 0 ∉ f.valuebuf ++ [c] := by simp [hb, hc.symm]
  unfold unquotedValue
  simp only
  split_ifs
  · exact ⟨hs, by simp [Frame.inDict, Frame.comment, hwait], hb⟩
  · exact hs
  · exact ⟨hs, by simp [Frame.inDict, hw, hwait], hb⟩
  all_goals first | exact .fail_self hf _ | exact ⟨hf.follows, hd, hbc⟩

theorem dictValue_sound {f : Frame} (hst : f.st = .dictValue) (hf : f.v.Content true)
    (hb : 0 ∉ f.valuebuf) {c : UInt8} (hc : c ≠ 0) : (dictValue ihash f c).Sound true f.v :=
  unquotedValue_sound (f := f) (d := true) rfl (by simp)
    (by simp [Frame.inDict, hst, PState.inDict]) hf hb
    (varSetForkey_follows hf f.keybuf (unquoted_formed hb)) hc

theorem arrayValue_sound {f : Frame} (hst : f.st = .arrayValue) (hf : f.v.Content false)
    (hb : 0 ∉ f.valuebuf) {c : UInt8} (hc : c ≠ 0) : (arrayValue ihash f c).Sound false f.v :=
  unquotedValue_sound (f := f) (d := false) rfl (by simp)
    (by simp [Frame.inDict, hst, PState.inDict]) hf hb
    (varAdd_follows hf (unquoted_formed hb)) hc

theorem dictWaitvalue_sound {f : Frame} (hst : f.st = .dictWaitvalue) (hf : f.v.Content true)
    (hb : 0 ∉ f.valuebuf) {c : UInt8} (hc : c ≠ 0) : (dictWaitvalue ihash f c).Sound true f.v := by
  have hd : f.inDict = true := by simp [Frame.inDict, hst, PState.inDict]
  unfold dictWaitvalue
  split_ifs
  · exact ⟨hf.follows, by simp [Frame.inDict, Frame.comment, hst, PState.inDict], hb⟩
  · exact ⟨hf.follows, hd, hb⟩
  · exact ⟨hf.follows, hd, hb⟩
  · exact ⟨hf.follows, hd, hb⟩
  · exact openDict_sound hf hb
  · exact openArray_sound hf hb
  · exact ⟨hf.follows, rfl, by simp⟩
  · exact dictValue_sound
      (f := { f with st := .dictValue, valuebuf := [], valueNondigits := false, valueDots := 0 })
      rfl hf (by simp) hc
  · exact .fail_self hf _

theorem arrayWaitvalue_sound {f : Frame} (hst : f.st = .arrayWaitvalue) (hf : f.v.Content false)
    (hb : 0 ∉ f.valuebuf) {c : UInt8} (hc : c ≠ 0) : (arrayWaitvalue ihash f c).Sound false f.v := by
  have hd : f.inDict = false := by simp [Frame.inDict, hst, PState.inDict]
  have hopen (kind : Bool) := varAddNode_follows ihash hf kind
  unfold arrayWaitvalue
  split_ifs
  · exact ⟨hf.follows, by simp [Frame.inDict, Frame.comment, hst, PState.inDict], hb⟩
  · exact ⟨hf.follows, hd, hb⟩
  · exact ⟨hf.follows, hd, hb⟩
  · exact hf.follows
  · simp only [varAddDict]
    split
    · exact (hopen true).1
    · rename_i place vv heq
      obtain ⟨hc, hl, hfit⟩ := (hopen true).2 place vv heq
      exact ⟨⟨(hopen true).1, hd, hb⟩, hc, by simp, hl, hfit⟩
  · simp only [varAddArray]
    split
    · exact (hopen false).1
    · rename_i place vv heq
      obtain ⟨hc, hl, hfit⟩ := (hopen false).2 place vv heq
      obtain ⟨hcc, hcl, hcid⟩ := hc.clearArray
      refine ⟨⟨(hopen false).1, hd, hb⟩, hcc, by simp, hcl, ?_⟩
      intro i hi
      rw [Fits, hcid]
      exact hfit i hi
  · exact ⟨hf.follows, rfl, by simp⟩
  · exact arrayValue_sound
      (f := { f with st := .arrayValue, valuebuf := [], valueNondigits := false, valueDots := 0 })
      rfl hf (by simp) hc
  · exact .fail_self hf _

theorem quotedValue_sound {wait : PState} {stored : Var} {f : Frame} {d : Bool}
    (hwait : wait.inDict = d) (hw : wait ≠ .comment) (hd : f.inDict = d)
    (hf : f.v.Content d) (hb : 0 ∉ f.valuebuf) (hs : Follows d f.v stored) {c : UInt8}
    (hc : c ≠ 0) : (quotedValue wait stored f c).Sound d f.v := by
  unfold quotedValue
  split_ifs
  · exact ⟨hs, by simp [Frame.inDict, hw, hwait], hb⟩
  · exact .fail_self hf _
  · exact ⟨hf.follows, hd, hb⟩
  · exact ⟨hf.follows, hd, by simp [hb, hc.symm]⟩

variable (ihash) in
theorem levelStep_sound {f : Frame} (hf : f.Sound) {c : UInt8} (hc : c ≠ 0) :
    (levelStep ihash f c).Sound f.inDict f.v := by
  obtain ⟨hv, hb⟩ := hf
  cases hst : f.st with
  | comment =>
    simp only [levelStep, hst]
    split
    · refine ⟨hv.follows, ?_, hb⟩
      by_cases hn : f.stnext = .comment <;> simp [Frame.inDict, hst, hn]
    · exact ⟨hv.follows, rfl, hb⟩
  | arrayWaitvalue =>
    simp only [levelStep, hst]
    have hd : f.inDict = false := by simp [Frame.inDict, hst, PState.inDict]
    rw [hd] at hv ⊢
    exact arrayWaitvalue_sound hst hv hb hc
  | arrayValue =>
    simp only [levelStep, hst]
    have hd : f.inDict = false := by simp [Frame.inDict, hst, PState.inDict]
    rw [hd] at hv ⊢
    exact arrayValue_sound hst hv hb hc
  | arrayValueQuoted =>
    simp only [levelStep, hst]
    have hd : f.inDict = false := by simp [Frame.inDict, hst, PState.inDict]
    rw [hd] at hv ⊢
    exact quotedValue_sound (f := f) (d := false) rfl (by simp) hd hv hb
      (varAdd_follows hv (show VarValue.Formed (.str f.valuebuf) from hb)) hc
  | beginning =>
    simp only [levelStep, hst]
    have hd : f.inDict = true := by simp [Frame.inDict, hst, PState.inDict]
    rw [hd] at hv ⊢
    unfold beginning
    split
    · exact ⟨hv.follows, rfl, hb⟩
    · exact dictWaitkey_sound (.inr hst) hv hb c
  | dictWaitkey =>
    simp only [levelStep, hst]
    have hd : f.inDict = true := by simp [Frame.inDict, hst, PState.inDict]
    rw [hd] at hv ⊢
    exact dictWaitkey_sound (.inl hst) hv hb c
  | dictKey =>
    simp only [levelStep, hst]
    have hd : f.inDict = true := by simp [Frame.inDict, hst, PState.inDict]
    rw [hd] at hv ⊢
    exact dictKey_sound hst hv hb c
  | dictKeyQuoted =>
    simp only [levelStep, hst]
    have hd : f.inDict = true := by simp [Frame.inDict, hst, PState.inDict]
    rw [hd] at hv ⊢
    unfold dictKeyQuoted
    split_ifs
    · exact ⟨hv.follows, rfl, hb⟩
    · exact ⟨hv.follows, hd, hb⟩
    · exact .fail_self hv _
    · exact ⟨hv.follows, hd, hb⟩
  | dictWaitvalue =>
    simp only [levelStep, hst]
    have hd : f.inDict = true := by simp [Frame.inDict, hst, PState.inDict]
    rw [hd] at hv ⊢
    exact dictWaitvalue_sound hst hv hb hc
  | dictValue =>
    simp only [levelStep, hst]
    have hd : f.inDict = true := by simp [Frame.inDict, hst, PState.inDict]
    rw [hd] at hv ⊢
    exact dictValue_sound hst hv hb hc
  | dictValueQuoted =>
    simp only [levelStep, hst]
    have hd : f.inDict = true := by simp [Frame.inDict, hst, PState.inDict]
    rw [hd] at hv ⊢
    exact quotedValue_sound (f := f) (d := true) rfl (by simp) hd hv hb
      (varSetForkey_follows hv f.keybuf (show VarValue.Formed (.str f.valuebuf) from hb)) hc

theorem escapedStep_sound {f f' : Frame} (hf : f.Sound) {d : UInt8} (hd : d ≠ 0)
    (h : escapedStep f d = some f') : f'.Sound ∧ f'.v = f.v ∧ f'.inDict = f.inDict := by
  obtain ⟨hv, hb⟩ := hf
  unfold escapedStep at h
  split at h
  · split at h
    · cases h
    · obtain rfl := Option.some.inj h
      exact ⟨⟨hv, hb⟩, rfl, rfl⟩
  · obtain rfl := Option.some.inj h
    refine ⟨⟨hv, ?_⟩, rfl, rfl⟩
    have h0 : (if d = 110 then (10 : UInt8) else if d = 116 then 9 else if d = 114 then 13 else d) ≠ 0 := by
      split_ifs <;> first | decide | exact hd
    simp only [List.mem_append, List.mem_singleton, not_or]
    exact ⟨hb, h0.symm⟩

/-- The levels of the machine: each can be put back into the one around it. -/
def StackSound : Frame → List Level → Prop
  | f, [] => f.Sound ∧ f.inDict = true ∧ f.v.id = FString.empty
  | f, l :: outer =>
    f.Sound ∧ ¬ f.v.IsLeaf ∧ (∀ i, l.place = some i → f.v.Fits l.frame.inDict) ∧
      StackSound l.frame outer

def Reading.Sound : Reading → Prop
  | .run f _ outer => StackSound f outer
  | .stop _ v => v.Content true ∧ v.id = FString.empty

theorem StackSound.frame {f : Frame} {outer : List Level} (h : StackSound f outer) : f.Sound := by
  cases outer <;> exact h.1

/-- The level goes on with another var that follows its own. -/
theorem StackSound.next {f : Frame} {outer : List Level} (h : StackSound f outer) {g : Frame}
    (hv : Follows f.inDict f.v g.v) (hd : g.inDict = f.inDict) (hb : 0 ∉ g.valuebuf) :
    StackSound g outer := by
  have hs : g.Sound := ⟨by rw [hd]; exact hv.content, hb⟩
  cases outer with
  | nil => exact ⟨hs, hd.trans h.2.1, hv.id_eq.trans h.2.2⟩
  | cons l outer =>
    obtain ⟨-, hl, hfit, ho⟩ := h
    refine ⟨hs, fun hleaf => hl (hv.isLeaf hleaf), ?_, ho⟩
    intro i hi
    have hfit := hfit i hi
    rwa [Fits, ← hv.id_eq] at hfit

theorem StackSound.resume {f : Frame} {l : Level} {outer : List Level}
    (h : StackSound f (l :: outer)) {v : Var} (hv : Follows f.inDict f.v v) :
    StackSound (l.resume v) outer := by
  obtain ⟨hs, hl, hfit, ho⟩ := h
  have hformed : v.Formed := hv.content.formed fun hleaf => hl (hv.isLeaf hleaf)
  refine ho.next (g := l.resume v) (ho.frame.content.put hformed ?_) rfl ho.frame.nonul
  intro i hi
  have hfit := hfit i hi
  rwa [Fits, ← hv.id_eq] at hfit

theorem StackSound.root {f : Frame} {outer : List Level} (h : StackSound f outer) {v : Var}
    (hv : Follows f.inDict f.v v) :
    (rootOf outer v).Content true ∧ (rootOf outer v).id = FString.empty := by
  induction outer generalizing f v with
  | nil =>
    obtain ⟨-, hd, hid⟩ := h
    rw [hd] at hv
    exact ⟨hv.content, hv.id_eq.trans hid⟩
  | cons l outer ih =>
    have hr := h.resume hv
    exact ih hr hr.frame.content.follows

theorem Reading.Sound.read {r : Reading} (hr : r.Sound) {c : UInt8} (hc : c ≠ 0) :
    (r.read ihash c).Sound := by
  cases r with
  | stop res v => exact hr
  | run f escaped outer =>
    have hf : f.Sound := StackSound.frame hr
    cases escaped with
    | true =>
      simp only [Reading.read]
      cases he : escapedStep f c with
      | none => exact StackSound.root hr hf.content.follows
      | some f' =>
        obtain ⟨hs, hv, hd⟩ := escapedStep_sound hf hc he
        refine StackSound.next hr ?_ hd hs.nonul
        rw [hv]
        exact hf.content.follows
    | false =>
      have hstep := levelStep_sound ihash hf hc
      simp only [Reading.read]
      cases hst : levelStep ihash f c with
      | next f' =>
        rw [hst] at hstep
        exact StackSound.next hr hstep.1 hstep.2.1 hstep.2.2
      | escape f' =>
        rw [hst] at hstep
        exact StackSound.next hr hstep.1 hstep.2.1 hstep.2.2
      | leave v =>
        rw [hst] at hstep
        cases outer with
        | nil => exact StackSound.root hr hstep
        | cons l outer => exact StackSound.resume hr hstep
      | fail v error =>
        rw [hst] at hstep
        exact StackSound.root hr hstep
      | child f' place vv st =>
        rw [hst] at hstep
        obtain ⟨⟨h₁, h₂, h₃⟩, hvv, hstc, hl, hfit⟩ := hstep
        have hd : (Frame.start vv st).inDict = st.inDict := by
          simp [Frame.inDict, Frame.start, hstc]
        have hchild : StackSound (.start vv st) (⟨f', place⟩ :: outer) := by
          refine ⟨⟨by rw [hd]; exact hvv, by simp [Frame.start]⟩, hl, ?_, StackSound.next hr h₁ h₂ h₃⟩
          rw [h₂]
          exact hfit
        simp only
        split
        · exact hchild.root (by rw [hd]; exact hvv.follows)
        · exact hchild

variable (ihash) in
theorem Reading.Sound.reads {r : Reading} (hr : r.Sound) {text : List UInt8} (h0 : 0 ∉ text) :
    (r.reads ihash text).Sound := by
  induction text generalizing r with
  | nil => exact hr
  | cons c cs ih =>
    apply ih
    · exact hr.read fun hc => h0 (hc ▸ List.mem_cons_self)
    · exact fun hcs => h0 (List.mem_cons_of_mem c hcs)

theorem Reading.Sound.finish {r : Reading} (hr : r.Sound) {res : Bool} {v : Var}
    (h : r.finish = some (res, v)) : v.Content true ∧ v.id = FString.empty := by
  cases r with
  | stop res' v' =>
    obtain ⟨-, rfl⟩ := Prod.mk.inj (Option.some.inj h)
    exact hr
  | run f escaped outer =>
    have hroot := StackSound.root hr (StackSound.frame hr).content.follows
    cases escaped with
    | true =>
      simp only [Reading.finish] at h
      split at h
      · obtain ⟨-, rfl⟩ := Prod.mk.inj (Option.some.inj h)
        exact hroot
      · cases h
    | false =>
      cases outer with
      | nil =>
        obtain ⟨-, rfl⟩ := Prod.mk.inj (Option.some.inj h)
        exact hroot
      | cons l outer => cases h

/-- The tree `var_parse_json` leaves behind when it starts with an unset var. -/
theorem varParseJson_formed {buf : CString} {res : Bool} {v : Var} {error : Option (List UInt8)}
    {line : Nat} (h : varParseJson ihash (varAlloc .null) buf = .returned res v error line) :
    v.Content true ∧ v.id = FString.empty := by
  have hstart : (Reading.start (varAlloc .null)).Sound :=
    ⟨⟨.null, by simp [Frame.start]⟩, rfl, rfl⟩
  apply (hstart.reads ihash buf.nonul).finish
  exact varParseJson_returned_finish h

end Opticon
