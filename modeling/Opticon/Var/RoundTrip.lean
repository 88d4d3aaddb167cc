import Opticon.Var.Formed
import Opticon.Var.Reread

/-! Trees that are written and read again. -/

namespace Opticon

variable {ihash : BitVec 32}

theorem Var.Rehashed.eq_of_hashed {cs cs' : List Var}
    (h : List.Forall₂ (Var.Rehashed ihash) cs cs')
    (hcs : ∀ c ∈ cs, c.hashcode = hashToken ihash c.id.str) : cs' = cs := by
  induction h with
  | nil => rfl
  | @cons c c' cs cs' hc _ ih =>
    have hc' : c' = c := by
      obtain rfl | ⟨h0, -⟩ := hc
      · rfl
      · rw [hcs c List.mem_cons_self] at h0
        exact absurd h0 (hashToken_ne_zero ihash _)
    rw [hc', ih fun c hc => hcs c (List.mem_cons_of_mem _ hc)]

section Shown

def VarValue.shown : VarValue → VarValue
  | .double dval => .double (sixDecimals dval)
  | val => val

mutual

/-- What two trees have in common that differ in the hashes of their keys and in the
decimals behind the sixth only. -/
def Var.shown : Var → Var
  | .leaf id _ val => .leaf id 0 val.shown
  | .dict id _ cs => .dict id 0 (Var.shownAll cs)
  | .array id _ cs => .array id 0 (Var.shownAll cs)

def Var.shownAll : List Var → List Var
  | [] => []
  | c :: cs => c.shown :: Var.shownAll cs

end

theorem Var.shownAll_eq_map (cs : List Var) : Var.shownAll cs = cs.map Var.shown := by
  induction cs with
  | nil => rfl
  | cons c cs ih => rw [Var.shownAll, ih, List.map_cons]

@[simp] theorem Var.shown_setHashcode (c : Var) (h : BitVec 32) :
    (c.setHashcode h).shown = c.shown := by
  cases c <;> rfl

@[simp] theorem Var.id_shown (c : Var) : c.shown.id = c.id := by
  cases c <;> rfl

@[simp] theorem Var.shown_node (kind : Bool) (id : FString) (h : BitVec 32) (cs : List Var) :
    (Var.node kind id h cs).shown = Var.node kind id 0 (cs.map Var.shown) := by
  cases kind <;> simp [Var.node, Var.shown, Var.shownAll_eq_map]

theorem map_shown_rehashed {cs cs' : List Var} (h : List.Forall₂ (Var.Rehashed ihash) cs cs') :
    cs'.map Var.shown = cs.map Var.shown := by
  induction h with
  | nil => rfl
  | cons hc _ ih =>
    rw [List.map_cons, List.map_cons, ih]
    obtain rfl | ⟨hash, rfl⟩ := hc.exists
    · rfl
    · rw [Var.shown_setHashcode]

theorem sixDecimals_sixDecimals (q : ℚ) : sixDecimals (sixDecimals q) = sixDecimals q := by
  let n := (Decimal.roundEven (q * 10 ^ 6)).toNat
  have hn : sixDecimals q * 10 ^ 6 = ((n : ℤ) : ℚ) := by
    rw [sixDecimals, div_mul_cancel₀ _ (by norm_num)]
    exact (Int.cast_natCast n).symm
  conv_lhs => rw [sixDecimals, hn, Decimal.roundEven_intCast]
  rfl

theorem VarValue.Formed.shown_reread {val : VarValue} (h : val.Formed) :
    val.reread.shown = val.shown := by
  cases val with
  | null => exact h.elim
  | double dval => simp [VarValue.reread, VarValue.shown, sixDecimals_sixDecimals]
  | _ => rfl

end Shown

/-- Nested `n` deep at most, no two children of a dict with the same key, and no newline in
a key. -/
inductive Var.Plain : Nat → Var → Prop
  | leaf {n : Nat} {id : FString} {h : BitVec 32} {val : VarValue} : Plain n (.leaf id h val)
  | dict {n : Nat} {id : FString} {h : BitVec 32} {cs : List Var} : (cs.map Var.id).Nodup →
      (∀ c ∈ cs, 10 ∉ c.id.str) → (∀ c ∈ cs, c.Plain n) → Plain (n + 1) (.dict id h cs)
  | array {n : Nat} {id : FString} {h : BitVec 32} {cs : List Var} :
      (∀ c ∈ cs, c.Plain n) → Plain (n + 1) (.array id h cs)

/-- The trees that can be stored: the root is not an empty dict, which is written like an
unset var. -/
def Var.Storable (v : Var) : Prop := (v.IsLeaf ∨ v.children ≠ []) ∧ v.Plain (default_max_json_depth + 1)

theorem Var.Plain.of_shown {n : Nat} {v w : Var} (hw : w.Plain n) (h : w.shown = v.shown) :
    v.Plain n := by
  induction hw generalizing v with
  | leaf =>
    cases v with
    | leaf _ _ _ => exact .leaf
    | dict _ _ _ => cases h
    | array _ _ _ => cases h
  | @dict n id hash cs hnd hnl hcs ih =>
    cases v with
    | leaf _ _ _ => cases h
    | array _ _ _ => cases h
    | dict id' h' cs' =>
      have hmap : cs.map Var.shown = cs'.map Var.shown := by
        simpa [Var.shown, Var.shownAll_eq_map] using (Var.dict.inj h).2.2
      have hids : cs'.map Var.id = cs.map Var.id := by
        have hid : Var.id ∘ Var.shown = Var.id := funext Var.id_shown
        have h := congrArg (List.map Var.id) hmap
        rw [List.map_map, List.map_map, hid] at h
        exact h.symm
      have hmem {c' : Var} (hc' : c' ∈ cs') : ∃ c ∈ cs, c.shown = c'.shown :=
        List.mem_map.mp (hmap ▸ List.mem_map_of_mem hc')
      refine .dict (hids ▸ hnd) ?_ ?_
      · intro c' hc'
        obtain ⟨c, hc, heq⟩ := hmem hc'
        rw [← Var.id_shown, ← heq, Var.id_shown]
        exact hnl c hc
      · intro c' hc'
        obtain ⟨c, hc, heq⟩ := hmem hc'
        exact ih c hc heq
  | @array n id hash cs hcs ih =>
    cases v with
    | leaf _ _ _ => cases h
    | dict _ _ _ => cases h
    | array id' h' cs' =>
      have hmap : cs.map Var.shown = cs'.map Var.shown := by
        simpa [Var.shown, Var.shownAll_eq_map] using (Var.array.inj h).2.2
      refine .array ?_
      intro c' hc'
      obtain ⟨c, hc, heq⟩ := List.mem_map.mp (hmap ▸ List.mem_map_of_mem hc')
      exact ih c hc heq

theorem rereadKey_eq {id : FString} (h : 10 ∉ id.str) : rereadKey id = id := by
  apply FString.ext
  have hmap : id.str.map keyChar = id.str.map fun c => c := by
    apply List.map_congr_left
    intro c hc
    have h10 : c ≠ 10 := fun h10 => h (h10 ▸ hc)
    simp [keyChar, h10]
  simpa [rereadKey] using hmap

theorem newline_rereadKey (id : FString) : 10 ∉ (rereadKey id).str := by
  simp only [rereadKey, List.mem_map]
  rintro ⟨c, -, hc⟩
  unfold keyChar at hc
  split at hc
  · cases hc
  · exact absurd hc ‹_›

section Fresh

/-- A key that is not among the children's yet is linked behind them. -/
theorem ForkeyResult.fresh {key : FString} {make : FString → BitVec 32 → Var} {id : FString}
    {h : BitVec 32} {cs : List Var} {r : Var × Option Nat × Var}
    (hr : ForkeyResult ihash key.str make id h cs r) (hne : key.str ≠ [])
    (hfresh : ∀ c ∈ cs, c.id ≠ key) :
    ∃ cs', cs'.map Var.shown = cs.map Var.shown ∧
      r = (.dict id h (cs' ++ [make key (hashToken ihash key.str)]), some cs'.length,
        make key (hashToken ihash key.str)) := by
  cases hr with
  | found _ _ hmem hkey => exact absurd (FString.ext hkey) (hfresh _ hmem)
  | orphan _ hkey => exact absurd (by rwa [FString.strncpy_str] at hkey) hne
  | @linked cs' i hcs _ _ hi =>
    subst hi
    rw [FString.strncpy_str]
    exact ⟨cs', map_shown_rehashed hcs, rfl⟩

/-- Whether a child can be added to a dict, or to an array, and be found there again. -/
def Var.Fresh (kind : Bool) (cs : List Var) (id : FString) : Prop :=
  if kind then id.str ≠ [] ∧ 10 ∉ id.str ∧ ∀ c ∈ cs, c.id ≠ id else id = FString.empty

theorem put_last (kind : Bool) (id : FString) (h : BitVec 32) (cs : List Var) (c vv : Var) :
    (Var.node kind id h (cs ++ [c])).put (some cs.length) vv = Var.node kind id h (cs ++ [vv]) := by
  cases kind <;>
    simp only [Var.node, Var.put, List.set_append_right _ _ (Nat.le_refl _), Nat.sub_self,
      List.set_cons_zero, if_true, if_false, Bool.false_eq_true]

variable (ihash) in
theorem storeIn_fresh {kind : Bool} {as : List Var} {key : FString} (hf : Var.Fresh kind as key)
    (id : FString) (h : BitVec 32) (val : VarValue) :
    ∃ as' c, as'.map Var.shown = as.map Var.shown ∧ c.shown = .leaf key 0 val.shown ∧
      storeIn ihash kind (Var.node kind id h as) (rereadKey key).str val =
        Var.node kind id h (as' ++ [c]) := by
  cases kind with
  | false =>
    obtain rfl : key = FString.empty := by simpa [Var.Fresh] using hf
    exact ⟨as, varAlloc val, rfl, rfl, varAdd_array id h as val⟩
  | true =>
    obtain ⟨hne, hnl, hnew⟩ := hf
    obtain ⟨as', has, hr⟩ :=
      ForkeyResult.fresh (varGetOrMake_dict ihash key.str id h as) hne hnew
    refine ⟨as', .leaf key (hashToken ihash key.str) val, has, rfl, ?_⟩
    rw [rereadKey_eq hnl]
    change varSetForkey ihash (.dict id h as) key.str val = _
    rw [varSetForkey, hr]
    exact put_last true id h as' _ _

variable (ihash) in
theorem openIn_fresh {kind : Bool} {as : List Var} {key : FString} (hf : Var.Fresh kind as key)
    (id : FString) (h : BitVec 32) (kind' : Bool) :
    ∃ as' h', as'.map Var.shown = as.map Var.shown ∧
      openIn ihash kind (Var.node kind id h as) (rereadKey key).str kind' =
        (Var.node kind id h (as' ++ [Var.node kind' key h' []]),
          some (some as'.length, Var.node kind' key h' [])) := by
  have hclear (h' : BitVec 32) :
      (if kind' then Var.node kind' key h' [] else varClearArray (Var.node kind' key h' [])) =
        Var.node kind' key h' [] := by
    cases kind' <;> rfl
  have hnode (h' : BitVec 32) : (Var.node kind' key h' []).isNode kind' = true := by
    cases kind' <;> rfl
  cases kind with
  | false =>
    obtain rfl : key = FString.empty := by simpa [Var.Fresh] using hf
    refine ⟨as, 0, rfl, ?_⟩
    simp only [openIn, Bool.false_eq_true, if_false]
    rw [show Var.node false id h as = .array id h as from rfl, varAddNode_array]
    simp only [Option.map_some, hclear]
    rfl
  | true =>
    obtain ⟨hne, hnl, hnew⟩ := hf
    obtain ⟨as', has, hr⟩ := ForkeyResult.fresh
      (varForkey_dict ihash key.str (fun _ _ => Var.id_node kind' _ _ [])
        (fun _ _ => Var.hashcode_node kind' _ _ []) id h as) hne hnew
    refine ⟨as', hashToken ihash key.str, has, ?_⟩
    rw [rereadKey_eq hnl]
    simp only [openIn, if_true]
    rw [show Var.node true id h as = .dict id h as from rfl, varGetNodeForkey, hr]
    simp only [hnode, if_true, Option.map_some, hclear]
    rfl

end Fresh

theorem rereadItem_node (dict : Bool) (depth : Nat) (v : Var) (kind : Bool) (id : FString)
    (h : BitVec 32) (cs : List Var) :
    rereadItem ihash dict depth v (Var.node kind id h cs) =
      match openIn ihash dict v (rereadKey id).str kind with
      | (_, none) => none
      | (v, some (place, vv)) =>
        if default_max_json_depth < depth + 1 then none
        else (rereadItems ihash kind (depth + 1) vv cs).map fun vv => v.put place vv := by
  cases kind <;> rfl

section Stored

/-- Reading the child back adds it behind the children that are there. -/
def ReadBack (ihash : BitVec 32) (c : Var) : Prop :=
  ∀ n kind depth id h as, c.Plain n → depth + n ≤ default_max_json_depth →
    Var.Fresh kind as c.id → ∃ bs, bs.map Var.shown = as.map Var.shown ++ [c.shown] ∧
      rereadItem ihash kind depth (Var.node kind id h as) c = some (Var.node kind id h bs)

theorem rereadItems_readBack {cs : List Var} (hcs : ∀ c ∈ cs, ReadBack ihash c) {n : Nat}
    (hp : ∀ c ∈ cs, c.Plain n) (kind : Bool) (depth : Nat)
    (hd : depth + n ≤ default_max_json_depth) (id : FString) (h : BitVec 32) (as : List Var)
    (hfresh : ∀ c ∈ cs, Var.Fresh kind as c.id)
    (hnd : kind = true → (cs.map Var.id).Nodup) :
    ∃ bs, bs.map Var.shown = as.map Var.shown ++ cs.map Var.shown ∧
      rereadItems ihash kind depth (Var.node kind id h as) cs = some (Var.node kind id h bs) := by
  induction cs generalizing as with
  | nil => exact ⟨as, by simp, rfl⟩
  | cons c cs ih =>
    obtain ⟨bs, hbs, hread⟩ := hcs c List.mem_cons_self n kind depth id h as
      (hp c List.mem_cons_self) hd (hfresh c List.mem_cons_self)
    have hids : bs.map Var.id = as.map Var.id ++ [c.id] := by
      have hid : Var.id ∘ Var.shown = Var.id := funext Var.id_shown
      have h := congrArg (List.map Var.id) hbs
      simpa [List.map_map, hid] using h
    have hfresh' : ∀ x ∈ cs, Var.Fresh kind bs x.id := by
      intro x hx
      have hf := hfresh x (List.mem_cons_of_mem c hx)
      cases kind with
      | false => exact hf
      | true =>
        obtain ⟨hne, hnl, hnew⟩ := hf
        refine ⟨hne, hnl, ?_⟩
        intro b hb hbx
        have hmem : x.id ∈ as.map Var.id ++ [c.id] := hids ▸ hbx ▸ List.mem_map_of_mem hb
        obtain hmem | hmem := List.mem_append.mp hmem
        · obtain ⟨a, ha, hax⟩ := List.mem_map.mp hmem
          exact hnew a ha hax
        · have hnd := hnd rfl
          rw [List.map_cons, List.nodup_cons] at hnd
          exact hnd.1 (List.mem_singleton.mp hmem ▸ List.mem_map_of_mem hx)
    obtain ⟨bs', hbs', hread'⟩ := ih (fun x hx => hcs x (List.mem_cons_of_mem c hx))
      (fun x hx => hp x (List.mem_cons_of_mem c hx)) bs hfresh'
      (fun hk => (List.nodup_cons.mp (by simpa using hnd hk)).2)
    refine ⟨bs', by rw [hbs', hbs]; simp, ?_⟩
    rw [rereadItems, hread]
    exact hread'

/-- The same for a dict or an array, from what holds of its children. -/
theorem readBack_node {cs : List Var} (hcs : ∀ c ∈ cs, ReadBack ihash c) (kind' : Bool)
    (key : FString) (hash : BitVec 32)
    (hfresh : ∀ n, (Var.node kind' key hash cs).Plain (n + 1) →
      (∀ c ∈ cs, c.Plain n) ∧ (∀ c ∈ cs, Var.Fresh kind' [] c.id) ∧
        (kind' = true → (cs.map Var.id).Nodup))
    (hpos : ∀ n, (Var.node kind' key hash cs).Plain n → ∃ m, n = m + 1) :
    ReadBack ihash (Var.node kind' key hash cs) := by
  intro n kind depth id h as hp hd hf
  obtain ⟨m, rfl⟩ := hpos n hp
  obtain ⟨hplain, hfr, hnd⟩ := hfresh m hp
  rw [Var.id_node] at hf
  obtain ⟨as', h', has, hopen⟩ := openIn_fresh ihash hf id h kind'
  obtain ⟨bs, hbs, hread⟩ := rereadItems_readBack hcs hplain kind' (depth + 1) (by omega) key h' []
    hfr hnd
  refine ⟨as' ++ [Var.node kind' key h' bs], ?_, ?_⟩
  · simp [has, hbs]
  · have hdepth : ¬ default_max_json_depth < depth + 1 := by omega
    rw [rereadItem_node, hopen]
    simp only [if_neg hdepth, hread, Option.map_some, put_last]

theorem Var.Formed.readBack {c : Var} (hc : c.Formed) : ReadBack ihash c := by
  induction hc with
  | @leaf key hash val hval =>
    intro n kind depth id h as _ _ hf
    obtain ⟨as', c, has, hshown, hstore⟩ := storeIn_fresh ihash hf id h val.reread
    refine ⟨as' ++ [c], ?_, ?_⟩
    · simp [has, hshown, hval.shown_reread, Var.shown, Var.id]
    · rw [rereadItem]
      exact congrArg some hstore
  | @dict key hash cs hne _ ih =>
    apply readBack_node ih true
    · intro n hp
      cases hp with
      | dict hnd hnl hcs => exact ⟨hcs, fun c hc => ⟨hne c hc, hnl c hc, by simp⟩, fun _ => hnd⟩
    · intro n hp
      cases hp
      exact ⟨_, rfl⟩
  | @array key hash cs hne _ ih =>
    apply readBack_node ih false
    · intro n hp
      cases hp with
      | array hcs => exact ⟨hcs, fun c hc => FString.ext (hne c hc), by simp⟩
    · intro n hp
      cases hp
      exact ⟨_, rfl⟩

end Stored

section Tidy

/-- What the parser makes of a written tree: a plain one, with the hash of every key. -/
inductive Var.Tidy (ihash : BitVec 32) : Nat → Var → Prop
  | leaf {n : Nat} {id : FString} {h : BitVec 32} {val : VarValue} : Tidy ihash n (.leaf id h val)
  | dict {n : Nat} {id : FString} {h : BitVec 32} {cs : List Var} : (cs.map Var.id).Nodup →
      (∀ c ∈ cs, 10 ∉ c.id.str) → (∀ c ∈ cs, c.hashcode = hashToken ihash c.id.str) →
      (∀ c ∈ cs, c.Tidy ihash n) → Tidy ihash (n + 1) (.dict id h cs)
  | array {n : Nat} {id : FString} {h : BitVec 32} {cs : List Var} :
      (∀ c ∈ cs, c.Tidy ihash n) → Tidy ihash (n + 1) (.array id h cs)

theorem Var.Tidy.plain {n : Nat} {v : Var} (h : v.Tidy ihash n) : v.Plain n := by
  induction h with
  | leaf => exact .leaf
  | dict hnd hnl _ _ ih => exact .dict hnd hnl ih
  | array _ ih => exact .array ih

theorem Var.Tidy.node_nil (n : Nat) (kind : Bool) (id : FString) (h : BitVec 32) :
    (Var.node kind id h []).Tidy ihash (n + 1) := by
  cases kind
  · exact .array (by simp)
  · exact .dict (by simp) (by simp) (by simp) (by simp)

theorem Var.Tidy.of_dict {n : Nat} {id : FString} {h : BitVec 32} {cs : List Var}
    (hv : (Var.dict id h cs).Tidy ihash (n + 1)) : (cs.map Var.id).Nodup ∧
      (∀ c ∈ cs, 10 ∉ c.id.str) ∧ (∀ c ∈ cs, c.hashcode = hashToken ihash c.id.str) ∧
      ∀ c ∈ cs, c.Tidy ihash n := by
  cases hv with
  | dict h₁ h₂ h₃ h₄ => exact ⟨h₁, h₂, h₃, h₄⟩

theorem Var.Tidy.of_array {n : Nat} {id : FString} {h : BitVec 32} {cs : List Var}
    (hv : (Var.array id h cs).Tidy ihash (n + 1)) : ∀ c ∈ cs, c.Tidy ihash n := by
  cases hv with
  | array h => exact h

theorem varSet_tidy {n : Nat} {v : Var} (hv : v.Tidy ihash n) (val : VarValue) :
    (varSet v val).Tidy ihash n ∧ (varSet v val).id = v.id ∧
      (varSet v val).hashcode = v.hashcode := by
  cases hv with
  | leaf =>
    rename_i id h old
    cases old <;> cases val <;> exact ⟨.leaf, rfl, rfl⟩
  | dict h₁ h₂ h₃ h₄ => exact ⟨.dict h₁ h₂ h₃ h₄, rfl, rfl⟩
  | array h₁ => exact ⟨.array h₁, rfl, rfl⟩

theorem forall_mem_append_singleton {P : Var → Prop} {cs : List Var} {c : Var}
    (h : ∀ x ∈ cs, P x) (hc : P c) : ∀ x ∈ cs ++ [c], P x := by
  intro x hx
  obtain hx | hx := List.mem_append.mp hx
  · exact h x hx
  · exact List.mem_singleton.mp hx ▸ hc

/-- A child of a tidy dict is found by its key, or there is none: the one that takes its
place may be anything tidy. -/
theorem ForkeyResult.tidy {n : Nat} {key : FString} {make : FString → BitVec 32 → Var} {id : FString}
    {h : BitVec 32} {cs : List Var} {r : Var × Option Nat × Var}
    (hr : ForkeyResult ihash (rereadKey key).str make id h cs r)
    (hcs : (Var.dict id h cs).Tidy ihash (n + 1)) (hid : ∀ i h, (make i h).id = i)
    (hhash : ∀ i h, (make i h).hashcode = h) {vv : Var} (hvv : vv.Tidy ihash n)
    (hvid : vv.id = r.2.2.id) (hvh : vv.hashcode = r.2.2.hashcode) :
    ∃ bs, r.1.put r.2.1 vv = .dict id h bs ∧ (Var.dict id h bs).Tidy ihash (n + 1) := by
  obtain ⟨hnd, hnl, hhs, htidy⟩ := hcs.of_dict
  cases hr with
  | @found cs' i res hre hget hmem hkey =>
    obtain rfl := Var.Rehashed.eq_of_hashed hre hhs
    obtain ⟨hi, rfl⟩ := List.getElem?_eq_some_iff.mp hget
    have hall {P : Var → Prop} (h : ∀ c ∈ cs', P c) (hv : P vv) : ∀ c ∈ cs'.set i vv, P c := by
      intro c hc
      obtain hc | rfl := List.mem_or_eq_of_mem_set hc
      · exact h c hc
      · exact hv
    refine ⟨cs'.set i vv, rfl, .dict ?_ (hall hnl ?_) (hall hhs ?_) (hall htidy hvv)⟩
    · have hmap : (cs'.set i vv).map Var.id = cs'.map Var.id := by
        rw [List.map_set, hvid, ← List.map_set]
        exact congrArg _ (List.set_getElem_self hi)
      rwa [hmap]
    · rw [hvid]
      exact hnl _ hmem
    · rw [hvh, hvid]
      exact hhs _ hmem
  | @linked cs' i hre hnone hne hi =>
    obtain rfl := Var.Rehashed.eq_of_hashed hre hhs
    subst hi
    rw [FString.strncpy_str] at hvid hvh hne ⊢
    have hvid : vv.id = rereadKey key := hvid.trans (hid _ _)
    have hvh : vv.hashcode = hashToken ihash (rereadKey key).str := hvh.trans (hhash _ _)
    have hnew : rereadKey key ∉ cs'.map Var.id := by
      rw [List.mem_map]
      rintro ⟨c, hc, hck⟩
      refine hnone c hc (.inr ?_) (congrArg FString.str hck)
      rw [hhs c hc, hck]
    refine ⟨cs' ++ [vv], put_last true id h cs' _ vv, .dict ?_ ?_ ?_ ?_⟩
    · rw [List.map_append, List.map_cons, List.map_nil, hvid]
      exact List.nodup_append.mpr ⟨hnd, by simp, by
        intro a ha b hb hab
        rw [List.mem_singleton.mp hb] at hab
        exact hnew (hab ▸ ha)⟩
    · exact forall_mem_append_singleton hnl (hvid ▸ newline_rereadKey key)
    · exact forall_mem_append_singleton hhs (by rw [hvh, hvid])
    · exact forall_mem_append_singleton htidy hvv
  | @orphan cs' hre _ =>
    obtain rfl := Var.Rehashed.eq_of_hashed hre hhs
    exact ⟨cs', rfl, .dict hnd hnl hhs htidy⟩

theorem storeIn_tidy {n : Nat} {kind : Bool} {id : FString} {h : BitVec 32} {as : List Var}
    (has : (Var.node kind id h as).Tidy ihash (n + 1)) (key : FString) (val : VarValue) :
    ∃ bs, storeIn ihash kind (Var.node kind id h as) (rereadKey key).str val = Var.node kind id h bs ∧
      (Var.node kind id h bs).Tidy ihash (n + 1) := by
  cases kind with
  | false =>
    refine ⟨as ++ [varAlloc val], varAdd_array id h as val, ?_⟩
    exact .array (forall_mem_append_singleton (Var.Tidy.of_array has) .leaf)
  | true =>
    have hr := varGetOrMake_dict ihash (rereadKey key).str id h as
    have hset := varSet_tidy (hr.child (Var.Tidy.of_dict has).2.2.2 fun _ _ => .leaf) val
    exact hr.tidy has (fun _ _ => rfl) (fun _ _ => rfl) hset.1 hset.2.1 hset.2.2

theorem Var.eq_node_of_isNode {kind : Bool} {v : Var} (h : v.isNode kind = true) :
    ∃ id hash cs, v = Var.node kind id hash cs := by
  cases v with
  | leaf _ _ _ => cases h
  | dict id hash cs =>
    obtain rfl : kind = true := h
    exact ⟨id, hash, cs, rfl⟩
  | array id hash cs =>
    obtain rfl : kind = false := by simpa [Var.isNode] using h
    exact ⟨id, hash, cs, rfl⟩

theorem openIn_tidy {n : Nat} {kind kind' : Bool} {id : FString} {h : BitVec 32} {as : List Var}
    (has : (Var.node kind id h as).Tidy ihash (n + 2)) {key : FString} {v vv : Var}
    {place : Option Nat}
    (hopen : openIn ihash kind (Var.node kind id h as) (rereadKey key).str kind' =
      (v, some (place, vv))) :
    ∃ id' h' vs, vv = Var.node kind' id' h' vs ∧ vv.Tidy ihash (n + 1) ∧
      ∀ vs', (Var.node kind' id' h' vs').Tidy ihash (n + 1) →
        ∃ bs, v.put place (Var.node kind' id' h' vs') = Var.node kind id h bs ∧
          (Var.node kind id h bs).Tidy ihash (n + 2) := by
  cases kind with
  | false =>
    rw [show Var.node false id h as = .array id h as from rfl] at hopen
    simp only [openIn, Bool.false_eq_true, if_false, varAddNode_array, Option.map_some] at hopen
    obtain ⟨rfl, hsome⟩ := Prod.mk.inj hopen
    obtain ⟨rfl, rfl⟩ := Prod.mk.inj (Option.some.inj hsome)
    have hclear : (if kind' then Var.node kind' FString.empty 0 [] else
        varClearArray (Var.node kind' FString.empty 0 [])) = Var.node kind' FString.empty 0 [] := by
      cases kind' <;> rfl
    refine ⟨FString.empty, 0, [], hclear, by rw [hclear]; exact .node_nil n kind' _ _, ?_⟩
    intro vs' hvs'
    exact ⟨_, put_last false id h as _ _,
      .array (forall_mem_append_singleton (Var.Tidy.of_array has) hvs')⟩
  | true =>
    have hr := varForkey_dict ihash (rereadKey key).str (fun _ _ => Var.id_node kind' _ _ [])
      (fun _ _ => Var.hashcode_node kind' _ _ []) id h as
    have hchild := hr.child (Var.Tidy.of_dict has).2.2.2 fun _ _ => Var.Tidy.node_nil n kind' _ _
    have hput {w : Var} (hw : w.Tidy ihash (n + 1)) := hr.tidy has
      (fun _ _ => Var.id_node kind' _ _ []) (fun _ _ => Var.hashcode_node kind' _ _ []) hw
    rw [show Var.node true id h as = .dict id h as from rfl] at hopen
    simp only [openIn, if_true, varGetNodeForkey] at hopen
    generalize varForkey ihash (.dict id h as) (rereadKey key).str _ = r at hopen hchild hput
    split at hopen
    · rename_i hnode
      obtain ⟨rfl, hsome⟩ := Prod.mk.inj hopen
      obtain ⟨rfl, rfl⟩ := Prod.mk.inj (Option.some.inj hsome)
      obtain ⟨id', h', vs, hres⟩ := Var.eq_node_of_isNode hnode
      have hback (vs' : List Var) (hvs' : (Var.node kind' id' h' vs').Tidy ihash (n + 1)) :=
        hput hvs' (by rw [hres, Var.id_node, Var.id_node])
          (by rw [hres, Var.hashcode_node, Var.hashcode_node])
      cases kind' with
      | true => exact ⟨id', h', vs, hres, hchild, hback⟩
      | false => exact ⟨id', h', [], by rw [hres]; rfl, by rw [hres]; exact .array (by simp), hback⟩
    · simp at hopen

/-- What `rereadItem` makes of a tidy var is tidy. -/
def KeepsTidy (ihash : BitVec 32) (c : Var) : Prop :=
  ∀ n kind depth id h as w, (Var.node kind id h as).Tidy ihash (n + 1) →
    depth + n = default_max_json_depth →
    rereadItem ihash kind depth (Var.node kind id h as) c = some w →
      ∃ bs, w = Var.node kind id h bs ∧ w.Tidy ihash (n + 1)

theorem rereadItems_tidy {cs : List Var} (hcs : ∀ c ∈ cs, KeepsTidy ihash c) {n : Nat} (kind : Bool)
    {depth : Nat} {id : FString} {h : BitVec 32} {as : List Var} {w : Var}
    (has : (Var.node kind id h as).Tidy ihash (n + 1)) (hd : depth + n = default_max_json_depth)
    (hread : rereadItems ihash kind depth (Var.node kind id h as) cs = some w) :
    ∃ bs, w = Var.node kind id h bs ∧ w.Tidy ihash (n + 1) := by
  induction cs generalizing as with
  | nil =>
    obtain rfl := Option.some.inj hread
    exact ⟨as, rfl, has⟩
  | cons c cs ih =>
    rw [rereadItems] at hread
    obtain ⟨v, hv, hread⟩ := Option.bind_eq_some_iff.mp hread
    obtain ⟨bs, rfl, hbs⟩ := hcs c List.mem_cons_self n kind depth id h as v has hd hv
    exact ih (fun x hx => hcs x (List.mem_cons_of_mem c hx)) hbs hread

theorem keepsTidy_node {cs : List Var} (hcs : ∀ c ∈ cs, KeepsTidy ihash c) (kind' : Bool)
    (key : FString) (hash : BitVec 32) : KeepsTidy ihash (Var.node kind' key hash cs) := by
  intro n kind depth id h as w has hd hread
  rw [rereadItem_node] at hread
  split at hread
  · cases hread
  · rename_i v place vv hopen
    split at hread
    · cases hread
    · obtain ⟨m, rfl⟩ : ∃ m, n = m + 1 := ⟨n - 1, by omega⟩
      obtain ⟨vv', hvv', rfl⟩ := Option.map_eq_some_iff.mp hread
      obtain ⟨id', h', vs, rfl, hvv, hput⟩ := openIn_tidy has hopen
      obtain ⟨vs', rfl, htidy⟩ := rereadItems_tidy hcs kind' hvv (by omega) hvv'
      obtain ⟨bs, hbs, htidy'⟩ := hput vs' htidy
      exact ⟨bs, hbs, hbs ▸ htidy'⟩

theorem Var.Formed.keepsTidy {c : Var} (hc : c.Formed) : KeepsTidy ihash c := by
  induction hc with
  | @leaf key hash val _ =>
    intro n kind depth id h as w has _ hread
    obtain ⟨bs, hbs, htidy⟩ := storeIn_tidy has key val.reread
    obtain rfl := Option.some.inj hread
    exact ⟨bs, hbs, hbs ▸ htidy⟩
  | @dict key hash cs _ _ ih => exact keepsTidy_node ih true key hash
  | @array key hash cs _ _ ih => exact keepsTidy_node ih false key hash

end Tidy

section Document

/-- The memory a C string starts in, up to the first terminator. -/
def CString.ofBytes (bytes : List UInt8) : CString where
  bytes := bytes.takeWhile (· != 0)
  nonul h := by simpa using List.mem_takeWhile_imp h

theorem CString.ofBytes_bytes {bytes : List UInt8} (h : 0 ∉ bytes) :
    (CString.ofBytes bytes).bytes = bytes := by
  apply List.takeWhile_eq_self_iff.mpr
  intro c hc
  have h0 : c ≠ 0 := fun h0 => h (h0 ▸ hc)
  simpa using h0

theorem nul_varEscapeStr {str : List UInt8} (h : 0 ∉ str) : 0 ∉ varEscapeStr str := by
  induction str with
  | nil => exact h
  | cons c cs ih =>
    obtain ⟨hc, hcs⟩ := not_or.mp (mt List.mem_cons.mpr h)
    have ih := ih hcs
    simp only [varEscapeStr]
    split_ifs <;> simp [ih, hc]

theorem nul_keyText (dict : Bool) (id : FString) : 0 ∉ (if dict then keyText id else []) := by
  have hid := nul_varEscapeStr id.nonul
  cases dict with
  | false => simp
  | true =>
    simp only [keyText, if_true, List.mem_append, not_or]
    exact ⟨⟨by decide, hid⟩, by decide⟩

theorem digits_ne_zero : ∀ c ∈ asc "0123456789", c ≠ 0 := by decide +kernel

theorem nul_valueText {val : VarValue} (h : val.Formed) : 0 ∉ valueText val := by
  have hw (n : Nat) : 0 ∉ Decimal.write n := fun h0 => digits_ne_zero 0 (Decimal.mem_write h0) rfl
  have hp (n : Nat) : 0 ∉ Decimal.pad 6 (Decimal.write n) := fun h0 =>
    digits_ne_zero 0 (Decimal.mem_pad (fun c hc => Decimal.mem_write hc) h0) rfl
  cases val with
  | null => exact h.elim
  | int ival => exact hw _
  | double dval =>
    simp only [valueText, Decimal.writeFixed, List.mem_append, not_or]
    exact ⟨⟨hw _, by decide⟩, hp _⟩
  | str sval =>
    simp only [valueText, List.mem_append, not_or]
    exact ⟨⟨by decide, nul_varEscapeStr h⟩, by decide⟩

theorem nul_itemsText {cs : List Var} {dict : Bool} {indent : Nat}
    (h : ∀ c ∈ cs, 0 ∉ itemText dict indent c) : 0 ∉ itemsText dict indent cs := by
  induction cs with
  | nil => simp [itemsText]
  | cons c cs ih =>
    have hsep : 0 ∉ (if cs = [] then asc "\n" else asc ",\n") := by split <;> decide
    simp only [itemsText, List.mem_append, not_or]
    exact ⟨⟨⟨by simp [spaces], h c List.mem_cons_self⟩, hsep⟩,
      ih fun x hx => h x (List.mem_cons_of_mem c hx)⟩

theorem Var.Formed.nul_itemText {c : Var} (hc : c.Formed) (dict : Bool) (indent : Nat) :
    0 ∉ itemText dict indent c := by
  induction hc generalizing dict indent with
  | leaf hval =>
    simp only [itemText, List.mem_append, not_or]
    exact ⟨nul_keyText dict _, nul_valueText hval⟩
  | dict _ _ ih =>
    simp only [itemText, List.mem_append, not_or]
    exact ⟨⟨⟨⟨nul_keyText dict _, by decide⟩, nul_itemsText fun c hc => ih c hc _ _⟩, by simp [spaces]⟩,
      by decide⟩
  | array _ _ ih =>
    simp only [itemText, List.mem_append, not_or]
    exact ⟨⟨⟨⟨nul_keyText dict _, by decide⟩, nul_itemsText fun c hc => ih c hc _ _⟩, by simp [spaces]⟩,
      by decide⟩

/-- A tree that holds no vars is written as an empty document. -/
theorem Var.Content.documentText {v : Var} (hv : v.Content true) :
    documentText v = asc "\x7b\n" ++ itemsText true 4 v.children ++ asc "\x7d\n" := by
  cases hv <;> rfl

theorem Var.Content.children_formed {v : Var} (hv : v.Content true) : ∀ c ∈ v.children, c.Formed := by
  cases hv with
  | null => simp [Var.children]
  | dict hf => exact hf.child

theorem Var.Printable.children {v : Var} (hv : v.Printable) : ∀ c ∈ v.children, c.Printable := by
  cases hv with
  | leaf _ => simp [Var.children]
  | dict h => exact h
  | array h => exact h

variable (ihash) in
/-- The text of a tree that is parsed into an unset var. -/
theorem reading_documentText {v : Var} (hv : v.Content true) (hp : v.Printable) :
    (reading ihash (varAlloc .null) (documentText v)).finish.bind
        (fun p => if p.1 then some p.2 else none) =
      rereadItems ihash true 0 (varAlloc .null) v.children := by
  let f : Frame := { Frame.start (varAlloc .null) .beginning with st := .dictWaitkey }
  have hopen : Reading.read ihash (Reading.start (varAlloc .null)) 123 = .run f false [] :=
    read_next rfl
  have hitems := reads_items ihash (fun c hc => (hp.children c hc).readsAs) true 4
    (f := f) rfl []
  rw [hv.documentText, reading, Reading.reads_append, Reading.reads_append,
    show asc "\x7b\n" = [123, 10] from rfl, show asc "\x7d\n" = [125, 10] from rfl]
  simp only [Reading.reads_cons, Reading.reads_nil, hopen, read_next (levelStep_wait (f := f)
    (show f.st = waitSt true from rfl) (.inr (.inl rfl)))]
  change Arrives _ _ _ (rereadItems ihash true 0 (varAlloc .null) v.children) at hitems
  cases hres : rereadItems ihash true 0 (varAlloc .null) v.children with
  | none =>
    rw [hres] at hitems
    obtain ⟨w, hw⟩ := hitems
    rw [hw]
    rfl
  | some w =>
    rw [hres] at hitems
    obtain ⟨g, hg, hst, rfl⟩ := hitems
    have hclose := levelStep_close ihash hst
    rw [if_pos rfl] at hclose
    rw [hg, Reading.read, hclose]
    rfl

/-- Parsing the text that was written for the tree succeeds and gives the same tree. -/
def Var.RoundTrips (ihash : BitVec 32) (v : Var) : Prop :=
  ∃ w error line,
    varParseJson ihash (varAlloc .null) (.ofBytes (varDump v).2) = .returned true w error line ∧
      w.shown = v.shown

theorem Var.Content.nul_documentText {v : Var} (hv : v.Content true) : 0 ∉ Opticon.documentText v := by
  rw [hv.documentText]
  simp only [List.mem_append, not_or]
  exact ⟨⟨by decide, nul_itemsText fun c hc => (hv.children_formed c hc).nul_itemText true 4⟩,
    by decide⟩

theorem Var.Content.roundTrips_iff_reread {v : Var} (hv : v.Content true) (hp : v.Printable) :
    v.RoundTrips ihash ↔
      ∃ w, rereadItems ihash true 0 (varAlloc .null) v.children = some w ∧ w.shown = v.shown := by
  have hdump : (CString.ofBytes (varDump v).2).bytes = Opticon.documentText v := by
    rw [varDump_eq hp, CString.ofBytes_bytes hv.nul_documentText]
  have hread := reading_documentText ihash hv hp
  have hparse := varParseJson_finish ihash (varAlloc .null) (.ofBytes (varDump v).2)
  rw [hdump] at hparse
  rw [← hread]
  constructor
  · rintro ⟨w, error, line, hw, hshown⟩
    have hfin := varParseJson_returned_finish hw
    rw [hdump] at hfin
    exact ⟨w, by simp [hfin], hshown⟩
  · rintro ⟨w, hw, hshown⟩
    obtain ⟨⟨res, w'⟩, hfin, hres⟩ := Option.bind_eq_some_iff.mp hw
    rw [hfin] at hparse
    obtain ⟨error, line, hparse⟩ := hparse
    simp only at hres
    split at hres
    · rename_i htrue
      obtain rfl := Option.some.inj hres
      subst htrue
      exact ⟨w', error, line, hparse, hshown⟩
    · cases hres

/-- Reading into an unset var is reading into an empty dict, if there is anything to read. -/
theorem rereadItems_null (c : Var) (cs : List Var) :
    rereadItems ihash true 0 (varAlloc .null) (c :: cs) =
      rereadItems ihash true 0 (.dict FString.empty 0 []) (c :: cs) := by
  cases c <;> rfl

theorem Var.Content.roundTrips_iff {v : Var} (hv : v.Content true) (hid : v.id = FString.empty)
    (hp : v.Printable) : v.RoundTrips ihash ↔ v.Storable := by
  rw [hv.roundTrips_iff_reread hp]
  cases hv with
  | @null id h =>
    obtain rfl : id = FString.empty := hid
    exact ⟨fun _ => ⟨.inl trivial, .leaf⟩, fun _ => ⟨varAlloc .null, rfl, rfl⟩⟩
  | @dict id h cs hf =>
    obtain rfl : id = FString.empty := hid
    cases cs with
    | nil =>
      constructor
      · rintro ⟨w, hw, hshown⟩
        obtain rfl := Option.some.inj hw
        cases hshown
      · rintro ⟨hleaf | hne, -⟩
        · exact hleaf.elim
        · exact absurd rfl hne
    | cons c cs =>
      rw [show (Var.dict FString.empty h (c :: cs)).children = c :: cs from rfl, rereadItems_null]
      constructor
      · rintro ⟨w, hw, hshown⟩
        obtain ⟨bs, rfl, htidy⟩ := rereadItems_tidy (n := default_max_json_depth)
          (fun x hx => (hf.child x hx).keepsTidy) true (Var.Tidy.node_nil _ true _ _) rfl hw
        exact ⟨.inr (by simp [Var.children]), htidy.plain.of_shown hshown⟩
      · rintro ⟨-, hplain⟩
        cases hplain with
        | dict hnd hnl hcs =>
          obtain ⟨bs, hbs, hread⟩ := rereadItems_readBack
            (fun x hx => (hf.child x hx).readBack) hcs true 0 (Nat.le_refl _) FString.empty 0 []
            (fun x hx => ⟨by cases hf with | dict hne _ => exact hne x hx, hnl x hx, by simp⟩)
            (fun _ => hnd)
          refine ⟨_, hread, ?_⟩
          rw [Var.shown_node, hbs]
          simp [Var.node, Var.shown, Var.shownAll_eq_map]

/-- Of the trees that the parser makes out of an unset var and whose values fit the buffer
they are formatted in, those survive being written and parsed that can be stored. -/
theorem parsed_roundTrips_iff (ihash ihash' : BitVec 32) (buf : CString) {res : Bool} {v : Var}
    {error : Option (List UInt8)} {line : Nat}
    (h : varParseJson ihash (varAlloc .null) buf = .returned res v error line) (hp : v.Printable) :
    v.RoundTrips ihash' ↔ v.Storable := by
  obtain ⟨hv, hid⟩ := varParseJson_formed h
  exact hv.roundTrips_iff hid hp

def oneKeyTree (key : FString) : Var :=
  .dict FString.empty 0 [.leaf key (hashToken 5138 key.str) (.int 1)]

theorem oneKeyTree_printable (key : FString) : (oneKeyTree key).Printable := by
  apply Var.Printable.dict
  intro c hc
  obtain rfl := List.mem_singleton.mp hc
  apply Var.Printable.leaf
  have h : Decimal.write 1 = [49] := by simp [Decimal.write, Decimal.digit]
  rw [show valueText (.int 1) = Decimal.write 1 from rfl, h]
  decide

/-- `{"a": 1}` -/
theorem parsed_roundTrips_a : (oneKeyTree ⟨[97], by decide, by decide⟩).RoundTrips 4711 := by
  have hparse : varParseJson 5138 (varAlloc .null) ⟨asc "\x7b\"a\": 1\x7d", by decide⟩ =
      .returned true (oneKeyTree ⟨[97], by decide, by decide⟩) none 0 := rfl
  apply (parsed_roundTrips_iff 5138 4711 _ hparse (oneKeyTree_printable _)).mpr
  refine ⟨.inr (by simp [oneKeyTree, Var.children]), .dict (by simp) ?_ ?_⟩
  · intro c hc
    obtain rfl := List.mem_singleton.mp hc
    decide
  · intro c hc
    obtain rfl := List.mem_singleton.mp hc
    exact .leaf

/-- A key with a newline, which the parser accepts: it is read back with an `n`. -/
theorem newlineKey_lost :
    varParseJson 5138 (varAlloc .null) ⟨asc "\x7b\"a\nb\": 1\x7d", by decide⟩ =
        .returned true (oneKeyTree ⟨[97, 10, 98], by decide, by decide⟩) none 0 ∧
      ¬ (oneKeyTree ⟨[97, 10, 98], by decide, by decide⟩).RoundTrips 5138 := by
  have hparse : varParseJson 5138 (varAlloc .null) ⟨asc "\x7b\"a\nb\": 1\x7d", by decide⟩ =
      .returned true (oneKeyTree ⟨[97, 10, 98], by decide, by decide⟩) none 0 := rfl
  refine ⟨hparse, ?_⟩
  obtain ⟨hv, hid⟩ := varParseJson_formed hparse
  rw [hv.roundTrips_iff hid (oneKeyTree_printable _)]
  rintro ⟨-, hplain⟩
  cases hplain with
  | dict _ hnl _ => exact hnl _ List.mem_cons_self (by decide)

end Document

end Opticon
