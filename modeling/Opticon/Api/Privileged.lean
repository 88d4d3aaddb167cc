import Opticon.Api.Metadata
import Opticon.Lib.Outcome
import Opticon.Lib.Transition

/-! The name and the quota of a tenant, and who can change them. -/

namespace Opticon

variable {ihash : BitVec 32} {n : Nat}

section Edits

/-- A text that is a key as it is. -/
def KeyText (key : List UInt8) : Prop := key ≠ [] ∧ key.length ≤ 127 ∧ 0 ∉ key ∧ 10 ∉ key

instance (key : List UInt8) : Decidable (KeyText key) := inferInstanceAs (Decidable (_ ∧ _ ∧ _ ∧ _))

theorem KeyText.key {key : List UInt8} (h : KeyText key) : ∃ k : FString, k.str = key ∧ k.IsKey :=
  ⟨⟨key, h.2.1, h.2.2.1⟩, rfl, h.1, h.2.2.2⟩

/-- An edit that leaves a clean dict a clean dict. -/
def Keeps (ihash : BitVec 32) (n : Nat) (f : Option Var → Except Halt (Option Var)) : Prop :=
  ∀ id h cs v', (Var.dict id h cs).Clean ihash (n + 1) → f (some (.dict id h cs)) = .ok v' →
    ∃ bs, v' = some (.dict id h bs) ∧ (Var.dict id h bs).Clean ihash (n + 1)

/-- An edit that leaves something clean under the same key. -/
def Replaces (ihash : BitVec 32) (n : Nat) (f : Option Var → Except Halt (Option Var)) : Prop :=
  ∀ id h cs v', (Var.dict id h cs).Clean ihash (n + 1) → f (some (.dict id h cs)) = .ok v' →
    ∃ w, v' = some w ∧ w.Clean ihash (n + 1) ∧ w.id = id ∧ w.hashcode = h

theorem Keeps.replaces {f : Option Var → Except Halt (Option Var)} (hf : Keeps ihash n f) :
    Replaces ihash n f := by
  intro id h cs v' hv hr
  obtain ⟨bs, rfl, hbs⟩ := hf id h cs v' hv hr
  exact ⟨_, rfl, hbs, rfl, rfl⟩

theorem Keeps.bind {f g : Option Var → Except Halt (Option Var)} (hf : Keeps ihash n f)
    (hg : Keeps ihash n g) : Keeps ihash n fun v => f v >>= g := by
  intro id h cs v' hv hr
  obtain ⟨w, hw, hr⟩ := Outcome.bind_ok_iff.mp hr
  obtain ⟨bs, rfl, hbs⟩ := hf id h cs w hv hw
  exact hg id h bs v' hbs hr

theorem Keeps.foldlM {f : Option Var → List UInt8 → Except Halt (Option Var)} {ls : List (List UInt8)}
    (hf : ∀ l ∈ ls, Keeps ihash n fun v => f v l) : Keeps ihash n fun v => ls.foldlM f v := by
  induction ls with
  | nil =>
    intro id h cs v' hv hr
    obtain rfl := Except.ok.inj hr
    exact ⟨cs, rfl, hv⟩
  | cons l ls ih =>
    have htail := ih fun x hx => hf x (List.mem_cons_of_mem l hx)
    exact (hf l List.mem_cons_self).bind htail

/-- An edit of the dict under a key leaves the other children alone. -/
theorem inDictForkey_updated {f : Option Var → Except Halt (Option Var)} (hf : Replaces ihash n f)
    {key : List UInt8} (hkey : KeyText key) {id : FString} {h : BitVec 32} {cs : List Var}
    {v' : Option Var} (hv : (Var.dict id h cs).Clean ihash (n + 1 + 1))
    (hr : inDictForkey ihash key f (some (.dict id h cs)) = .ok v') :
    ∃ w, v' = some w ∧ Var.Updated ihash (n + 1) key (.dict id h cs) w ∧ w.children ≠ [] := by
  obtain ⟨key, rfl, hk⟩ := hkey.key
  have hid : ∀ (i : FString) (h : BitVec 32), (Var.node true i h []).id = i := fun _ _ => rfl
  have hhash : ∀ (i : FString) (h : BitVec 32), (Var.node true i h []).hashcode = h := fun _ _ => rfl
  have hchild := varForkey_child (P := fun c => c.Clean ihash (n + 1)) hv hk.ne hid hhash
    (fun _ => fun hc => hc) fun i h => .dict (by simp) (by simp) (by simp)
  simp only [inDictForkey, varGetDictForkey, varGetNodeForkey] at hr
  split at hr
  · -- another kind of child is in the way
    rename_i v hget
    split at hget
    · cases hget
    · rename_i hnode
      obtain rfl := (Prod.mk.inj hget).1
      obtain ⟨_, -, hr⟩ := Outcome.bind_ok_iff.mp hr
      obtain rfl := Except.ok.inj hr
      obtain ⟨i, c, hc, -, heq⟩ | ⟨-, heq⟩ := varForkey_clean hv hk.ne hid hhash
      · rw [heq]
        refine ⟨_, rfl, ⟨hv, ⟨cs, rfl⟩, fun _ _ => rfl⟩, ?_⟩
        intro hnil
        obtain rfl : cs = [] := hnil
        cases hc
      · rw [heq] at hnode
        exact absurd rfl hnode
  · rename_i v place child hget
    split at hget
    · rename_i hnode
      obtain ⟨rfl, hrest⟩ := Prod.mk.inj hget
      have hpair := Option.some.inj hrest
      obtain ⟨child', hc', hr⟩ := Outcome.bind_ok_iff.mp hr
      obtain rfl := Except.ok.inj hr
      have hplace : (varForkey ihash (.dict id h cs) key.str fun i h => Var.node true i h []).2.1 =
          place := congrArg Prod.fst hpair
      have hch : (varForkey ihash (.dict id h cs) key.str fun i h => Var.node true i h []).2.2 =
          child := congrArg Prod.snd hpair
      rw [hch] at hchild hnode
      cases child with
      | leaf _ _ _ => cases hnode
      | array _ _ _ => cases hnode
      | dict cid chash ds =>
        obtain ⟨w, rfl, hw, hwid, hwh⟩ := hf cid chash ds child' hchild hc'
        have hput := hv.put_forkey hk hid hhash hw (by rw [hch]; exact hwid) (by rw [hch]; exact hwh)
        simp only [hplace] at hput
        exact ⟨_, rfl, hput⟩
    · cases (Prod.mk.inj hget).2

theorem Replaces.inDict {f : Option Var → Except Halt (Option Var)} (hf : Replaces ihash n f)
    {key : List UInt8} (hk : KeyText key) : Keeps ihash (n + 1) (inDictForkey ihash key f) := by
  intro id h cs v' hv hr
  obtain ⟨w, rfl, hup, -⟩ := inDictForkey_updated hf hk hv hr
  obtain ⟨bs, rfl⟩ := hup.dict
  exact ⟨bs, rfl, hup.clean⟩

end Edits

section Commands

variable {ctx : MetaCtx}

theorem varChild_formed {v c : Var} {key : List UInt8} (hv : v.Formed)
    (h : varChild ihash v key = some c) : c.Formed := by
  cases hv with
  | @leaf id hash val _ => cases val <;> cases h
  | array _ _ => cases h
  | dict _ hcs =>
    obtain ⟨⟨i, c'⟩, hc, rfl⟩ := Option.map_eq_some_iff.mp h
    exact hcs _ (findKeyIn_some hc).2.1

theorem varGetStrForkey_nonul {v : Var} {key s : List UInt8} (hv : v.Formed)
    (h : varGetStrForkey ihash v key = some s) : 0 ∉ s := by
  obtain ⟨c, hc, hs⟩ := Option.bind_eq_some_iff.mp h
  have hf := varChild_formed hv hc
  cases hf with
  | @leaf id hash val hval =>
    cases val with
    | str sval =>
      obtain rfl := Option.some.inj hs
      exact hval
    | _ => cases hs
  | dict _ _ => cases hs
  | array _ _ => cases hs

theorem MetaCtx.bodyDict_formed (hb : ctx.bodyjson.Content true) {key : List UInt8} {d : Var}
    (h : ctx.bodyDict key = some d) : d.Formed ∧ d.isNode true = true := by
  obtain ⟨⟨place, vv⟩, hget, rfl⟩ := Option.map_eq_some_iff.mp h
  obtain ⟨hcontent, hleaf, -⟩ := (varGetNodeForkey_follows ctx.ihash hb key true).2 place vv hget
  refine ⟨hcontent.formed hleaf, ?_⟩
  cases hcontent with
  | null => exact absurd trivial hleaf
  | dict _ => rfl

/-- A short text fits wherever it is written. -/
theorem length_valueText_str {s : List UInt8} (h : s.length ≤ 128) :
    (valueText (.str s)).length ≤ 4095 := by
  have hs := length_varEscapeStr_le s
  have hq : (asc "\"").length = 1 := by decide
  simp only [valueText, List.length_append, hq]
  omega

theorem copystr_keeps {req : Option Var} (hreq : ∀ v, req = some v → v.Formed) {x : String}
    (hx : KeyText (asc x)) : Keeps ctx.ihash n (copystr ctx req x) := by
  intro id h cs v' hv hr
  unfold copystr at hr
  split at hr
  · rename_i tstr hstr
    obtain ⟨v, hreqv, hget⟩ := Option.bind_eq_some_iff.mp hstr
    split at hr
    · cases hr
    · rename_i hlen
      obtain rfl := Except.ok.inj hr
      obtain ⟨key, hkey, hk⟩ := hx.key
      obtain ⟨⟨bs, hbs⟩, hclean⟩ : (∃ bs, varSetForkey ctx.ihash (.dict id h cs) (asc x) (.str tstr) =
          .dict id h bs) ∧ (varSetForkey ctx.ihash (.dict id h cs) (asc x) (.str tstr)).Clean
            ctx.ihash (n + 1) := by
        rw [← hkey]
        have hval : (VarValue.str tstr).Formed := varGetStrForkey_nonul (hreq v hreqv) hget
        have hup := (varSetForkey_updated hv hk hval (length_valueText_str (Nat.le_of_not_lt hlen))).1
        exact ⟨hup.dict, hup.clean⟩
      exact ⟨bs, congrArg some hbs, hbs ▸ hclean⟩
  · cases hr
  · rename_i v heq
    obtain rfl := Except.ok.inj hr
    obtain rfl := Option.some.inj heq
    have hup := varDeleteKey_updated hv (asc x)
    obtain ⟨bs, hbs⟩ := hup.dict
    exact ⟨bs, congrArg some hbs, hbs ▸ hup.clean⟩

theorem setMeterFields_keeps {req : Option Var} (hreq : ∀ v, req = some v → v.Formed) :
    Keeps ctx.ihash n (setMeterFields ctx req) := by
  have htype : Keeps ctx.ihash n (copystr ctx req "type") :=
    copystr_keeps hreq (by decide +kernel)
  have hdesc : Keeps ctx.ihash n (copystr ctx req "description") :=
    copystr_keeps hreq (by decide +kernel)
  have hunit : Keeps ctx.ihash n (copystr ctx req "unit") :=
    copystr_keeps hreq (by decide +kernel)
  apply htype.bind
  apply hdesc.bind
  intro id h cs v' hv hr
  split at hr
  · cases hr
  · split at hr
    · exact hunit id h cs v' hv hr
    · obtain rfl := Except.ok.inj hr
      exact ⟨cs, rfl, hv⟩

theorem deleteKey_keeps (key : List UInt8) : Keeps ctx.ihash n (deleteKey ctx key) := by
  intro id h cs v' hv hr
  obtain rfl := Except.ok.inj hr
  have hup := varDeleteKey_updated hv key
  obtain ⟨bs, hbs⟩ := hup.dict
  exact ⟨bs, congrArg some hbs, hbs ▸ hup.clean⟩

/-- The levels of a watcher that can be stored below the definition of a meter. -/
def Var.StorableLevels (ihash : BitVec 32) (n : Nat) (watcher : Var) : Prop :=
  ∀ level ∈ watcherLevels, ∀ tv, varChild ihash watcher level = some tv → tv.Printable ∧ tv.Plain n

theorem watcherLevels_keyText : ∀ level ∈ watcherLevels, KeyText level := by decide +kernel

theorem setLevels_keeps {watcher : Option Var} (hw : ∀ v, watcher = some v → v.Formed ∧
    v.StorableLevels ctx.ihash (n + 1)) : Keeps ctx.ihash (n + 1) (setLevels ctx watcher) := by
  have hlevel : ∀ level ∈ watcherLevels,
      Keeps ctx.ihash (n + 1) fun meter => setLevel ctx watcher level meter := by
    intro level hl id h cs v' hv hr
    simp only [setLevel] at hr
    split at hr
    · obtain rfl := Except.ok.inj hr
      exact ⟨cs, rfl, hv⟩
    · rename_i tv htv
      obtain ⟨v, rfl, hchild⟩ := Option.bind_eq_some_iff.mp htv
      obtain ⟨hf, hs⟩ := hw v rfl
      obtain ⟨hp, hpl⟩ := hs level hl tv hchild
      refine Replaces.inDict ?_ (watcherLevels_keyText level hl) id h cs v' hv hr
      intro id h cs v' hv hr
      obtain rfl := Except.ok.inj hr
      obtain ⟨hclean, hid, hh⟩ := @Var.Copyable.copy ctx.ihash _ _
        ⟨varChild_formed hf hchild, hp, hpl⟩ (.dict id h cs)
      exact ⟨_, rfl, hclean, hid, hh⟩
  intro id h cs v' hv hr
  simp only [setLevels] at hr
  split at hr
  · cases hr
  · exact Keeps.foldlM hlevel id h cs v' hv hr

theorem deleteLevels_keeps : Keeps ctx.ihash n fun meter =>
    watcherLevels.foldlM (fun meter level => deleteKey ctx level meter) meter :=
  Keeps.foldlM fun level _ => deleteKey_keeps level

theorem setMeterid_keyText {a : MeterPath} {meterid : UrlText} (h : setMeterid a = some meterid) :
    KeyText meterid := by
  have hchars : ∀ c ∈ asc "0123456789_-.abcdefghijklmnopqrstuvwxyzABCDEFGHIJKLMNOPQRSTUVWXYZ",
      c ≠ 0 ∧ c ≠ 10 := by decide +kernel
  have hpart {elm : UrlText} (hv : argValid 83 elm = true) : elm ≠ [] ∧ 0 ∉ elm ∧ 10 ∉ elm := by
    simp only [argValid, decide_eq_true_eq, List.all_eq_true] at hv
    refine ⟨hv.1, fun h0 => ?_, fun h0 => ?_⟩
    · exact (hchars 0 (hv.2 0 h0)).1 rfl
    · exact (hchars 10 (hv.2 10 h0)).2 rfl
  obtain ⟨hne, h0, h10⟩ := hpart a.valid.1
  unfold setMeterid at h
  split at h
  · split at h
    · cases h
    · obtain rfl := Option.some.inj h
      exact ⟨hne, by omega, h0, h10⟩
  · rename_i second hsecond
    obtain ⟨-, h0', h10'⟩ := hpart (a.valid.2 second hsecond)
    split at h
    · cases h
    · rename_i hlen
      obtain rfl := Option.some.inj h
      refine ⟨by simp, ?_, ?_, ?_⟩
      · simp only [List.length_append, List.length_cons]
        omega
      · simp [h0, h0']
      · simp [h10, h10']

end Commands

section Runs

/-- What `db_get_metadata` may find: an empty document, or one that can be stored again. -/
def Var.Stored (ihash : BitVec 32) (doc : Var) : Prop :=
  (∃ h, doc = .leaf FString.empty h .null) ∨ doc.Document ihash

/-- The commands see an empty document as an empty dict. -/
theorem Var.Stored.asDict {doc : Var} (hdoc : doc.Stored ihash) : ∃ h cs,
    (Var.dict FString.empty h cs).Clean ihash (default_max_json_depth + 1) ∧
      (∀ k, (Var.dict FString.empty h cs).at k = doc.at k) ∧
      (∀ key f, inDictForkey ihash key f (some doc) =
        inDictForkey ihash key f (some (.dict FString.empty h cs))) ∧
      ∀ key val, varSetForkey ihash doc key val =
        varSetForkey ihash (.dict FString.empty h cs) key val := by
  obtain ⟨h, rfl⟩ | hd := hdoc
  · exact ⟨h, [], .dict (by simp) (by simp) (by simp), fun _ => rfl, fun _ _ => rfl, fun _ _ => rfl⟩
  · obtain ⟨h, cs, rfl⟩ := hd.dict
    exact ⟨h, cs, hd.clean, fun _ => rfl, fun _ _ => rfl, fun _ _ => rfl⟩

theorem Var.Stored.varChild {doc : Var} (hdoc : doc.Stored ihash) (k : List UInt8) :
    varChild ihash doc k = doc.at k := by
  obtain ⟨h, rfl⟩ | hd := hdoc
  · rfl
  · obtain ⟨h, cs, rfl⟩ := hd.dict
    exact hd.clean.varChild_at k

/-- The fields that only administrators and the provisioning may set. -/
def privilegedKeys : List (List UInt8) := [asc "name", asc "quota"]

/-- A document that can be stored, with the same name and quota. -/
structure Var.KeptIn (ihash : BitVec 32) (doc doc' : Var) : Prop where
  document : doc'.Document ihash
  kept : ∀ k ∈ privilegedKeys, doc'.at k = doc.at k

theorem Var.Updated.keptIn {key : List UInt8} {h : BitVec 32} {cs : List Var} {doc w : Var}
    (hup : Var.Updated ihash default_max_json_depth key (.dict FString.empty h cs) w)
    (hne : w.children ≠ []) (hat : ∀ k, (Var.dict FString.empty h cs).at k = doc.at k)
    (hkey : key ∉ privilegedKeys) : doc.KeptIn ihash w := by
  obtain ⟨bs, hbs⟩ := hup.dict
  refine ⟨⟨hup.clean, ⟨h, bs, hbs⟩, hne⟩, fun k hk => ?_⟩
  rw [hup.other k fun heq => hkey (heq ▸ hk), hat]

/-- An edit below one key of a document. -/
theorem inDictForkey_keptIn {f : Option Var → Except Halt (Option Var)} (hf : Replaces ihash 6 f)
    {key : List UInt8} (hk : KeyText key) (hkey : key ∉ privilegedKeys) {doc : Var}
    (hdoc : doc.Stored ihash) {v' : Option Var}
    (hr : inDictForkey ihash key f (some doc) = .ok v') : ∃ w, v' = some w ∧ doc.KeptIn ihash w := by
  obtain ⟨h, cs, hclean, hat, hin, -⟩ := hdoc.asDict
  rw [hin] at hr
  obtain ⟨w, rfl, hup, hne⟩ := inDictForkey_updated hf hk hclean hr
  exact ⟨w, rfl, hup.keptIn hne hat hkey⟩

/-- What a command asks for can be stored and has no name or quota to set: a meter id that
fits, levels that can be stored below it, and metadata that can be merged without touching
these two. -/
def MetaCtx.Harmless (ctx : MetaCtx) (doc : Var) : MetaCmd → Prop
  | .update => True
  | .set_meta => ∀ m, ctx.bodyDict (asc "metadata") = some m → ¬ doc.IsLeaf →
      m.Printable ∧ m.Plain (default_max_json_depth + 1) ∧
        ∀ k ∈ privilegedKeys, Var.Untouched k doc m.children
  | .set_meter a | .delete_meter a | .delete_watcher a => (setMeterid a).isSome
  | .set_watcher a => (setMeterid a).isSome ∧
      ∀ w, ctx.bodyDict (asc "watcher") = some w → w.StorableLevels ctx.ihash 5

variable {ctx : MetaCtx} {file : MetaFile} {doc doc' : Var}

theorem dbGetMetadata_eq (hload : varLoadJson ihash file = .ok (some doc)) :
    dbGetMetadata ihash file = .ok doc := by
  rw [dbGetMetadata, hload]

theorem cmdTenantUpdate_keptIn (hload : varLoadJson ctx.ihash file = .ok (some doc))
    (hdoc : doc.Stored ctx.ihash) (hlevel : ctx.privileged = false)
    (hr : cmdTenantUpdate ctx file = .ok doc') : doc' = doc ∨ doc.KeptIn ctx.ihash doc' := by
  obtain ⟨strkey, hkey, hr⟩ := Outcome.bind_ok_iff.mp hr
  dsimp only at hr
  split at hr
  · cases hr
  · rename_i hpriv
    simp only [hlevel, Bool.false_eq_true, not_false_eq_true, true_and, not_or, not_not] at hpriv
    obtain ⟨hname, hquota⟩ := hpriv
    rw [dbGetMetadata_eq hload] at hr
    simp only [Outcome.ok_bind, hname, hquota, Option.map_none, ne_eq, not_true_eq_false, if_false] at hr
    obtain rfl := Except.ok.inj hr
    cases strkey with
    | none => exact .inl rfl
    | some strkey =>
      obtain ⟨h, cs, hclean, hat, -, hset⟩ := hdoc.asDict
      refine .inr ?_
      simp only [Option.map_some, hset]
      have hstr : 0 ∉ strkey ∧ strkey.length ≤ 128 := by
        unfold sentKey at hkey
        split at hkey
        · cases hkey
        · split at hkey
          · cases hkey
          · split at hkey
            · cases hkey
            · obtain rfl := Option.some.inj (Except.ok.inj hkey)
              obtain ⟨h0, hlen⟩ := aeskeyToBase64_spec (aeskeyFromBase64 _ ctx.stackKey)
              exact ⟨h0, hlen.trans (by decide)⟩
      have hval : (VarValue.str strkey).Formed := hstr.1
      have hk : KeyText (asc "key") := by decide +kernel
      obtain ⟨key, hkey, hk⟩ := hk.key
      have hup := varSetForkey_updated hclean hk hval (length_valueText_str hstr.2)
      rw [hkey] at hup
      exact hup.1.keptIn hup.2 hat (by decide +kernel)

theorem cmdTenantSetMeta_keptIn (hload : varLoadJson ctx.ihash file = .ok (some doc))
    (hdoc : doc.Stored ctx.ihash) (hb : ctx.bodyjson.Content true) (hh : ctx.Harmless doc .set_meta)
    (hr : cmdTenantSetMeta ctx file = .ok doc') : doc' = doc ∨ doc.KeptIn ctx.ihash doc' := by
  unfold cmdTenantSetMeta at hr
  rw [dbGetMetadata_eq hload, Outcome.ok_bind] at hr
  split at hr
  · split at hr
    · cases hr
    · exact .inl (Except.ok.inj hr).symm
  · rename_i inMeta hin
    obtain rfl := Except.ok.inj hr
    obtain ⟨hf, hnode⟩ := ctx.bodyDict_formed hb hin
    cases inMeta with
    | leaf _ _ _ => cases hnode
    | array _ _ _ => cases hnode
    | dict id h ms =>
      obtain ⟨h', rfl⟩ | hd := hdoc
      · exact .inl rfl
      · obtain ⟨h', cs, rfl⟩ := hd.dict
        obtain ⟨hp, hpl, hun⟩ := hh _ hin fun hleaf => hleaf
        have hm := varMerge_merged hd.clean ⟨hf, hp, hpl⟩
        obtain ⟨bs, hbs⟩ := hm.dict
        exact .inr ⟨⟨hm.clean, ⟨h', bs, hbs⟩, hm.nonempty hd.nonempty⟩, fun k hk => hm.untouched k (hun k hk)⟩

theorem inMeter_keptIn {a : MeterPath} {f : Option Var → Except Halt (Option Var)}
    (hf : Replaces ctx.ihash 5 f) (ha : (setMeterid a).isSome) (hdoc : doc.Stored ctx.ihash)
    (hr : inMeter ctx a f doc = .ok doc') : doc.KeptIn ctx.ihash doc' := by
  obtain ⟨meterid, hid⟩ := Option.isSome_iff_exists.mp ha
  have hkey : KeyText (ctx.meterid a) := by
    rw [MetaCtx.meterid, hid]
    exact setMeterid_keyText hid
  obtain ⟨v, hv, hr⟩ := Outcome.bind_ok_iff.mp hr
  obtain ⟨w, rfl, hw⟩ := inDictForkey_keptIn (hf.inDict hkey).replaces (by decide +kernel)
    (by decide +kernel) hdoc hv
  obtain rfl := Except.ok.inj hr
  exact hw

/-- Each command of a user without privileges that does not ask for anything harmful leaves
the name and the quota, in a document that can be stored again. -/
theorem MetaCmd.run_keptIn {cmd : MetaCmd} (hload : varLoadJson ctx.ihash file = .ok (some doc))
    (hdoc : doc.Stored ctx.ihash) (hb : ctx.bodyjson.Content true) (hlevel : ctx.privileged = false)
    (hh : ctx.Harmless doc cmd) (hr : cmd.run ctx file = .ok doc') :
    doc' = doc ∨ doc.KeptIn ctx.ihash doc' := by
  have hreq : ∀ key v, ctx.bodyDict key = some v → v.Formed := fun key v h => (ctx.bodyDict_formed hb h).1
  cases cmd with
  | update => exact cmdTenantUpdate_keptIn hload hdoc hlevel hr
  | set_meta => exact cmdTenantSetMeta_keptIn hload hdoc hb hh hr
  | set_meter a =>
    change cmdTenantSetMeter ctx a file = .ok doc' at hr
    unfold cmdTenantSetMeter at hr
    rw [dbGetMetadata_eq hload, Outcome.ok_bind] at hr
    dsimp only at hr
    split at hr
    · cases hr
    · split at hr
      · cases hr
      · exact .inr (inMeter_keptIn (setMeterFields_keeps (hreq _)).replaces hh hdoc hr)
  | delete_meter a =>
    change cmdTenantDeleteMeter ctx a file = .ok doc' at hr
    unfold cmdTenantDeleteMeter at hr
    rw [dbGetMetadata_eq hload, Outcome.ok_bind] at hr
    obtain ⟨v, hv, hr⟩ := Outcome.bind_ok_iff.mp hr
    obtain ⟨w, rfl, hw⟩ := inDictForkey_keptIn (deleteKey_keeps (ctx.meterid a)).replaces
      (by decide +kernel) (by decide +kernel) hdoc hv
    obtain rfl := Except.ok.inj hr
    exact .inr hw
  | set_watcher a =>
    change cmdTenantSetWatcher ctx a file = .ok doc' at hr
    unfold cmdTenantSetWatcher at hr
    rw [dbGetMetadata_eq hload, Outcome.ok_bind] at hr
    obtain ⟨ha, hlevels⟩ := hh
    have hkeeps : Keeps ctx.ihash 5 (setLevels ctx (ctx.bodyDict (asc "watcher"))) :=
      setLevels_keeps fun v hv => ⟨hreq _ v hv, hlevels v hv⟩
    exact .inr (inMeter_keptIn hkeeps.replaces ha hdoc hr)
  | delete_watcher a =>
    change cmdTenantDeleteWatcher ctx a file = .ok doc' at hr
    unfold cmdTenantDeleteWatcher at hr
    rw [dbGetMetadata_eq hload, Outcome.ok_bind] at hr
    exact .inr (inMeter_keptIn deleteLevels_keeps.replaces hh hdoc hr)

/-- What is stored under a key, as `var_find_key` finds it. -/
def storedField (ihash : BitVec 32) (k : List UInt8) (file : MetaFile) : Option Var :=
  match varLoadJson ihash file with
  | .ok (some doc) => (varChild ihash doc k).map Var.shown
  | _ => none

theorem storedField_eq (hload : varLoadJson ihash file = .ok (some doc)) (hdoc : doc.Stored ihash)
    (k : List UInt8) : storedField ihash k file = (doc.at k).map Var.shown := by
  rw [storedField, hload, ← hdoc.varChild]

/-- A document is stored, and read again. -/
theorem dbSetMetadata_stored (hload : varLoadJson ihash file = .ok (some doc))
    (hdoc : doc.Stored ihash) (hd : doc' = doc ∨ doc.KeptIn ihash doc') :
    ∃ w, varLoadJson ihash (dbSetMetadata file doc') = .ok (some w) ∧ w.Stored ihash ∧
      ∀ k ∈ privilegedKeys, (w.at k).map Var.shown = (doc.at k).map Var.shown := by
  have hwrite {v : Var} (hv : v.Document ihash) (hk : ∀ k ∈ privilegedKeys, v.at k = doc.at k) :
      ∃ w, varLoadJson ihash (dbSetMetadata file v) = .ok (some w) ∧ w.Stored ihash ∧
        ∀ k ∈ privilegedKeys, (w.at k).map Var.shown = (doc.at k).map Var.shown := by
    obtain ⟨hres, w, hw, hwdoc, hshown⟩ := hv.reread
    refine ⟨w, by rw [dbSetMetadata, if_pos hres, hw], .inr hwdoc, fun k hkp => ?_⟩
    obtain ⟨h, cs, rfl⟩ := hv.dict
    obtain ⟨h', cs', rfl⟩ := hwdoc.dict
    rw [Var.at_shown rfl rfl hshown, hk k hkp]
  obtain rfl | hkept := hd
  · obtain ⟨h, rfl⟩ | hdoc' := hdoc
    · exact ⟨_, hload, .inl ⟨h, rfl⟩, fun _ _ => rfl⟩
    · exact hwrite hdoc' fun _ _ => rfl
  · exact hwrite hkept.document hkept.kept

/-- A request that asks for nothing harmful of a document that can be stored. -/
def MetaRequest.Harmless (ihash : BitVec 32) (file : MetaFile) (r : MetaRequest) : Prop :=
  ∃ doc, varLoadJson ihash file = .ok (some doc) ∧ doc.Stored ihash ∧
    ∀ bodyjson, parseBody ihash r.body = .ok bodyjson →
      MetaCtx.Harmless ⟨ihash, r.userlevel, bodyjson, r.stackKey, r.stackId⟩ doc r.cmd

/-- The requests of users without privileges, on a file. -/
def metaRequests (ihash : BitVec 32) (file : MetaFile) : Transition MetaFile MetaRequest where
  init s := s = file
  step s r t := r.userlevel ≠ .admin ∧ r.userlevel ≠ .prov ∧ t = r.apply ihash s

theorem parseBody_content {body : Option CString} {v : Var} (h : parseBody ihash body = .ok v) :
    v.Content true := by
  unfold parseBody at h
  split at h
  · obtain rfl := Except.ok.inj h
    exact .null
  · split at h
    · rename_i hparse
      obtain rfl := Except.ok.inj h
      exact (varParseJson_formed hparse).1
    · cases h

/-- A harmless request keeps the two fields, in a document that can be stored again. -/
theorem MetaRequest.apply_kept {r : MetaRequest} (hh : r.Harmless ihash file)
    (hadmin : r.userlevel ≠ .admin) (hprov : r.userlevel ≠ .prov) :
    (∃ w, varLoadJson ihash (r.apply ihash file) = .ok (some w) ∧ w.Stored ihash) ∧
      ∀ k ∈ privilegedKeys, storedField ihash k (r.apply ihash file) = storedField ihash k file := by
  obtain ⟨doc, hload, hdoc, hharm⟩ := hh
  have hsame : (∃ w, varLoadJson ihash file = .ok (some w) ∧ w.Stored ihash) ∧
      ∀ k ∈ privilegedKeys, storedField ihash k file = storedField ihash k file :=
    ⟨⟨doc, hload, hdoc⟩, fun _ _ => rfl⟩
  unfold MetaRequest.apply
  split
  · exact hsame
  · rename_i bodyjson hbody
    split
    · exact hsame
    · rename_i dbmeta hrun
      have hlevel : MetaCtx.privileged ⟨ihash, r.userlevel, bodyjson, r.stackKey, r.stackId⟩ = false := by
        simp [MetaCtx.privileged, hadmin, hprov]
      have hd := MetaCmd.run_keptIn hload hdoc (parseBody_content hbody) hlevel (hharm bodyjson hbody) hrun
      obtain ⟨w, hw, hwst, hk⟩ := dbSetMetadata_stored hload hdoc hd
      refine ⟨⟨w, hw, hwst⟩, fun k hkp => ?_⟩
      rw [storedField_eq hw hwst, storedField_eq hload hdoc, hk k hkp]

/-- As long as the users without privileges ask for nothing harmful, they do not change the
name and the quota of the tenant. -/
theorem privileged_fields_kept (ihash : BitVec 32) (file₀ : MetaFile) {rs : List MetaRequest}
    {file : MetaFile}
    (h : ((metaRequests ihash file₀).guard (MetaRequest.Harmless ihash)).History rs file) :
    ∀ k ∈ privilegedKeys, storedField ihash k file = storedField ihash k file₀ := by
  apply h.induction (I := fun _ s => ∀ k ∈ privilegedKeys, storedField ihash k s = storedField ihash k file₀)
  · rintro s rfl k -
    rfl
  · rintro rs s r t ih ⟨hharm, hadmin, hprov, rfl⟩ k hk
    rw [(MetaRequest.apply_kept hharm hadmin hprov).2 k hk, ih k hk]

/-- A request of a user. -/
def userRequest (cmd : MetaCmd) (body : CString) : MetaRequest where
  cmd := cmd
  userlevel := .user
  body := some body
  stackKey := ⟨List.replicate 32 170, rfl⟩
  stackId := []

def nameFile : MetaFile := some (asc "\x7b\"name\": \"a\"\x7d")

/-- `{"name": "a"}` -/
def nameDoc : Var :=
  .dict FString.empty 0 [.leaf ⟨asc "name", by decide, by decide⟩ (hashToken 5138 (asc "name")) (.str (asc "a"))]

theorem nameDoc_document : nameDoc.Document 5138 := by
  refine ⟨.dict (by simp) ?_ ?_, ⟨0, _, rfl⟩, by simp [nameDoc, Var.children]⟩
  · intro c hc
    obtain rfl := List.mem_singleton.mp hc
    exact ⟨by decide, by decide, rfl⟩
  · intro c hc
    obtain rfl := List.mem_singleton.mp hc
    have hval : (VarValue.str (asc "a")).Formed := by
      change 0 ∉ asc "a"
      decide
    exact .leaf hval (by decide +kernel)

/-- `PUT /$TENANT` with `{"tenant": {"key": "QUJD"}}` -/
def keyRequest : MetaRequest :=
  userRequest .update ⟨asc "\x7b\"tenant\": \x7b\"key\": \"QUJD\"\x7d\x7d", by decide +kernel⟩

theorem privileged_fields_kept_key :
    storedField 5138 (asc "name") (keyRequest.apply 5138 nameFile) =
        storedField 5138 (asc "name") nameFile ∧
      storedField 5138 (asc "quota") (keyRequest.apply 5138 nameFile) =
        storedField 5138 (asc "quota") nameFile := by
  have hharm : keyRequest.Harmless 5138 nameFile :=
    ⟨nameDoc, rfl, .inr nameDoc_document, fun _ _ => trivial⟩
  have hkept := @privileged_fields_kept 5138 nameFile [keyRequest] _
    ⟨nameFile, rfl, .snoc (.nil _) ⟨hharm, by decide, by decide, rfl⟩⟩
  exact ⟨hkept _ (by decide +kernel), hkept _ (by decide +kernel)⟩

/-- `POST /$TENANT/meta` with `{"metadata": {"quota": "9"}}` -/
def quotaRequest : MetaRequest :=
  userRequest .set_meta ⟨asc "\x7b\"metadata\": \x7b\"quota\": \"9\"\x7d\x7d", by decide +kernel⟩

/-- A user gives the tenant, which has no quota, one of their own. -/
theorem quota_set_by_user :
    (metaRequests 5138 nameFile).History [quotaRequest] (quotaRequest.apply 5138 nameFile) ∧
      (storedField 5138 (asc "quota") nameFile).isNone ∧
      (storedField 5138 (asc "quota") (quotaRequest.apply 5138 nameFile)).bind varGetStr =
        some (asc "9") := by
  refine ⟨⟨nameFile, rfl, .snoc (.nil _) ⟨by decide, by decide, rfl⟩⟩, ?_, ?_⟩
  · decide +kernel
  · decide +kernel

end Runs

end Opticon
