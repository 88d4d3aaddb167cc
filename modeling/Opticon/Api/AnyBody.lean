import Opticon.Api.MeterIds

/-! The commands on a tenant, whatever is in the body of the request: which bodies end the process. -/

namespace Opticon

variable {ctx : MetaCtx} {file : MetaFile}

/-- A command that comes to its answer, and stores nothing unless the answer is 200. -/
structure Survives {σ : Type} (before : σ) (e : Ending σ) : Prop where
  finishes : ∃ r, e.answer = .ok r
  clean : ∀ r, e.answer = .ok r → r.status ≠ 200 → e.stored = before

section Endings

/-- The metadata can be read. -/
def Loads (ihash : BitVec 32) (file : MetaFile) (doc : Var) : Prop :=
  varLoadJson ihash file = .ok (some doc)

theorem dbGetMetadata_loads {ihash : BitVec 32} (h : ¬ ∃ doc, Loads ihash file doc) :
    ∃ f, dbGetMetadata ihash file = .error (.fault f) := by
  unfold dbGetMetadata
  split
  · exact ⟨_, rfl⟩
  · exact ⟨_, rfl⟩
  · exact absurd ⟨_, ‹_›⟩ h

theorem errGeneric_status (ihash : BitVec 32) (env : Var) (r : Reply) :
    (errGeneric ihash env r).status = r.status := by
  unfold errGeneric
  split <;> rfl

/-- A command on the metadata survives if it ends in no fault, before or after the metadata is
stored. -/
theorem survives_iff (cmd : MetaCmd) : Survives file (cmd.ending ctx file) ↔
    (∃ r, cmd.run ctx file = .error (.reply r)) ∨
      ∃ dbmeta env, cmd.run ctx file = .ok dbmeta ∧
        cmd.response ctx file dbmeta (cmd.env ctx.ihash) = .ok env := by
  cases hrun : cmd.run ctx file with
  | error e =>
    cases e with
    | fault f =>
      have hend : cmd.ending ctx file = ⟨file, .error f⟩ := by simp only [MetaCmd.ending, hrun]
      constructor
      · rintro ⟨⟨r, hr⟩, -⟩
        rw [hend] at hr
        cases hr
      · rintro (⟨r, hr⟩ | ⟨_, _, hr, -⟩) <;> cases hr
    | reply r =>
      have hend : cmd.ending ctx file = ⟨file, .ok (errGeneric ctx.ihash (cmd.env ctx.ihash) r)⟩ := by
        simp only [MetaCmd.ending, hrun]
      refine iff_of_true ?_ (.inl ⟨r, rfl⟩)
      rw [hend]
      exact ⟨⟨_, rfl⟩, fun _ _ _ => rfl⟩
  | ok dbmeta =>
    have hend : cmd.ending ctx file = ⟨dbSetMetadata file dbmeta,
        (cmd.response ctx file dbmeta (cmd.env ctx.ihash)).map (Answer.mk 200)⟩ := by
      simp only [MetaCmd.ending, hrun]
    rw [hend]
    cases hres : cmd.response ctx file dbmeta (cmd.env ctx.ihash) with
    | error f =>
      constructor
      · rintro ⟨⟨r, hr⟩, -⟩
        cases hr
      · rintro (⟨r, hr⟩ | ⟨v, env, hr, henv⟩)
        · cases hr
        · obtain rfl := Except.ok.inj hr
          rw [hres] at henv
          cases henv
    | ok env =>
      refine iff_of_true ⟨⟨_, rfl⟩, fun r hr hstatus => ?_⟩ (.inr ⟨dbmeta, env, rfl, hres⟩)
      obtain rfl := Except.ok.inj hr
      exact absurd rfl hstatus

theorem inResponse_iff {ihash : BitVec 32} {key : List UInt8} {f : Var → Except Fault Var} {env : Var} :
    (∃ env', inResponse ihash key f env = .ok env') ↔
      ∃ c w, dictSlot ihash key (some env) = some c ∧ f c = .ok w := by
  simp only [inResponse, dictSlot, varGetDict]
  cases varGetDictForkey ihash env key with
  | mk v slot =>
    cases slot with
    | none => simp
    | some p =>
      obtain ⟨place, c⟩ := p
      show (∃ env', (f c >>= _) = _) ↔ _
      cases hf : f c <;> simp [hf]

/-- A dict that is not in the response yet can be written to. -/
theorem inResponse_new {ihash : BitVec 32} {key : List UInt8} {f : Var → Except Fault Var} {env : Var}
    (hnew : varChild ihash env key = none) : (∃ env', inResponse ihash key f env = .ok env') ↔
      ∃ w, f (.dict (FString.strncpy key) (hashToken ihash key) []) = .ok w := by
  rw [inResponse_iff, dictSlot_eq, hnew]
  simp

end Endings

section Tenant

/-- The key in the body, if there is one, is a text. -/
def KeyIsText (ctx : MetaCtx) : Prop :=
  ∀ vopts vkey, ctx.bodyDict (asc "tenant") = some vopts → varChild ctx.ihash vopts (asc "key") = some vkey →
    ∃ s, varGetStr vkey = some s

theorem keyIsText_iff : KeyIsText ctx ↔
    ∀ vkey, ((ctx.bodyDict (asc "tenant")).bind fun v => varChild ctx.ihash v (asc "key")) = some vkey →
      ∃ s, varGetStr vkey = some s := by
  constructor
  · intro h vkey hkey
    obtain ⟨vopts, hv, hk⟩ := Option.bind_eq_some_iff.mp hkey
    exact h vopts vkey hv hk
  · intro h vopts vkey hv hk
    refine h vkey ?_
    rw [hv, Option.bind_some, hk]

/-- Without a tenant in the body there is no key in it. -/
theorem keyIsText_of_none (h : varChild ctx.ihash ctx.bodyjson (asc "tenant") = none) : KeyIsText ctx := by
  intro vopts vkey hv hk
  have hslot := @varGetDictForkey_snd ctx.ihash ctx.bodyjson (asc "tenant")
  rw [h] at hslot
  obtain rfl := Option.some.inj (hslot.symm.trans hv)
  cases hk

theorem createKey_ok_iff (randomKey : AesKey) :
    (∃ key, createKey ctx randomKey (ctx.bodyDict (asc "tenant")) = .ok key) ↔ KeyIsText ctx := by
  rw [keyIsText_iff, createKey]
  cases (ctx.bodyDict (asc "tenant")).bind fun v => varChild ctx.ihash v (asc "key") with
  | none => simp
  | some vkey => cases hstr : varGetStr vkey <;> simp [hstr]

/-- A tenant is created or not, but only a key that is no text ends the process. -/
theorem create_survives_iff (randomKey : AesKey) (tenant : Option MetaFile) :
    Survives tenant (cmdTenantCreate ctx randomKey tenant) ↔ KeyIsText ctx := by
  have hsame (r : Answer) : Survives tenant ⟨tenant, .ok r⟩ := ⟨⟨r, rfl⟩, fun _ _ _ => rfl⟩
  simp only [cmdTenantCreate]
  split
  · rename_i hnone
    exact iff_of_true (hsame _) (keyIsText_of_none (Option.isNone_iff_eq_none.mp hnone))
  · cases hkey : createKey ctx randomKey (ctx.bodyDict (asc "tenant")) with
    | error f =>
      refine iff_of_false ?_ fun h => ?_
      · rintro ⟨⟨r, hr⟩, -⟩
        cases hr
      · obtain ⟨key, hk⟩ := (createKey_ok_iff randomKey).mpr h
        rw [hkey] at hk
        cases hk
    | ok key =>
      refine iff_of_true ?_ ((createKey_ok_iff randomKey).mp ⟨key, hkey⟩)
      dsimp only
      split
      · exact hsame _
      · obtain ⟨env, henv⟩ := (@inResponse_new ctx.ihash (asc "tenant")
          (fun v => .ok (createMeta ctx.ihash key _ v)) (varAlloc .null) rfl).mpr ⟨_, rfl⟩
        rw [henv]
        dsimp only
        split
        · exact hsame _
        · refine ⟨⟨_, rfl⟩, fun r hr hstatus => ?_⟩
          obtain rfl := Except.ok.inj hr
          exact absurd rfl hstatus

/-- A request to update a tenant that is refused before the metadata is opened. -/
def UpdateRefused (ctx : MetaCtx) : Prop :=
  let vopts := ctx.bodyDict (asc "tenant")
  (vopts.bind fun v => varGetStrForkey ctx.ihash v (asc "key")) = some [] ∨
    ctx.privileged = false ∧ ((vopts.bind fun v => varGetStrForkey ctx.ihash v (asc "name")) ≠ none ∨
      (vopts.map fun v => varGetIntForkey ctx.ihash v (asc "quota")).getD 0 ≠ 0)

/-- The key of the request is missing, no text, empty or another text. -/
theorem sentKey_cases : (∃ f, sentKey ctx (ctx.bodyDict (asc "tenant")) = .error (.fault f)) ∧ ¬ KeyIsText ctx ∨
    KeyIsText ctx ∧
      ((∃ r, sentKey ctx (ctx.bodyDict (asc "tenant")) = .error (.reply r)) ∧
        ((ctx.bodyDict (asc "tenant")).bind fun v => varGetStrForkey ctx.ihash v (asc "key")) = some [] ∨
      (∃ k, sentKey ctx (ctx.bodyDict (asc "tenant")) = .ok k) ∧
        ((ctx.bodyDict (asc "tenant")).bind fun v => varGetStrForkey ctx.ihash v (asc "key")) ≠ some []) := by
  have htext : ((ctx.bodyDict (asc "tenant")).bind fun v => varGetStrForkey ctx.ihash v (asc "key")) =
      ((ctx.bodyDict (asc "tenant")).bind fun v => varChild ctx.ihash v (asc "key")).bind varGetStr := by
    simp only [varGetStrForkey, Option.bind_assoc]
  rw [keyIsText_iff, htext, sentKey]
  cases (ctx.bodyDict (asc "tenant")).bind fun v => varChild ctx.ihash v (asc "key") with
  | none => simp
  | some vkey =>
    cases hstr : varGetStr vkey with
    | none => simp [hstr]
    | some s => by_cases hs : s = [] <;> simp [hstr, hs]

/-- What becomes of a request to update a tenant. -/
theorem update_survives_iff : Survives file (MetaCmd.update.ending ctx file) ↔
    KeyIsText ctx ∧ (UpdateRefused ctx ∨ ∃ doc, Loads ctx.ihash file doc) := by
  have henv : MetaCmd.update.env ctx.ihash = varAlloc .null := rfl
  have hresponse (dbmeta : Var) : ∃ env,
      MetaCmd.update.response ctx file dbmeta (MetaCmd.update.env ctx.ihash) = .ok env := by
    simp only [MetaCmd.response, updateResponse, henv]
    exact (inResponse_new rfl).mpr ⟨_, rfl⟩
  have hrun : MetaCmd.update.run ctx file = cmdTenantUpdate ctx file := rfl
  rw [survives_iff, hrun, cmdTenantUpdate]
  obtain ⟨⟨f, hf⟩, hkey⟩ | ⟨hkey, ⟨⟨r, hr⟩, hempty⟩ | ⟨⟨k, hk⟩, hne⟩⟩ := @sentKey_cases ctx
  · refine iff_of_false ?_ fun h => hkey h.1
    rw [hf, Outcome.error_bind]
    rintro (⟨r, hr⟩ | ⟨_, _, hr, -⟩) <;> cases hr
  · refine iff_of_true (.inl ⟨r, ?_⟩) ⟨hkey, .inl (.inl hempty)⟩
    rw [hr, Outcome.error_bind]
  · rw [hk, Outcome.ok_bind]
    dsimp only
    split
    · rename_i hpriv
      obtain ⟨hnot, hsent⟩ := hpriv
      exact iff_of_true (.inl ⟨_, rfl⟩) ⟨hkey, .inl (.inr ⟨Bool.eq_false_iff.mpr hnot, hsent⟩)⟩
    · rename_i hpriv
      have hrefused : ¬ UpdateRefused ctx := by
        rintro (h | ⟨hnot, hsent⟩)
        · exact hne h
        · exact hpriv ⟨Bool.eq_false_iff.mp hnot, hsent⟩
      by_cases hload : ∃ doc, Loads ctx.ihash file doc
      · refine iff_of_true (.inr ?_) ⟨hkey, .inr hload⟩
        obtain ⟨doc, hdoc⟩ := hload
        rw [dbGetMetadata_eq hdoc, Outcome.ok_bind]
        obtain ⟨env, henv⟩ := hresponse doc
        exact ⟨_, env, rfl, henv⟩
      · refine iff_of_false ?_ fun h => h.2.elim hrefused hload
        obtain ⟨f, hf⟩ := dbGetMetadata_loads hload
        rw [hf, Outcome.error_bind]
        rintro (⟨r, hr⟩ | ⟨_, _, hr, -⟩) <;> cases hr

theorem set_meta_survives_iff : Survives file (MetaCmd.set_meta.ending ctx file) ↔
    ∃ doc, Loads ctx.ihash file doc ∧
      (doc.isNode true → ∃ m, ctx.bodyDict (asc "metadata") = some m) := by
  have henv : MetaCmd.set_meta.env ctx.ihash = varAlloc .null := rfl
  have hresponse (dbmeta : Var) : ∃ env,
      MetaCmd.set_meta.response ctx file dbmeta (MetaCmd.set_meta.env ctx.ihash) = .ok env := by
    simp only [MetaCmd.response, henv]
    exact (inResponse_new rfl).mpr ⟨_, rfl⟩
  have hrun : MetaCmd.set_meta.run ctx file = cmdTenantSetMeta ctx file := rfl
  rw [survives_iff, hrun, cmdTenantSetMeta]
  by_cases hload : ∃ doc, Loads ctx.ihash file doc
  · obtain ⟨doc, hdoc⟩ := hload
    have hone (P : Var → Prop) : (∃ doc, Loads ctx.ihash file doc ∧ P doc) ↔ P doc := by
      constructor
      · rintro ⟨d, hd, hp⟩
        obtain rfl := Option.some.inj (Except.ok.inj (hd.symm.trans hdoc))
        exact hp
      · exact fun hp => ⟨doc, hdoc, hp⟩
    rw [hone, dbGetMetadata_eq hdoc, Outcome.ok_bind]
    split
    · rename_i hnone
      split
      · rename_i hnode
        refine iff_of_false ?_ fun h => ?_
        · rintro (⟨r, hr⟩ | ⟨_, _, hr, -⟩) <;> cases hr
        · obtain ⟨m, hm⟩ := h hnode
          rw [hnone] at hm
          cases hm
      · rename_i hnode
        obtain ⟨env, henv⟩ := hresponse doc
        exact iff_of_true (.inr ⟨_, env, rfl, henv⟩) fun h => absurd h hnode
    · rename_i m hm
      obtain ⟨env, henv⟩ := hresponse (varMerge ctx.ihash doc m)
      exact iff_of_true (.inr ⟨_, env, rfl, henv⟩) fun _ => ⟨m, hm⟩
  · refine iff_of_false ?_ fun h => hload (h.imp fun _ h => h.1)
    obtain ⟨f, hf⟩ := dbGetMetadata_loads hload
    rw [hf, Outcome.error_bind]
    rintro (⟨r, hr⟩ | ⟨_, _, hr, -⟩) <;> cases hr

end Tenant

section Watcher

theorem varCloneInto_root {ihash : BitVec 32} (dict : Bool) (self : Var) (cs : List Var) :
    (varCloneInto ihash dict self cs).id = self.id ∧
      (varCloneInto ihash dict self cs).hashcode = self.hashcode := by
  induction cs generalizing self with
  | nil =>
    rw [varCloneInto]
    exact ⟨rfl, rfl⟩
  | cons c cs ih =>
    rw [varCloneInto]
    have ih := ih (if dict then varLinkAs ihash (varClone ihash c) self c.id else
      (varLink ihash (varClone ihash c) self).2.1)
    have hself : (if dict then varLinkAs ihash (varClone ihash c) self c.id else
        (varLink ihash (varClone ihash c) self).2.1).id = self.id ∧
        (if dict then varLinkAs ihash (varClone ihash c) self c.id else
          (varLink ihash (varClone ihash c) self).2.1).hashcode = self.hashcode := by
      split
      · exact varLink_root _ self
      · exact varLink_root _ self
    exact ⟨ih.1.trans hself.1, ih.2.trans hself.2⟩

theorem varCopy_root {ihash : BitVec 32} (self orig : Var) :
    (varCopy ihash self orig).id = self.id ∧ (varCopy ihash self orig).hashcode = self.hashcode := by
  cases orig with
  | leaf _ _ _ => exact ⟨rfl, rfl⟩
  | dict _ _ cs => exact varCloneInto_root true (.dict self.id self.hashcode []) cs
  | array _ _ cs => exact varCloneInto_root false (.array self.id self.hashcode []) cs

/-- A level that is sent is written to a slot, or to a null pointer. -/
def copyLevel (ihash : BitVec 32) (tv : Var) : Option Var → Except Halt (Option Var)
  | none => .error (.fault .nullPointer)
  | some v => .ok (some (varCopy ihash v tv))

theorem setLevel_sent {watcher : Option Var} {level : List UInt8} {tv : Var}
    (h : (watcher.bind fun v => varChild ctx.ihash v level) = some tv) (meter : Option Var) :
    setLevel ctx watcher level meter = inDictForkey ctx.ihash level (copyLevel ctx.ihash tv) meter := by
  simp only [setLevel, h]
  congr 1

theorem setLevel_unsent {watcher : Option Var} {level : List UInt8}
    (h : (watcher.bind fun v => varChild ctx.ihash v level) = none) (meter : Option Var) :
    setLevel ctx watcher level meter = .ok meter := by
  simp only [setLevel, h]

theorem copyLevel_keepsKey (ihash : BitVec 32) (tv : Var) : KeepsKey (copyLevel ihash tv) := by
  intro v v' h
  obtain rfl := Except.ok.inj h
  exact ⟨_, rfl, varCopy_root v tv⟩

theorem dictSlot_of_rel {ihash : BitVec 32} {key : List UInt8} {v v' : Var}
    (h : Option.Rel (Var.Rehashed ihash) (varChild ihash v key) (varChild ihash v' key)) :
    dictSlot ihash key (some v') = none ↔ dictSlot ihash key (some v) = none := by
  rw [dictSlot_eq, dictSlot_eq]
  generalize varChild ihash v key = o at h ⊢
  generalize varChild ihash v' key = o' at h ⊢
  cases h with
  | none => exact Iff.rfl
  | @some c c' hc =>
    show (if c'.isNode true then some c' else none) = none ↔ (if c.isNode true then some c else none) = none
    rw [hc.isNode true]
    split <;> simp

/-- The levels that are sent can be written if no slot for them is taken by something else. -/
theorem foldlM_setLevel {watcher : Option Var} {ls : List (List UInt8)} (hnd : ls.Nodup)
    (hfit : ∀ l ∈ ls, FitsKey l) (id : FString) (h : BitVec 32) (cs : List Var) :
    (∃ v, ls.foldlM (fun meter level => setLevel ctx watcher level meter) (some (.dict id h cs)) = .ok v) ↔
      ∀ l ∈ ls, (watcher.bind fun v => varChild ctx.ihash v l) ≠ none →
        dictSlot ctx.ihash l (some (.dict id h cs)) ≠ none := by
  induction ls generalizing cs with
  | nil => simp
  | cons l ls ih =>
    obtain ⟨hl, hnd⟩ := List.nodup_cons.mp hnd
    have ih := ih hnd fun x hx => hfit x (List.mem_cons_of_mem l hx)
    rw [List.foldlM_cons, List.forall_mem_cons]
    cases hsent : watcher.bind fun v => varChild ctx.ihash v l with
    | none =>
      rw [setLevel_unsent hsent, Outcome.ok_bind, ih]
      simp
    | some tv =>
      rw [setLevel_sent hsent]
      cases hslot : dictSlot ctx.ihash l (some (.dict id h cs)) with
      | none =>
        rw [inDictForkey_eq, hslot]
        refine iff_of_false ?_ fun h => h.1 (by simp) rfl
        rintro ⟨v, hv⟩
        cases hv
      | some c =>
        obtain ⟨v, hv⟩ : ∃ v, inDictForkey ctx.ihash l (copyLevel ctx.ihash tv) (some (.dict id h cs)) = .ok v := by
          rw [inDictForkey_eq, hslot]
          exact ⟨_, rfl⟩
        obtain ⟨ds, child', rfl, -, hplaced⟩ := inDictForkey_placed (copyLevel_keepsKey ctx.ihash tv)
          (hfit l List.mem_cons_self) hv
        rw [hv, Outcome.ok_bind, ih]
        have hsame : ∀ x ∈ ls, (dictSlot ctx.ihash x (some (.dict id h ds)) = none ↔
            dictSlot ctx.ihash x (some (.dict id h cs)) = none) := by
          intro x hx
          have hne : x ≠ l := fun heq => hl (heq ▸ hx)
          exact dictSlot_of_rel (hplaced.other x hne)
        constructor
        · intro hall
          refine ⟨fun _ => by simp, fun x hx hxsent => ?_⟩
          rw [ne_eq, ← hsame x hx]
          exact hall x hx hxsent
        · rintro ⟨-, hall⟩ x hx hxsent
          rw [ne_eq, hsame x hx]
          exact hall x hx hxsent

/-- Without a definition the levels are written to dictionaries that belong to nothing. -/
theorem foldlM_setLevel_none {watcher : Option Var} (ls : List (List UInt8)) :
    ∃ v, ls.foldlM (fun meter level => setLevel ctx watcher level meter) none = .ok v := by
  induction ls with
  | nil => exact ⟨none, rfl⟩
  | cons l ls ih =>
    rw [List.foldlM_cons]
    cases hsent : watcher.bind fun v => varChild ctx.ihash v l with
    | none =>
      rw [setLevel_unsent hsent]
      exact ih
    | some tv =>
      rw [setLevel_sent hsent]
      exact ih

/-- The levels that are sent find a dict, or nothing, in the definition. -/
def LevelsFit (ctx : MetaCtx) (watcher meter : Option Var) : Prop :=
  ∀ l ∈ watcherLevels, (watcher.bind fun v => varChild ctx.ihash v l) ≠ none →
    ∀ m c, meter = some m → varChild ctx.ihash m l = some c → c.isNode true

theorem setLevels_ok {watcher meter : Option Var}
    (htable : (meter.bind fun v => varGetStrForkey ctx.ihash v (asc "type")) ≠ some (asc "table"))
    (hdict : ∀ m, meter = some m → ∃ id h cs, m = .dict id h cs) :
    (∃ v, setLevels ctx watcher meter = .ok v) ↔ LevelsFit ctx watcher meter := by
  simp only [setLevels, if_neg htable]
  cases meter with
  | none => exact iff_of_true (foldlM_setLevel_none watcherLevels) fun _ _ _ _ _ h => by cases h
  | some m =>
    obtain ⟨id, h, cs, rfl⟩ := hdict m rfl
    have hfit : ∀ l ∈ watcherLevels, FitsKey l := by
      intro l hl
      obtain ⟨hne, hlen, h0, -⟩ := watcherLevels_keyText l hl
      exact fitsKey_of_short hne hlen h0
    rw [foldlM_setLevel (by decide) hfit]
    refine forall₂_congr fun l _ => imp_congr_right fun _ => ?_
    have hone : (∀ m c, some (Var.dict id h cs) = some m → varChild ctx.ihash m l = some c →
        c.isNode true = true) ↔ ∀ c, varChild ctx.ihash (.dict id h cs) l = some c → c.isNode true = true :=
      ⟨fun h c hc => h _ c rfl hc, fun h m c hm hc => h c (by rwa [Option.some.inj hm])⟩
    rw [hone, ne_eq, dictSlot_eq]
    cases varChild ctx.ihash (.dict id h cs) l with
    | none => simp
    | some c => by_cases hc : c.isNode true <;> simp [hc]

theorem meterIn_dict {id : UrlText} {doc m : Var} (h : meterIn ctx id doc = some m) :
    ∃ mid hash cs, m = .dict mid hash cs := by
  rw [meterIn_eq] at h
  exact dictSlot_dict h

theorem set_watcher_survives_iff (a : MeterPath) :
    Survives file ((MetaCmd.set_watcher a).ending ctx file) ↔ ∃ doc, Loads ctx.ihash file doc ∧
      let meter := meterIn ctx (ctx.meterid a) doc
      ((meter.bind fun v => varGetStrForkey ctx.ihash v (asc "type")) = some (asc "table") ∨
        ∃ watcher, ctx.bodyDict (asc "watcher") = some watcher ∧ LevelsFit ctx (some watcher) meter) := by
  have hrun : (MetaCmd.set_watcher a).run ctx file = cmdTenantSetWatcher ctx a file := rfl
  have hnew : varChild ctx.ihash ((MetaCmd.set_watcher a).env ctx.ihash) (asc "watcher") = none := by
    unfold MetaCmd.env
    split
    · have hkey : (FString.strncpy (asc "error")).str ≠ asc "watcher" := by decide
      have hother := @varSetForkey_other ctx.ihash (asc "error") (asc "watcher") (varAlloc .null)
        (.str (asc "Bad request")) hkey
      have halloc : varChild ctx.ihash (varAlloc .null) (asc "watcher") = none := rfl
      rw [halloc] at hother
      simp only [errGeneric, errBadRequest]
      generalize varChild ctx.ihash (varSetForkey ctx.ihash (varAlloc .null) (asc "error")
        (.str (asc "Bad request"))) (asc "watcher") = o at hother ⊢
      cases hother
      rfl
    · rfl
  have hresponse (dbmeta : Var) : (∃ env, (MetaCmd.set_watcher a).response ctx file dbmeta
      ((MetaCmd.set_watcher a).env ctx.ihash) = .ok env) ↔ ∃ w, ctx.bodyDict (asc "watcher") = some w := by
    simp only [MetaCmd.response]
    rw [inResponse_new hnew]
    cases ctx.bodyDict (asc "watcher") <;> simp [copyFrom]
  rw [survives_iff, hrun, cmdTenantSetWatcher]
  by_cases hload : ∃ doc, Loads ctx.ihash file doc
  · obtain ⟨doc, hdoc⟩ := hload
    have hone (P : Var → Prop) : (∃ doc, Loads ctx.ihash file doc ∧ P doc) ↔ P doc := by
      constructor
      · rintro ⟨d, hd, hp⟩
        obtain rfl := Option.some.inj (Except.ok.inj (hd.symm.trans hdoc))
        exact hp
      · exact fun hp => ⟨doc, hdoc, hp⟩
    rw [hone, dbGetMetadata_eq hdoc, Outcome.ok_bind]
    simp only [inMeter_error]
    rw [setLevels_reply]
    by_cases htable : ((meterIn ctx (ctx.meterid a) doc).bind fun v =>
        varGetStrForkey ctx.ihash v (asc "type")) = some (asc "table")
    · exact iff_of_true (.inl htable) (.inl htable)
    · rw [or_iff_right htable, or_iff_right htable]
      have hlevels := @setLevels_ok ctx (ctx.bodyDict (asc "watcher")) _ htable fun m hm => meterIn_dict hm
      obtain ⟨g, hg⟩ := @inMeter_bind ctx a (setLevels ctx (ctx.bodyDict (asc "watcher"))) doc
      constructor
      · rintro ⟨dbmeta, env, hr, henv⟩
        rw [hg] at hr
        obtain ⟨v, hv, -⟩ := Outcome.bind_ok_iff.mp hr
        obtain ⟨w, hw⟩ := (hresponse dbmeta).mp ⟨env, henv⟩
        exact ⟨w, hw, hw ▸ hlevels.mp ⟨v, hv⟩⟩
      · rintro ⟨w, hw, hfit⟩
        obtain ⟨v, hv⟩ := hlevels.mpr (hw ▸ hfit)
        rw [hv, Outcome.ok_bind] at hg
        obtain ⟨env, henv⟩ := (hresponse (g v)).mpr ⟨w, hw⟩
        exact ⟨g v, env, hg, henv⟩
  · refine iff_of_false ?_ fun h => hload (h.imp fun _ h => h.1)
    obtain ⟨f, hf⟩ := dbGetMetadata_loads hload
    rw [hf, Outcome.error_bind]
    rintro (⟨r, hr⟩ | ⟨_, _, hr, -⟩) <;> cases hr

/-- Which bodies the four commands survive. -/
theorem tenant_commands_survive_iff (ctx : MetaCtx) (file : MetaFile) :
    (∀ randomKey tenant, Survives tenant (cmdTenantCreate ctx randomKey tenant) ↔ KeyIsText ctx) ∧
    (Survives file (MetaCmd.update.ending ctx file) ↔
      KeyIsText ctx ∧ (UpdateRefused ctx ∨ ∃ doc, Loads ctx.ihash file doc)) ∧
    (Survives file (MetaCmd.set_meta.ending ctx file) ↔ ∃ doc, Loads ctx.ihash file doc ∧
      (doc.isNode true → ∃ m, ctx.bodyDict (asc "metadata") = some m)) ∧
    ∀ a, (Survives file ((MetaCmd.set_watcher a).ending ctx file) ↔ ∃ doc, Loads ctx.ihash file doc ∧
      let meter := meterIn ctx (ctx.meterid a) doc
      ((meter.bind fun v => varGetStrForkey ctx.ihash v (asc "type")) = some (asc "table") ∨
        ∃ watcher, ctx.bodyDict (asc "watcher") = some watcher ∧ LevelsFit ctx (some watcher) meter)) :=
  ⟨create_survives_iff, update_survives_iff, set_meta_survives_iff, set_watcher_survives_iff⟩

/-- `{"tenant": {"key": 5}}` -/
def numberKeyBody : CString :=
  ⟨asc "\x7b\"tenant\": \x7b\"key\": 5\x7d\x7d", by decide +kernel⟩

def numberKeyCtx : MetaCtx :=
  bodyCtx (.dict FString.empty 0 [parsedKey "tenant" fun id h =>
    .dict id h [parsedKey "key" fun id h => .leaf id h (.int 5)]])

/-- A key that is a number ends the process. -/
theorem number_key_not_survived : parseBody 5138 (some numberKeyBody) = .ok numberKeyCtx.bodyjson ∧
    ¬ Survives nameFile (MetaCmd.update.ending numberKeyCtx nameFile) := by
  refine ⟨rfl, ?_⟩
  rintro ⟨⟨r, hr⟩, -⟩
  have hfault : (MetaCmd.update.ending numberKeyCtx nameFile).answer = .error .nullPointer := rfl
  cases hfault.symm.trans hr

end Watcher

end Opticon
