import Opticon.Api.Edits
import Opticon.Api.SetMeta

/-! The meter ids of the commands on meters and watchers: those that fit, and those that do not. -/

namespace Opticon

variable {ctx : MetaCtx} {file : MetaFile} {a : MeterPath}

section Fields

/-- A text in the definition of a request. -/
def reqText (ctx : MetaCtx) (req : Option Var) (x : String) : Option (List UInt8) :=
  req.bind fun v => varGetStrForkey ctx.ihash v (asc x)

section Copy

variable {req : Option Var} {x : String} {t : List UInt8} {v : Var}

theorem copystr_delete (h : reqText ctx req x = none) :
    copystr ctx req x (some v) = .ok (some (varDeleteKey ctx.ihash v (asc x))) := by
  unfold reqText at h
  simp only [copystr, h]

theorem copystr_set (h : reqText ctx req x = some t) (hlen : t.length ≤ 128) :
    copystr ctx req x (some v) = .ok (some (varSetForkey ctx.ihash v (asc x) (.str t))) := by
  unfold reqText at h
  simp only [copystr, h, if_neg (Nat.not_lt.mpr hlen)]

theorem copystr_long (h : reqText ctx req x = some t) (hlen : 128 < t.length) (meter : Option Var) :
    copystr ctx req x meter = .error (.reply ⟨400, some "String too long"⟩) := by
  unfold reqText at h
  simp only [copystr, h, if_pos hlen]

theorem copystr_null (h : reqText ctx req x = some t) (hlen : t.length ≤ 128) :
    copystr ctx req x none = .error (.fault .nullPointer) := by
  unfold reqText at h
  simp only [copystr, h, if_neg (Nat.not_lt.mpr hlen)]

end Copy

section Define

variable {req : Option Var} {t d : List UInt8} {v : Var}

theorem setMeterFields_null (ht : reqText ctx req "type" = some t) (hlen : t.length ≤ 128) :
    setMeterFields ctx req none = .error (.fault .nullPointer) := by
  rw [setMeterFields, copystr_null ht hlen, Outcome.error_bind]

theorem setMeterFields_undescribed (ht : reqText ctx req "type" = some t) (hlen : t.length ≤ 128)
    (hd : reqText ctx req "description" = none) :
    setMeterFields ctx req (some v) = .error (.fault .nullPointer) := by
  rw [setMeterFields, copystr_set ht hlen, Outcome.ok_bind, copystr_delete hd, Outcome.ok_bind]
  unfold reqText at hd
  rw [hd]

theorem setMeterFields_long (ht : reqText ctx req "type" = some t) (hlen : t.length ≤ 128)
    (hd : reqText ctx req "description" = some d) (hlong : 128 < d.length) :
    setMeterFields ctx req (some v) = .error (.reply ⟨400, some "String too long"⟩) := by
  rw [setMeterFields, copystr_set ht hlen, Outcome.ok_bind, copystr_long hd hlong, Outcome.error_bind]

/-- The unit is copied unless the description is the name of a type. -/
theorem setMeterFields_described (ht : reqText ctx req "type" = some t) (hlen : t.length ≤ 128)
    (hd : reqText ctx req "description" = some d) (hdlen : d.length ≤ 128) :
    setMeterFields ctx req (some v) =
      let v := varSetForkey ctx.ihash v (asc "type") (.str t)
      let v := varSetForkey ctx.ihash v (asc "description") (.str d)
      if d ≠ asc "table" then copystr ctx req "unit" (some v) else .ok (some v) := by
  rw [setMeterFields, copystr_set ht hlen, Outcome.ok_bind, copystr_set hd hdlen, Outcome.ok_bind]
  unfold reqText at hd
  rw [hd]
  rfl

end Define

def meterTypes : List (List UInt8) := ["integer", "frac", "table", "string"].map asc

theorem length_meterTypes {t : List UInt8} (ht : t ∈ meterTypes) : t.length ≤ 128 := by
  have h : ∀ t ∈ meterTypes, t.length ≤ 128 := by decide
  exact h t ht

end Fields

section Runs

/-- An edit below a meter id works on the definition of the meter. -/
theorem inMeter_bind (f : Option Var → Except Halt (Option Var)) (doc : Var) :
    ∃ g : Option Var → Var, inMeter ctx a f doc =
      f (meterIn ctx (ctx.meterid a) doc) >>= fun v => .ok (g v) := by
  rw [meterIn_eq]
  simp only [inMeter, inDictForkey_eq]
  cases f (dictSlot ctx.ihash (ctx.meterid a) (dictSlot ctx.ihash (asc "meter") (some doc))) with
  | error e => exact ⟨fun _ => doc, rfl⟩
  | ok v => exact ⟨fun _ => _, rfl⟩

theorem inMeter_error {f : Option Var → Except Halt (Option Var)} {doc : Var} {e : Halt} :
    inMeter ctx a f doc = .error e ↔ f (meterIn ctx (ctx.meterid a) doc) = .error e := by
  obtain ⟨g, hg⟩ := @inMeter_bind ctx a f doc
  rw [hg, Outcome.bind_error_iff]
  constructor
  · rintro (h | ⟨v, -, h⟩)
    · exact h
    · cases h
  · exact .inl

theorem dbGetMetadata_ok {ihash : BitVec 32} {doc : Var} :
    dbGetMetadata ihash file = .ok doc ↔ varLoadJson ihash file = .ok (some doc) := by
  constructor
  · intro h
    unfold dbGetMetadata at h
    split at h
    · cases h
    · cases h
    · rename_i hload
      rw [hload, Except.ok.inj h]
  · exact dbGetMetadata_eq

theorem dbGetMetadata_reply {ihash : BitVec 32} (r : Reply) : dbGetMetadata ihash file ≠ .error (.reply r) := by
  unfold dbGetMetadata
  split <;> simp

/-- The type in the body of a request to define a meter. -/
def reqType (ctx : MetaCtx) : Option (List UInt8) := reqText ctx (ctx.bodyDict (asc "meter")) "type"

theorem cmdTenantSetMeter_unknown (h : ∀ t, reqType ctx = some t → t ∉ meterTypes) :
    cmdTenantSetMeter ctx a file =
      dbGetMetadata ctx.ihash file >>= fun _ => .error (.reply errBadRequest) := by
  unfold cmdTenantSetMeter
  refine congrArg _ (funext fun doc => ?_)
  cases ht : reqType ctx with
  | none =>
    unfold reqType reqText at ht
    simp only [ht]
  | some t =>
    have hn := h t ht
    unfold reqType reqText at ht
    simp only [ht]
    exact if_pos hn

theorem cmdTenantSetMeter_known {t : List UInt8} (ht : reqType ctx = some t) (hmem : t ∈ meterTypes) :
    cmdTenantSetMeter ctx a file = dbGetMetadata ctx.ihash file >>= fun doc =>
      inMeter ctx a (setMeterFields ctx (ctx.bodyDict (asc "meter"))) doc := by
  unfold cmdTenantSetMeter
  refine congrArg _ (funext fun doc => ?_)
  unfold reqType reqText at ht
  simp only [ht]
  exact if_neg (not_not.mpr hmem)

end Runs

section Replies

/-- A description that is too long, or a unit that is too long and is looked at. -/
def TooLong (ctx : MetaCtx) (req : Option Var) : Prop :=
  ∃ d, reqText ctx req "description" = some d ∧
    (128 < d.length ∨ d ≠ asc "table" ∧ ∃ u, reqText ctx req "unit" = some u ∧ 128 < u.length)

/-- What makes a command on a meter answer with an error, whatever its meter id is. -/
def MetaCmd.Refuses (ctx : MetaCtx) (file : MetaFile) : MetaCmd → Prop
  | .set_meter a => ∃ doc, varLoadJson ctx.ihash file = .ok (some doc) ∧
      ((∀ t, reqType ctx = some t → t ∉ meterTypes) ∨
        (meterIn ctx (ctx.meterid a) doc).isSome ∧ TooLong ctx (ctx.bodyDict (asc "meter")))
  | .set_watcher a => ∃ doc, varLoadJson ctx.ihash file = .ok (some doc) ∧
      (meterIn ctx (ctx.meterid a) doc).bind (fun v => varGetStrForkey ctx.ihash v (asc "type")) =
        some (asc "table")
  | _ => False

theorem setMeterFields_reply {t : List UInt8} (ht : reqType ctx = some t) (hlen : t.length ≤ 128)
    (meter : Option Var) :
    (∃ r, setMeterFields ctx (ctx.bodyDict (asc "meter")) meter = .error (.reply r)) ↔
      meter.isSome ∧ TooLong ctx (ctx.bodyDict (asc "meter")) := by
  cases meter with
  | none =>
    rw [setMeterFields_null ht hlen]
    simp
  | some v =>
    cases hd : reqText ctx (ctx.bodyDict (asc "meter")) "description" with
    | none =>
      rw [setMeterFields_undescribed ht hlen hd]
      simp [TooLong, hd]
    | some d =>
      by_cases hlong : 128 < d.length
      · rw [setMeterFields_long ht hlen hd hlong]
        simp [TooLong, hd, hlong]
      · rw [setMeterFields_described ht hlen hd (Nat.not_lt.mp hlong)]
        by_cases htable : d = asc "table"
        · have hshort : (asc "table").length ≤ 128 := by decide
          simp [TooLong, hd, htable, hshort]
        · simp only [ne_eq, htable, not_false_eq_true, if_true]
          cases hu : reqText ctx (ctx.bodyDict (asc "meter")) "unit" with
          | none =>
            rw [copystr_delete hu]
            simp [TooLong, hd, hlong, hu]
          | some u =>
            by_cases hulong : 128 < u.length
            · rw [copystr_long hu hulong]
              simp [TooLong, hd, htable, hu, hulong]
            · rw [copystr_set hu (Nat.not_lt.mp hulong)]
              simp [TooLong, hd, hlong, hu, hulong]

theorem foldlM_no_reply {σ ι : Type} {f : σ → ι → Except Halt σ} (hf : ∀ s x r, f s x ≠ .error (.reply r))
    (xs : List ι) (s : σ) (r : Reply) : xs.foldlM f s ≠ .error (.reply r) := by
  induction xs generalizing s with
  | nil =>
    intro h
    cases h
  | cons x xs ih => exact Outcome.bind_ne_error (hf s x r) fun t _ => ih t

theorem setLevel_no_reply (watcher : Option Var) (meter : Option Var) (level : List UInt8) (r : Reply) :
    setLevel ctx watcher level meter ≠ .error (.reply r) := by
  simp only [setLevel]
  split
  · simp
  · rw [inDictForkey_eq]
    refine Outcome.bind_ne_error ?_ fun _ _ => by simp
    split <;> simp

theorem setLevels_reply (watcher meter : Option Var) :
    (∃ r, setLevels ctx watcher meter = .error (.reply r)) ↔
      meter.bind (fun v => varGetStrForkey ctx.ihash v (asc "type")) = some (asc "table") := by
  simp only [setLevels]
  split
  · rename_i htable
    simp [htable]
  · rename_i htable
    simp only [htable, iff_false, not_exists]
    exact foldlM_no_reply (fun meter level r => setLevel_no_reply watcher meter level r) watcherLevels meter

theorem deleteKey_no_reply (key : List UInt8) (v : Option Var) (r : Reply) :
    deleteKey ctx key v ≠ .error (.reply r) := by
  cases v <;> simp [deleteKey]

theorem bind_reply {α β : Type} {x : Except Halt α} {f : α → Except Halt β}
    (hx : ∀ r, x ≠ .error (.reply r)) :
    (∃ r, (x >>= f) = .error (.reply r)) ↔ ∃ y, x = .ok y ∧ ∃ r, f y = .error (.reply r) := by
  simp only [Outcome.bind_error_iff, hx, false_or]
  constructor
  · rintro ⟨r, y, hy, h⟩
    exact ⟨y, hy, r, h⟩
  · rintro ⟨y, hy, r, h⟩
    exact ⟨r, y, hy, h⟩

theorem inDictForkey_no_reply {ihash : BitVec 32} {key : List UInt8}
    {f : Option Var → Except Halt (Option Var)} (hf : ∀ v r, f v ≠ .error (.reply r)) (v : Option Var)
    (r : Reply) : inDictForkey ihash key f v ≠ .error (.reply r) := by
  rw [inDictForkey_eq]
  exact Outcome.bind_ne_error (hf _ r) fun _ _ => by simp

/-- A command on a meter answers with an error exactly if it refuses what it is asked for. -/
theorem MetaCmd.run_reply {cmd : MetaCmd} (ha : cmd.meterPath = some a) :
    (∃ r, cmd.run ctx file = .error (.reply r)) ↔ cmd.Refuses ctx file := by
  cases cmd with
  | update => cases ha
  | set_meta => cases ha
  | set_meter a =>
    by_cases hk : ∃ t, reqType ctx = some t ∧ t ∈ meterTypes
    · obtain ⟨t, ht, hmem⟩ := hk
      simp only [MetaCmd.run, MetaCmd.Refuses, cmdTenantSetMeter_known ht hmem,
        bind_reply dbGetMetadata_reply, dbGetMetadata_ok, inMeter_error,
        setMeterFields_reply ht (length_meterTypes hmem), ht, Option.some.injEq, forall_eq', hmem,
        not_true_eq_false, false_or]
    · have hunknown : ∀ t, reqType ctx = some t → t ∉ meterTypes := fun t ht hmem => hk ⟨t, ht, hmem⟩
      simp only [MetaCmd.run, MetaCmd.Refuses, cmdTenantSetMeter_unknown hunknown,
        bind_reply dbGetMetadata_reply, dbGetMetadata_ok]
      constructor
      · rintro ⟨doc, hload, -⟩
        exact ⟨doc, hload, .inl hunknown⟩
      · rintro ⟨doc, hload, -⟩
        exact ⟨doc, hload, _, rfl⟩
  | set_watcher a =>
    simp only [MetaCmd.run, MetaCmd.Refuses, cmdTenantSetWatcher, bind_reply dbGetMetadata_reply,
      dbGetMetadata_ok, inMeter_error, setLevels_reply]
  | delete_meter a =>
    simp only [MetaCmd.run, MetaCmd.Refuses, iff_false, not_exists, cmdTenantDeleteMeter]
    intro r
    refine Outcome.bind_ne_error (dbGetMetadata_reply r) fun doc _ => ?_
    refine Outcome.bind_ne_error (inDictForkey_no_reply (deleteKey_no_reply _) _ r) fun _ _ => ?_
    simp
  | delete_watcher a =>
    simp only [MetaCmd.run, MetaCmd.Refuses, iff_false, not_exists, cmdTenantDeleteWatcher]
    intro r
    refine Outcome.bind_ne_error (dbGetMetadata_reply r) fun doc _ => ?_
    rw [ne_eq, inMeter_error]
    exact foldlM_no_reply (fun v level r => deleteKey_no_reply level v r) watcherLevels _ r

theorem copystr_status {req : Option Var} {x : String} {meter : Option Var} {r : Reply}
    (h : copystr ctx req x meter = .error (.reply r)) : r.status = 400 := by
  unfold copystr at h
  split at h
  · split at h
    · cases h
      rfl
    · split at h <;> cases h
  · cases h
  · cases h

/-- Every error of a command on a meter is that of a bad request. -/
theorem MetaCmd.run_status {cmd : MetaCmd} (ha : cmd.meterPath = some a) {r : Reply}
    (h : cmd.run ctx file = .error (.reply r)) : r.status = 400 := by
  cases cmd with
  | update => cases ha
  | set_meta => cases ha
  | set_meter a =>
    have h : cmdTenantSetMeter ctx a file = .error (.reply r) := h
    by_cases hk : ∃ t, reqType ctx = some t ∧ t ∈ meterTypes
    · obtain ⟨t, ht, hmem⟩ := hk
      rw [cmdTenantSetMeter_known ht hmem, Outcome.bind_error_iff] at h
      obtain h | ⟨doc, -, h⟩ := h
      · exact absurd h (dbGetMetadata_reply r)
      · rw [inMeter_error, setMeterFields, Outcome.bind_error_iff] at h
        obtain h | ⟨v, -, h⟩ := h
        · exact copystr_status h
        · obtain h | ⟨w, -, h⟩ := Outcome.bind_error_iff.mp h
          · exact copystr_status h
          · split at h
            · cases h
            · split at h
              · exact copystr_status h
              · cases h
    · have hunknown : ∀ t, reqType ctx = some t → t ∉ meterTypes := fun t ht hmem => hk ⟨t, ht, hmem⟩
      rw [cmdTenantSetMeter_unknown hunknown, Outcome.bind_error_iff] at h
      obtain h | ⟨doc, -, h⟩ := h
      · exact absurd h (dbGetMetadata_reply r)
      · cases h
        rfl
  | set_watcher a =>
    have h : cmdTenantSetWatcher ctx a file = .error (.reply r) := h
    rw [cmdTenantSetWatcher, Outcome.bind_error_iff] at h
    obtain h | ⟨doc, -, h⟩ := h
    · exact absurd h (dbGetMetadata_reply r)
    · rw [inMeter_error] at h
      simp only [setLevels] at h
      split at h
      · cases h
        rfl
      · exact absurd h (foldlM_no_reply (fun v level r => setLevel_no_reply _ v level r) watcherLevels _ r)
  | delete_meter a => exact absurd (MetaCmd.run_reply rfl |>.mp ⟨r, h⟩) id
  | delete_watcher a => exact absurd (MetaCmd.run_reply rfl |>.mp ⟨r, h⟩) id

end Replies

section Ids

/-- The id that the elements of the URL make. -/
def MeterPath.joined (a : MeterPath) : UrlText :=
  match a.second with
  | none => a.first
  | some second => a.first ++ 47 :: second

theorem setMeterid_joined {id : UrlText} (h : setMeterid a = some id) : id = a.joined ∧ id.length ≤ 11 := by
  cases hsecond : a.second with
  | none =>
    simp only [setMeterid, MeterPath.joined, hsecond] at h ⊢
    split at h
    · cases h
    · obtain rfl := Option.some.inj h
      exact ⟨rfl, by omega⟩
  | some second =>
    simp only [setMeterid, MeterPath.joined, hsecond] at h ⊢
    split at h
    · cases h
    · obtain rfl := Option.some.inj h
      refine ⟨rfl, ?_⟩
      simp only [List.length_append, List.length_cons]
      omega

/-- A command that works on one meter id only: not on what is left in the memory of the id, and on
no other meter and no other metadata. -/
structure WorksOn (ctx : MetaCtx) (file : MetaFile) (cmd : MetaCmd) (id : UrlText) : Prop where
  leftover : ∀ s, cmd.ending { ctx with stackId := s } file = cmd.ending ctx file
  edits : ∀ doc doc', varLoadJson ctx.ihash file = .ok (some doc) → cmd.run ctx file = .ok doc' →
    EditsOnly ctx.ihash id doc doc'

/-- What a command is to do about a meter id: refuse one that does not fit, and work on one that
does. -/
structure MindsId (ctx : MetaCtx) (file : MetaFile) (cmd : MetaCmd) (a : MeterPath) : Prop where
  rejected : setMeterid a = none → (cmd.ending ctx file).stored = file ∧
    ∃ env, (cmd.ending ctx file).answer = .ok ⟨400, env⟩
  accepted : ∀ id, setMeterid a = some id → (id = a.joined ∧ id.length ≤ 11) ∧ WorksOn ctx file cmd id

theorem MetaCmd.ending_refused {cmd : MetaCmd} (ha : cmd.meterPath = some a) :
    ((cmd.ending ctx file).stored = file ∧ ∃ env, (cmd.ending ctx file).answer = .ok ⟨400, env⟩) ↔
      cmd.Refuses ctx file := by
  rw [← MetaCmd.run_reply ha]
  unfold MetaCmd.ending
  constructor
  · rintro ⟨-, env, h⟩
    split at h
    · cases h
    · rename_i r hrun
      exact ⟨r, hrun⟩
    · cases hres : cmd.response ctx file _ (cmd.env ctx.ihash) with
      | error f =>
        rw [hres] at h
        cases h
      | ok env' =>
        rw [hres] at h
        cases h
  · rintro ⟨r, hrun⟩
    rw [hrun]
    refine ⟨rfl, (errGeneric ctx.ihash (cmd.env ctx.ihash) r).response, ?_⟩
    have hstatus := MetaCmd.run_status ha hrun
    have heq : (errGeneric ctx.ihash (cmd.env ctx.ihash) r).status = r.status := by
      unfold errGeneric
      split <;> rfl
    rw [← hstatus, ← heq]

theorem meterid_of_accepted {id : UrlText} (h : setMeterid a = some id) (ctx : MetaCtx) :
    ctx.meterid a = id := by
  rw [MetaCtx.meterid, h, Option.getD_some]

theorem setMeterid_fitsKey {id : UrlText} (h : setMeterid a = some id) : FitsKey id := by
  obtain ⟨hne, hlen, h0, -⟩ := setMeterid_keyText h
  exact fitsKey_of_short hne hlen h0

/-- What is left in the memory of the meter id does not matter once one is written there. -/
theorem MetaCmd.ending_leftover {cmd : MetaCmd} (ha : cmd.meterPath = some a) {id : UrlText}
    (hid : setMeterid a = some id) (s : UrlText) :
    cmd.ending { ctx with stackId := s } file = cmd.ending ctx file := by
  have hm (ctx : MetaCtx) : ctx.meterid a = id := meterid_of_accepted hid ctx
  cases cmd with
  | update => cases ha
  | set_meta => cases ha
  | set_meter b =>
    obtain rfl := Option.some.inj ha
    simp only [MetaCmd.ending, MetaCmd.run, MetaCmd.response, cmdTenantSetMeter, definedMeter, inMeter, hm]
    rfl
  | delete_meter b =>
    obtain rfl := Option.some.inj ha
    simp only [MetaCmd.ending, MetaCmd.run, MetaCmd.response, cmdTenantDeleteMeter, hm]
    rfl
  | set_watcher b =>
    obtain rfl := Option.some.inj ha
    simp only [MetaCmd.ending, MetaCmd.run, MetaCmd.response, cmdTenantSetWatcher, inMeter, hm]
    rfl
  | delete_watcher b =>
    obtain rfl := Option.some.inj ha
    simp only [MetaCmd.ending, MetaCmd.run, MetaCmd.response, cmdTenantDeleteWatcher, inMeter, hm]
    rfl

/-- Nothing but the definition under the id is edited. -/
theorem MetaCmd.run_editsOnly {cmd : MetaCmd} (ha : cmd.meterPath = some a) {id : UrlText}
    (hid : setMeterid a = some id) {doc doc' : Var} (hload : varLoadJson ctx.ihash file = .ok (some doc))
    (hrun : cmd.run ctx file = .ok doc') : EditsOnly ctx.ihash id doc doc' := by
  have hdoc := (varLoadJson_content hload).1
  have hm : ctx.meterid a = id := meterid_of_accepted hid ctx
  have hfit := setMeterid_fitsKey hid
  subst hm
  cases cmd with
  | update => cases ha
  | set_meta => cases ha
  | set_meter b =>
    obtain rfl := Option.some.inj ha
    have hrun : cmdTenantSetMeter ctx b file = .ok doc' := hrun
    by_cases hk : ∃ t, reqType ctx = some t ∧ t ∈ meterTypes
    · obtain ⟨t, ht, hmem⟩ := hk
      rw [cmdTenantSetMeter_known ht hmem, dbGetMetadata_eq hload, Outcome.ok_bind] at hrun
      exact inMeter_editsOnly hdoc (setMeterFields_keepsKey _) hfit hrun
    · have hunknown : ∀ t, reqType ctx = some t → t ∉ meterTypes := fun t ht hmem => hk ⟨t, ht, hmem⟩
      rw [cmdTenantSetMeter_unknown hunknown, dbGetMetadata_eq hload, Outcome.ok_bind] at hrun
      cases hrun
  | delete_meter b =>
    obtain rfl := Option.some.inj ha
    have hrun : cmdTenantDeleteMeter ctx b file = .ok doc' := hrun
    rw [cmdTenantDeleteMeter, dbGetMetadata_eq hload, Outcome.ok_bind] at hrun
    obtain ⟨v, hv, hrun⟩ := Outcome.bind_ok_iff.mp hrun
    obtain ⟨w, rfl, hw⟩ := inDictForkey_underMeters hdoc (deleteKey_keepsKey (ctx.meterid b)) hv
    obtain rfl := Except.ok.inj hrun
    refine hw.editsOnly fun id hash ms m' hm' k hk => ?_
    obtain rfl := Option.some.inj (Except.ok.inj hm')
    exact @varDeleteKey_other ctx.ihash (ctx.meterid b) k (.dict id hash ms) hk.symm
  | set_watcher b =>
    obtain rfl := Option.some.inj ha
    have hrun : cmdTenantSetWatcher ctx b file = .ok doc' := hrun
    rw [cmdTenantSetWatcher, dbGetMetadata_eq hload, Outcome.ok_bind] at hrun
    exact inMeter_editsOnly hdoc (setLevels_keepsKey _) hfit hrun
  | delete_watcher b =>
    obtain rfl := Option.some.inj ha
    have hrun : cmdTenantDeleteWatcher ctx b file = .ok doc' := hrun
    rw [cmdTenantDeleteWatcher, dbGetMetadata_eq hload, Outcome.ok_bind] at hrun
    exact inMeter_editsOnly hdoc deleteLevels_keepsKey hfit hrun

/-- A command on a meter minds its id exactly if the id fits or the command refuses what it is asked
for anyway. -/
theorem minds_id_iff {cmd : MetaCmd} (ctx : MetaCtx) (file : MetaFile) (ha : cmd.meterPath = some a) :
    MindsId ctx file cmd a ↔ (setMeterid a).isSome ∨ cmd.Refuses ctx file := by
  constructor
  · intro h
    cases hid : setMeterid a with
    | none => exact .inr ((MetaCmd.ending_refused ha).mp (h.rejected hid))
    | some id => exact .inl rfl
  · intro h
    refine ⟨fun hnone => ?_, fun id hid => ⟨setMeterid_joined hid, MetaCmd.ending_leftover ha hid, ?_⟩⟩
    · rw [hnone] at h
      exact (MetaCmd.ending_refused ha).mpr (h.resolve_left (by simp))
    · intro doc doc' hload hrun
      exact MetaCmd.run_editsOnly ha hid hload hrun

/-- A long name in one element of a URL. -/
def longPath : MeterPath where
  first := asc "twelvecharsx"
  second := none
  valid := ⟨by decide, by simp⟩

/-- `DELETE /$TENANT/meter/twelvecharsx`, with the empty text left where the id belongs: that the
id does not fit is forgotten, and the metadata is stored. -/
theorem long_id_forgotten : setMeterid longPath = none ∧
    ¬ MindsId (bodyCtx (varAlloc .null)) nameFile (.delete_meter longPath) longPath := by
  refine ⟨rfl, fun h => ?_⟩
  obtain ⟨-, env, hanswer⟩ := h.rejected rfl
  have hstatus : (((MetaCmd.delete_meter longPath).ending (bodyCtx (varAlloc .null)) nameFile).answer.toOption.map
      Answer.status) = some 200 := by
    decide +kernel
  rw [hanswer] at hstatus
  cases hstatus

/-- A short name. -/
def shortPath : MeterPath where
  first := asc "net"
  second := some (asc "in")
  valid := ⟨by decide, by simp; decide⟩

theorem minds_id_short : MindsId (bodyCtx (varAlloc .null)) nameFile (.delete_meter shortPath) shortPath ↔
    (setMeterid shortPath).isSome ∨
      (MetaCmd.delete_meter shortPath).Refuses (bodyCtx (varAlloc .null)) nameFile :=
  minds_id_iff (bodyCtx (varAlloc .null)) nameFile rfl

end Ids

end Opticon
