import Opticon.Api.User

/-! Who the commands of the routing table run for. -/

namespace Opticon

variable {T : Tokens} {url : UrlText} {ctx ctx' : ReqContext} {m : ReqMatch} {c : Cmd}
  {arg : List UrlText}

/-- A walk that does not end in one part of a table goes on in the next part. -/
theorem reqMatchlistDispatch_append (as bs : List ReqMatch) (ctx : ReqContext) :
    reqMatchlistDispatch T url (as ++ bs) ctx =
      match reqMatchlistDispatch T url as ctx with
      | .noMatches ctx => reqMatchlistDispatch T url bs ctx
      | r => r := by
  induction as generalizing ctx with
  | nil => rfl
  | cons crsr rest ih =>
    simp only [List.cons_append, reqMatchlistDispatch]
    split
    · split
      · exact ih ctx
      · split
        · rfl
        · split
          · rfl
          · exact ih _
    · exact ih ctx

/-- The parts of the context that say who asks for what. -/
structure SameUser (ctx ctx' : ReqContext) : Prop where
  method : ctx'.method = ctx.method
  userlevel : ctx'.userlevel = ctx.userlevel
  auth_tenants : ctx'.auth_tenants = ctx.auth_tenants

theorem SameUser.refl (ctx : ReqContext) : SameUser ctx ctx := ⟨rfl, rfl, rfl⟩

theorem SameUser.trans {ctx₁ ctx₂ ctx₃ : ReqContext} (h : SameUser ctx₁ ctx₂)
    (h' : SameUser ctx₂ ctx₃) : SameUser ctx₁ ctx₃ :=
  ⟨h'.method.trans h.method, h'.userlevel.trans h.userlevel, h'.auth_tenants.trans h.auth_tenants⟩

theorem fltCheckTenant_ok (h : fltCheckTenant ctx arg = .ok ctx') : SameUser ctx ctx' ∧
    ∃ tenant, arg.head? = some tenant ∧ ctx'.tenantid = mkuuid tenant ∧
      ctx'.mayAccess ctx'.tenantid := by
  cases arg with
  | nil => cases h
  | cons tenant rest =>
    simp only [fltCheckTenant] at h
    split at h
    · cases h
    · split at h
      · rename_i hmay
        obtain rfl := Except.ok.inj h
        exact ⟨⟨rfl, rfl, rfl⟩, tenant, rfl, rfl, hmay⟩
      · cases h

theorem fltCheckHost_ok (h : fltCheckHost ctx arg = .ok ctx') :
    SameUser ctx ctx' ∧ ctx'.tenantid = ctx.tenantid := by
  match arg with
  | [] => cases h
  | [_] => cases h
  | _ :: host :: _ =>
    simp only [fltCheckHost] at h
    split at h
    · obtain rfl := Except.ok.inj h
      exact ⟨⟨rfl, rfl, rfl⟩, rfl⟩
    · cases h

theorem fltAddCors_ok (h : fltAddCors ctx = .ok ctx') : ctx' = ctx := by
  unfold fltAddCors at h
  split at h
  · cases h
  · exact (Except.ok.inj h).symm

theorem fltCheckAdmin_ok (h : fltCheckAdmin ctx = .ok ctx') :
    ctx' = ctx ∧ ctx.userlevel = .admin := by
  unfold fltCheckAdmin at h
  split at h
  · cases h
  · rename_i hl
    exact ⟨(Except.ok.inj h).symm, not_not.mp hl⟩

/-- Who asks is settled by the filter that looks at tokens. -/
theorem Filter.run_sameUser {f : Filter} (hf : f ≠ .checkValiduser) (h : f.run T ctx arg = .ok ctx') :
    SameUser ctx ctx' := by
  cases f with
  | addCors =>
    obtain rfl := fltAddCors_ok h
    exact .refl _
  | checkValiduser => exact absurd rfl hf
  | checkAdmin =>
    obtain ⟨rfl, -⟩ := fltCheckAdmin_ok h
    exact .refl _
  | checkTenant => exact (fltCheckTenant_ok h).1
  | checkHost => exact (fltCheckHost_ok h).1

theorem Filter.run_method {f : Filter} (h : f.run T ctx arg = .ok ctx') :
    ctx'.method = ctx.method := by
  by_cases hf : f = .checkValiduser
  · subst hf
    simp only [Filter.run, fltCheckValiduser] at h
    split at h
    · split at h
      · rw [← Except.ok.inj h]
      · split_ifs at h <;> rw [← Except.ok.inj h]
    · split at h
      · cases h
      · split at h
        · split at h
          · cases h
          · rw [← Except.ok.inj h]
        · split at h
          · cases h
          · rw [← Except.ok.inj h]
  · exact (Filter.run_sameUser hf h).method

/-- A relation to the context in which a command runs or the table ends. -/
def Dispatched.Keeps (R : ReqContext → ReqContext → Prop) (ctx : ReqContext) : Dispatched → Prop
  | .runs _ _ _ ctx' | .noMatches ctx' => R ctx ctx'
  | .refused _ => True

/-- What the filters keep is kept by a walk over their table. -/
theorem reqMatchlistDispatch_keeps {R : ReqContext → ReqContext → Prop} (hrefl : ∀ ctx, R ctx ctx)
    (htrans : ∀ ctx₁ ctx₂ ctx₃, R ctx₁ ctx₂ → R ctx₂ ctx₃ → R ctx₁ ctx₃) {l : List ReqMatch}
    (hl : ∀ m ∈ l, ∀ f ctx arg ctx', m.func = .flt f → f.run T ctx arg = .ok ctx' → R ctx ctx') :
    (reqMatchlistDispatch T url l ctx).Keeps R ctx := by
  induction l generalizing ctx with
  | nil => exact hrefl ctx
  | cons crsr rest ih =>
    have ih {ctx : ReqContext} := @ih ctx fun m hm => hl m (List.mem_cons_of_mem _ hm)
    simp only [reqMatchlistDispatch]
    by_cases hmeth : ctx.method ∈ crsr.method_mask
    · rw [if_pos hmeth]
      cases hcheck : reqMatchCheck crsr.matchstr url with
      | none => exact ih
      | some arg =>
        cases hfunc : crsr.func with
        | cmd c => exact hrefl ctx
        | flt f =>
          simp only
          cases hrun : f.run T ctx arg with
          | error reply => exact trivial
          | ok ctx₁ =>
            have h₁ := hl crsr List.mem_cons_self f ctx arg ctx₁ hfunc hrun
            have h₂ := @ih ctx₁
            simp only
            revert h₂
            cases reqMatchlistDispatch T url rest ctx₁ with
            | refused _ => exact id
            | runs _ _ _ ctx₂ => exact htrans ctx ctx₁ ctx₂ h₁
            | noMatches ctx₂ => exact htrans ctx ctx₁ ctx₂ h₁
    · rw [if_neg hmeth]
      exact ih

/-- The filters that let a request pass through a part of a table do not change who asks. -/
theorem sameUser_of_dispatch {l : List ReqMatch} (hl : ∀ m ∈ l, m.func ≠ .flt .checkValiduser) :
    (reqMatchlistDispatch T url l ctx).Keeps SameUser ctx := by
  apply reqMatchlistDispatch_keeps SameUser.refl fun _ _ _ => SameUser.trans
  intro m hm f ctx arg ctx' hf hrun
  exact Filter.run_sameUser (fun h => hl m hm (h ▸ hf)) hrun

/-- Past the filter that reads it, the tenant stays. -/
theorem tenantid_of_dispatch {l : List ReqMatch}
    (hl : ∀ m ∈ l, m.func ≠ .flt .checkValiduser ∧ m.func ≠ .flt .checkTenant) :
    (reqMatchlistDispatch T url l ctx).Keeps (fun ctx ctx' => ctx'.tenantid = ctx.tenantid) ctx := by
  apply reqMatchlistDispatch_keeps (R := fun ctx ctx' => ctx'.tenantid = ctx.tenantid)
    (fun _ => rfl) fun _ _ _ h h' => h'.trans h
  intro m hm f ctx arg ctx' hf hrun
  obtain ⟨hv, ht⟩ := hl m hm
  cases f with
  | addCors => rw [fltAddCors_ok hrun]
  | checkValiduser => exact absurd hf hv
  | checkAdmin => rw [(fltCheckAdmin_ok hrun).1]
  | checkTenant => exact absurd hf ht
  | checkHost => exact (fltCheckHost_ok hrun).2

/-- A command that runs stands in the table and matches. -/
theorem reqMatchlistDispatch_runs {l : List ReqMatch}
    (h : reqMatchlistDispatch T url l ctx = .runs m c arg ctx') :
    m ∈ l ∧ m.func = .cmd c ∧ ctx.method ∈ m.method_mask ∧
      reqMatchCheck m.matchstr url = some arg := by
  induction l generalizing ctx with
  | nil => cases h
  | cons crsr rest ih =>
    have hrest {ctx₁ : ReqContext} (hm : ctx₁.method = ctx.method)
        (h : reqMatchlistDispatch T url rest ctx₁ = .runs m c arg ctx') :
        m ∈ crsr :: rest ∧ m.func = .cmd c ∧ ctx.method ∈ m.method_mask ∧
          reqMatchCheck m.matchstr url = some arg := by
      obtain ⟨hmem, hfunc, hmeth, hcheck⟩ := ih h
      exact ⟨List.mem_cons_of_mem _ hmem, hfunc, hm ▸ hmeth, hcheck⟩
    simp only [reqMatchlistDispatch] at h
    split at h
    · rename_i hmeth
      split at h
      · exact hrest rfl h
      · rename_i hcheck
        split at h
        · rename_i hfunc
          injection h with h₁ h₂ h₃ h₄
          subst h₁ h₂ h₃ h₄
          exact ⟨List.mem_cons_self, hfunc, hmeth, hcheck⟩
        · split at h
          · cases h
          · rename_i hrun
            exact hrest (Filter.run_method hrun) h
    · exact hrest rfl h

/-- A filter that matches whatever a command further down matches has let the request pass
when the command runs. -/
theorem passed_filter {as bs : List ReqMatch} {f : ReqMatch} {flt : Filter} {a : List UrlText}
    (h : reqMatchlistDispatch T url (as ++ f :: bs) ctx = .runs m c arg ctx') (has : m ∉ as)
    (hf : f.func = .flt flt) (hmask : ∀ meth ∈ m.method_mask, meth ∈ f.method_mask)
    (hcheck : reqMatchCheck m.matchstr url = some arg → reqMatchCheck f.matchstr url = some a) :
    ∃ ctx₁ ctx₂, reqMatchlistDispatch T url as ctx = .noMatches ctx₁ ∧
      flt.run T ctx₁ a = .ok ctx₂ ∧ reqMatchlistDispatch T url bs ctx₂ = .runs m c arg ctx' := by
  rw [reqMatchlistDispatch_append] at h
  cases hhead : reqMatchlistDispatch T url as ctx with
  | refused reply =>
    rw [hhead] at h
    cases h
  | runs m' c' arg' ctx₁ =>
    rw [hhead] at h
    injection h with h₁
    exact absurd (h₁ ▸ (reqMatchlistDispatch_runs hhead).1) has
  | noMatches ctx₁ =>
    rw [hhead] at h
    change reqMatchlistDispatch T url (f :: bs) ctx₁ = .runs m c arg ctx' at h
    obtain ⟨-, -, hmeth, hmatch⟩ := reqMatchlistDispatch_runs h
    simp only [reqMatchlistDispatch, if_pos (hmask _ hmeth), hcheck hmatch, hf] at h
    split at h
    · cases h
    · exact ⟨ctx₁, _, rfl, ‹_›, h⟩

/-- Where a filter of the table stands. -/
theorem setupMatches_split :
    setupMatches = setupMatches.take 3 ++ path "*" REQ_ANY (.flt .checkValiduser) ::
        setupMatches.drop 4 ∧
      setupMatches = setupMatches.take 7 ++ path "/session" [.get] (.flt .checkAdmin) ::
        setupMatches.drop 8 ∧
      setupMatches = setupMatches.take 11 ++ path "/any*" REQ_ANY (.flt .checkAdmin) ::
        setupMatches.drop 12 ∧
      setupMatches = setupMatches.take 19 ++ path "/%U" [.delete] (.flt .checkAdmin) ::
        setupMatches.drop 20 :=
  ⟨rfl, rfl, rfl, rfl⟩

theorem mem_REQ_ANY (meth : ReqMethod) : meth ∈ REQ_ANY := by
  cases meth <;> decide

theorem setupMatches_validuser : ∀ m ∈ setupMatches.drop 4, m.func ≠ .flt .checkValiduser := by
  decide

/-- The user in whose name a command runs is the one that the tokens of the request belong
to. -/
structure Asked (T : Tokens) (ctx ctx' : ReqContext) (left : ReqContext) : Prop where
  valid : fltCheckValiduser T ctx = .ok left
  same : SameUser left ctx'

theorem asked_of_runs (h : reqMatchlistDispatch T url setupMatches ctx = .runs m c arg ctx')
    (hm : m ∉ setupMatches.take 3) : ∃ left, Asked T ctx ctx' left := by
  have hmem := (reqMatchlistDispatch_runs h).1
  have hne : ∀ m ∈ setupMatches, m.matchstr ≠ [] := by decide
  rw [setupMatches_split.1] at h
  obtain ⟨ctx₁, left, hhead, hrun, htail⟩ := passed_filter h hm rfl (fun meth _ => mem_REQ_ANY meth)
    (reqMatchCheck_all (hne m hmem))
  have hctx : (reqMatchlistDispatch T url (setupMatches.take 3) ctx).Keeps Eq ctx := by
    apply reqMatchlistDispatch_keeps Eq.refl fun _ _ _ => Eq.trans
    intro m hm f ctx arg ctx' hf hrun
    have hcors : ∀ m ∈ setupMatches.take 3,
        m.func ∈ [.cmd .dancing_bears, .flt .addCors, .cmd .login] := by decide
    have hf' := hcors m hm
    rw [hf] at hf'
    obtain rfl : f = .addCors := by simpa using hf'
    exact (fltAddCors_ok hrun).symm
  have hsame : (reqMatchlistDispatch T url (setupMatches.drop 4) left).Keeps SameUser left :=
    sameUser_of_dispatch setupMatches_validuser
  rw [hhead] at hctx
  rw [htail] at hsame
  obtain rfl : ctx = ctx₁ := hctx
  exact ⟨left, hrun, hsame⟩

theorem ReqContext.mayAccess_of_sameUser {tenantid : Uuid} (h : SameUser ctx ctx') :
    ctx'.mayAccess tenantid ↔ ctx.mayAccess tenantid := by
  simp only [ReqContext.mayAccess, h.userlevel, h.auth_tenants]

theorem tenant_of_runs (h : reqMatchlistDispatch T url setupMatches ctx = .runs m c arg ctx')
    (hm : asc "/%U" <+: m.matchstr) :
    ctx'.tenantid = mkuuid (firstSegment url) ∧ ctx'.mayAccess ctx'.tenantid := by
  have hhead : ∀ m ∈ setupMatchesHead, ¬ asc "/%U" <+: m.matchstr := by decide
  have htail : ∀ m ∈ setupMatchesTail,
      m.func ≠ .flt .checkValiduser ∧ m.func ≠ .flt .checkTenant := by decide
  obtain ⟨rest, hrest⟩ := hm
  obtain ⟨ctx₁, ctx₂, -, hrun, hruns⟩ := passed_filter (f := setupMatchesTenant) h
    (fun hmem => hhead m hmem ⟨rest, hrest⟩) rfl (fun meth _ => mem_REQ_ANY meth)
    fun hcheck => reqMatchCheck_tenant (hrest ▸ hcheck)
  change fltCheckTenant ctx₁ [firstSegment url] = .ok ctx₂ at hrun
  obtain ⟨-, tenant, htenant, hid, hmay⟩ := fltCheckTenant_ok hrun
  obtain rfl : firstSegment url = tenant := Option.some.inj htenant
  have hsame : (reqMatchlistDispatch T url setupMatchesTail ctx₂).Keeps SameUser ctx₂ :=
    sameUser_of_dispatch fun m hm => (htail m hm).1
  have hkept : (reqMatchlistDispatch T url setupMatchesTail ctx₂).Keeps
      (fun ctx ctx' => ctx'.tenantid = ctx.tenantid) ctx₂ := tenantid_of_dispatch htail
  rw [hruns] at hsame hkept
  have hid' : ctx'.tenantid = ctx₂.tenantid := hkept
  rw [hid', ReqContext.mayAccess_of_sameUser hsame]
  exact ⟨hid, hmay⟩

/-- A command behind a filter for administrators. -/
theorem admin_of_runs {as bs : List ReqMatch} {f : ReqMatch} {a : List UrlText}
    (h : reqMatchlistDispatch T url setupMatches ctx = .runs m c arg ctx')
    (hsplit : setupMatches = as ++ f :: bs) (hf : f.func = .flt .checkAdmin)
    (hbs : ∀ m ∈ bs, m.func ≠ .flt .checkValiduser) (has : m ∉ as)
    (hmask : ∀ meth ∈ m.method_mask, meth ∈ f.method_mask)
    (hcheck : reqMatchCheck m.matchstr url = some arg → reqMatchCheck f.matchstr url = some a) :
    ctx'.userlevel = .admin := by
  rw [hsplit] at h
  obtain ⟨ctx₁, ctx₂, -, hrun, hruns⟩ := passed_filter h has hf hmask hcheck
  obtain ⟨rfl, hadmin⟩ := fltCheckAdmin_ok hrun
  have hsame : (reqMatchlistDispatch T url bs ctx₂).Keeps SameUser ctx₂ := sameUser_of_dispatch hbs
  rw [hruns] at hsame
  rw [SameUser.userlevel hsame, hadmin]

theorem admin_of_tenant_delete
    (h : reqMatchlistDispatch T url setupMatches ctx = .runs m .tenant_delete arg ctx') :
    ctx'.userlevel = .admin := by
  have hm : ∀ m ∈ setupMatches, m.func = .cmd .tenant_delete →
      m = path "/%U" [.delete] (.cmd .tenant_delete) := by decide
  obtain ⟨hmem, hfunc, -, -⟩ := reqMatchlistDispatch_runs h
  obtain rfl := hm m hmem hfunc
  exact admin_of_runs h setupMatches_split.2.2.2 rfl (by decide) (by decide)
    (fun _ => id) id

theorem admin_of_list_sessions
    (h : reqMatchlistDispatch T url setupMatches ctx = .runs m .list_sessions arg ctx') :
    ctx'.userlevel = .admin := by
  have hm : ∀ m ∈ setupMatches, m.func = .cmd .list_sessions →
      m = path "/session" [.get] (.cmd .list_sessions) := by decide
  obtain ⟨hmem, hfunc, -, -⟩ := reqMatchlistDispatch_runs h
  obtain rfl := hm m hmem hfunc
  exact admin_of_runs h setupMatches_split.2.1 rfl (by decide) (by decide)
    (fun _ => id) id

theorem admin_of_any (h : reqMatchlistDispatch T url setupMatches ctx = .runs m c arg ctx')
    (hm : asc "/any/" <+: m.matchstr) : ctx'.userlevel = .admin := by
  have hhead : ∀ m ∈ setupMatches.take 11, ¬ asc "/any/" <+: m.matchstr := by decide
  obtain ⟨rest, hrest⟩ := hm
  exact admin_of_runs h setupMatches_split.2.2.1 rfl (by decide)
    (fun hmem => hhead m hmem ⟨rest, hrest⟩) (fun meth _ => mem_REQ_ANY meth)
    fun hcheck => reqMatchCheck_any (hrest ▸ hcheck)

/-- The user database changes at the hands of an administrator only. -/
theorem cmdUserSet_userdb {E : UserEnv} {userdb userdb' : UserDb} {r : Reply}
    (h : cmdUserSet E ctx arg userdb = .ok (r, userdb')) (hne : userdb' ≠ userdb) :
    ctx.userlevel = .admin := by
  unfold cmdUserSet at h
  by_contra hl
  split at h
  · exact hne (Prod.mk.inj (Except.ok.inj h)).2.symm
  · split at h
    · exact hne (Prod.mk.inj (Except.ok.inj h)).2.symm
    · simp only at h
      split at h <;> exact hne (Prod.mk.inj (Except.ok.inj h)).2.symm

theorem cmdUserDelete_userdb {E : UserEnv} {userdb userdb' : UserDb} {r : Reply}
    (h : cmdUserDelete E ctx arg userdb = .ok (r, userdb')) (hne : userdb' ≠ userdb) :
    ctx.userlevel = .admin := by
  unfold cmdUserDelete at h
  by_contra hl
  split at h
  · exact hne (Prod.mk.inj (Except.ok.inj h)).2.symm
  · exact hne (Prod.mk.inj (Except.ok.inj h)).2.symm

theorem map_ok {α β : Type} {f : α → β} {x : Except Fault α} {b : β} (h : f <$> x = .ok b) :
    ∃ a, x = .ok a ∧ f a = b := by
  cases x with
  | error e => cases h
  | ok a => exact ⟨a, rfl, Except.ok.inj h⟩

theorem answerToConnection_userdb {E : UserEnv} {userdb userdb' : UserDb}
    (h : answerToConnection T E url ctx userdb = .ok userdb') (hne : userdb' ≠ userdb) :
    ∃ left, fltCheckValiduser T ctx = .ok left ∧ left.userlevel = .admin := by
  have hcmd : ∀ m ∈ setupMatches.take 3,
      m.func ≠ .cmd .user_set ∧ m.func ≠ .cmd .user_delete := by decide
  unfold answerToConnection at h
  split at h
  · rename_i m arg ctx' hruns
    obtain ⟨⟨r, db⟩, hset, rfl⟩ := map_ok h
    have hfunc := (reqMatchlistDispatch_runs hruns).2.1
    obtain ⟨left, hleft⟩ := asked_of_runs hruns fun hmem => (hcmd m hmem).1 hfunc
    exact ⟨left, hleft.valid, hleft.same.userlevel ▸ cmdUserSet_userdb hset hne⟩
  · rename_i m arg ctx' hruns
    obtain ⟨⟨r, db⟩, hset, rfl⟩ := map_ok h
    have hfunc := (reqMatchlistDispatch_runs hruns).2.1
    obtain ⟨left, hleft⟩ := asked_of_runs hruns fun hmem => (hcmd m hmem).2 hfunc
    exact ⟨left, hleft.valid, hleft.same.userlevel ▸ cmdUserDelete_userdb hset hne⟩
  · exact absurd (Except.ok.inj h).symm hne

/-- Commands on a tenant run for that tenant, and for those only who may see it; the
commands on all tenants, and the changes to the user database, are for administrators. Who
asks is what the tokens of the request say. -/
theorem requests_authorized (T : Tokens) (E : UserEnv) (url : UrlText) (ctx : ReqContext)
    (userdb : UserDb) :
    (∀ m c arg ctx', reqMatchlistDispatch T url setupMatches ctx = .runs m c arg ctx' →
      (asc "/%U" <+: m.matchstr → ctx'.tenantid = mkuuid (firstSegment url) ∧
        ∃ left, fltCheckValiduser T ctx = .ok left ∧ left.mayAccess ctx'.tenantid) ∧
      (c = .tenant_delete ∨ c = .list_sessions ∨ asc "/any/" <+: m.matchstr →
        ∃ left, fltCheckValiduser T ctx = .ok left ∧ left.userlevel = .admin)) ∧
    ∀ userdb', answerToConnection T E url ctx userdb = .ok userdb' → userdb' ≠ userdb →
      ∃ left, fltCheckValiduser T ctx = .ok left ∧ left.userlevel = .admin := by
  have hpre : ∀ m ∈ setupMatches.take 3, ¬ asc "/%U" <+: m.matchstr ∧
      ¬ asc "/any/" <+: m.matchstr ∧ m.func ≠ .cmd .tenant_delete ∧
      m.func ≠ .cmd .list_sessions := by decide
  refine ⟨?_, fun userdb' => answerToConnection_userdb⟩
  intro m c arg ctx' h
  have hfunc := (reqMatchlistDispatch_runs h).2.1
  constructor
  · intro hm
    obtain ⟨left, hleft⟩ := asked_of_runs h fun hmem => (hpre m hmem).1 hm
    obtain ⟨hid, hmay⟩ := tenant_of_runs h hm
    exact ⟨hid, left, hleft.valid, (ReqContext.mayAccess_of_sameUser hleft.same).mp hmay⟩
  · intro hc
    have hadmin : ctx'.userlevel = .admin ∧ m ∉ setupMatches.take 3 := by
      obtain rfl | rfl | hm := hc
      · exact ⟨admin_of_tenant_delete h, fun hmem => (hpre m hmem).2.2.1 hfunc⟩
      · exact ⟨admin_of_list_sessions h, fun hmem => (hpre m hmem).2.2.2 hfunc⟩
      · exact ⟨admin_of_any h hm, fun hmem => (hpre m hmem).2.1 hm⟩
    obtain ⟨left, hleft⟩ := asked_of_runs h hadmin.2
    exact ⟨left, hleft.valid, hleft.same.userlevel ▸ hadmin.1⟩

end Opticon
