import Opticon.Api.Metadata
import Opticon.Lib.Transition
import Opticon.Var.Texts

/-! The tenant of a host that is asked for without one (`cmd_host.c`), and the document that
remembers the answers. -/

namespace Opticon

/-! ### The database -/

/-- The directory of a tenant, with the hosts that have a `current.db` in it. -/
structure TenantHosts where
  tenant : Uuid
  hosts : List Uuid
  deriving DecidableEq

/-- The tenants in the order in which they are listed, and the global document
`hosts.tenants`. -/
structure Hostdb where
  tenants : List TenantHosts
  hostsTenants : MetaFile
  deriving DecidableEq

/-- The database of the tenant has the host. -/
def Hostdb.Holds (db : Hostdb) (tenant host : Uuid) : Prop :=
  ∃ d ∈ db.tenants, d.tenant = tenant ∧ host ∈ d.hosts

instance (db : Hostdb) (tenant host : Uuid) : Decidable (db.Holds tenant host) :=
  inferInstanceAs (Decidable (∃ d ∈ db.tenants, _))

/-- `db_set_global`, which stores a document as `db_set_metadata` does. -/
def dbSetGlobal (file : MetaFile) (v : Var) : MetaFile := dbSetMetadata file v

def varGetUuid (v : Var) : Uuid := mkuuid ((varGetStr v).getD [])

def varSetUuidForkey (ihash : BitVec 32) (self : Var) (key : List UInt8) (val : Uuid) : Var :=
  varSetForkey ihash self key (.str (uuid2str val))

/-- Looks through the databases of all tenants. -/
def anyResolveListed (ihash : BitVec 32) (db : Hostdb) (ctx : ReqContext) (hostuuidstr : UrlText)
    (cache : Var) : Uuid × ReqContext × Hostdb :=
  match db.tenants.find? fun d => ctx.hostid ∈ d.hosts with
  | some d =>
    let cache := varSetUuidForkey ihash cache hostuuidstr d.tenant
    (d.tenant, { ctx with tenantid := d.tenant },
      { db with hostsTenants := dbSetGlobal db.hostsTenants cache })
  | none => (uuidnil, ctx, db)

/-- Find the tenant for a host requested through the 'any' tenant. -/
def cmdHostAnyResolve (ihash : BitVec 32) (db : Hostdb) (ctx : ReqContext)
    (hostuuidstr : UrlText) : Except Fault (Uuid × ReqContext × Hostdb) :=
  let ctx := { ctx with hostid := mkuuid hostuuidstr }
  match varLoadJson ihash db.hostsTenants with
  | .error f => .error f
  | .ok none => .ok (anyResolveListed ihash db ctx hostuuidstr (varAlloc .null))
  | .ok (some cache) =>
    match varFindKey ihash cache hostuuidstr with
    | (_, some (_, entry)) =>
      let res := varGetUuid entry
      .ok (res, { ctx with tenantid := res }, db)
    | (cache, none) => .ok (anyResolveListed ihash db ctx hostuuidstr cache)

/-- What may happen to the hosts; a host is asked for by the argument of a URL. -/
inductive HostEvent where
  | create (tenant host : Uuid)
  | remove (tenant host : Uuid)
  | resolve (ctx : ReqContext) (hostuuidstr : UrlText) (valid : argValid 85 hostuuidstr = true)

def Hostdb.edit (db : Hostdb) (tenant : Uuid) (f : List Uuid → List Uuid) : Hostdb :=
  { db with tenants := db.tenants.map fun d =>
      if d.tenant = tenant then { d with hosts := f d.hosts } else d }

def hostStep (ihash : BitVec 32) (db : Hostdb) : HostEvent → Except Fault Hostdb
  | .create tenant host => .ok (db.edit tenant fun hosts => host :: hosts)
  | .remove tenant host => .ok (db.edit tenant fun hosts => hosts.filter (· ≠ host))
  | .resolve ctx hostuuidstr _ => (cmdHostAnyResolve ihash db ctx hostuuidstr).map fun r => r.2.2

/-- Any tenants with any hosts, and nothing remembered. -/
def hostRuns (ihash : BitVec 32) : Transition Hostdb HostEvent where
  init db := db.hostsTenants = none
  step db e db' := hostStep ihash db e = .ok db'

/-- Every host that is asked for is in the database that is the answer. -/
def ResolvesRight (ihash : BitVec 32) (db : Hostdb) : Prop :=
  ∀ (ctx : ReqContext) (hostuuidstr : UrlText), argValid 85 hostuuidstr = true →
    ∃ res ctx' db', cmdHostAnyResolve ihash db ctx hostuuidstr = .ok (res, ctx', db') ∧
      (res ≠ uuidnil → db'.Holds res (mkuuid hostuuidstr))

/-- What is remembered about a host. -/
def remembered (ihash : BitVec 32) (db : Hostdb) (hostuuidstr : UrlText) : Option Uuid :=
  match varLoadJson ihash db.hostsTenants with
  | .ok (some cache) => (varChild ihash cache hostuuidstr).map varGetUuid
  | _ => none

/-- No host is removed from the tenant that is remembered for it. -/
def KeepsRemembered (ihash : BitVec 32) (db : Hostdb) : HostEvent → Prop
  | .remove tenant host => tenant = uuidnil ∨ ∀ hostuuidstr, argValid 85 hostuuidstr = true →
      mkuuid hostuuidstr = host → remembered ihash db hostuuidstr ≠ some tenant
  | _ => True

/-! ### Arguments as keys -/

theorem argValid_uuid {s : UrlText} (h : argValid 85 s = true) :
    (∀ c ∈ s, c ≠ 0 ∧ c ≠ 10) ∧ s.countP (· ≠ 45) = 32 := by
  have hchars : ∀ c ∈ asc "0123456789abcdef-", c ≠ 0 ∧ c ≠ 10 := by decide +kernel
  have hvalid := of_decide_eq_true h
  refine ⟨fun c hc => hchars c ?_, hvalid.2⟩
  exact of_decide_eq_true (List.all_eq_true.mp hvalid.1 c hc)

theorem strncpy_argValid {s : UrlText} (h : argValid 85 s = true) :
    (FString.strncpy s).str = s.take 127 := by
  refine List.takeWhile_eq_self_iff.mpr fun c hc => ?_
  simpa using ((argValid_uuid h).1 c (List.mem_of_mem_take hc)).1

theorem isKey_strncpy {s : UrlText} (h : argValid 85 s = true) : (FString.strncpy s).IsKey := by
  obtain ⟨hchars, hcount⟩ := argValid_uuid h
  have hstr := strncpy_argValid h
  refine ⟨fun hnil => ?_, fun hmem => ?_⟩
  · rw [hstr, List.take_eq_nil_iff] at hnil
    obtain hnil | rfl := hnil
    · cases hnil
    · cases hcount
  · rw [hstr] at hmem
    exact (hchars 10 (List.mem_of_mem_take hmem)).2 rfl

/-- A key that was cut off and is an argument still, is the same host. -/
theorem mkuuid_strncpy {s : UrlText} (h : argValid 85 s = true)
    (hcut : argValid 85 (FString.strncpy s).str = true) :
    mkuuid (FString.strncpy s).str = mkuuid s := by
  have hcount := (argValid_uuid h).2
  have hcutcount := (argValid_uuid hcut).2
  rw [strncpy_argValid h] at hcutcount ⊢
  have hrest : (s.drop 127).filterMap hexDigit = [] := by
    rw [← List.take_append_drop 127 s, List.countP_append, hcutcount] at hcount
    have hdashes : (s.drop 127).countP (· ≠ 45) = 0 := by omega
    rw [List.countP_eq_zero] at hdashes
    refine List.filterMap_eq_nil_iff.mpr fun c hc => ?_
    have hdash : c = 45 := by simpa using hdashes c hc
    rw [hdash]
    rfl
  have hdigits : s.filterMap hexDigit = (s.take 127).filterMap hexDigit := by
    conv_lhs => rw [← List.take_append_drop 127 s, List.filterMap_append, hrest, List.append_nil]
  unfold mkuuid
  rw [hdigits]

/-! ### What is remembered -/

variable {ihash : BitVec 32} {db : Hostdb}

/-- A text that is remembered under a key: if the key can be asked for, the tenant has the host. -/
structure Recalled (db : Hostdb) (id : FString) (s : List UInt8) : Prop where
  stored : StorableText id s
  holds : argValid 85 id.str = true → mkuuid s ≠ uuidnil → db.Holds (mkuuid s) (mkuuid id.str)

/-- Nothing is remembered, or a document all of whose entries are true. -/
def Faithful (ihash : BitVec 32) (db : Hostdb) : Prop :=
  varLoadJson ihash db.hostsTenants = .ok none ∨
    ∃ w, varLoadJson ihash db.hostsTenants = .ok (some w) ∧ w.Document ihash ∧ w.Texts (Recalled db)

theorem Recalled.mono {db' : Hostdb} {id : FString} {s : List UInt8} (h : Recalled db id s)
    (hdb : ∀ t x, db.Holds t x → db'.Holds t x) : Recalled db' id s :=
  ⟨h.stored, fun hvalid hne => hdb _ _ (h.holds hvalid hne)⟩

theorem recalled_found {s : UrlText} {d : TenantHosts} (h : argValid 85 s = true)
    (hd : d ∈ db.tenants) (hhost : mkuuid s ∈ d.hosts) :
    Recalled db (FString.strncpy s) (uuid2str d.tenant) := by
  refine ⟨⟨isKey_strncpy h, nul_uuid2str _, ?_⟩, fun hvalid _ => ?_⟩
  · rw [length_uuid2str]
    decide
  · rw [mkuuid_uuid2str, mkuuid_strncpy h hvalid]
    exact ⟨d, hd, rfl, hhost⟩

/-- A host that is found is remembered. -/
theorem Faithful.remember {cache : Var} (hcache : cache.Texts (Recalled db)) {s : UrlText}
    {d : TenantHosts} (h : argValid 85 s = true) (hd : d ∈ db.tenants) (hhost : mkuuid s ∈ d.hosts) :
    Faithful ihash { db with
      hostsTenants := dbSetGlobal db.hostsTenants (varSetUuidForkey ihash cache s d.tenant) } := by
  obtain ⟨w, hset, hw, hne⟩ := hcache.setForkey ihash s (isKey_strncpy h).ne
    (recalled_found h hd hhost)
  obtain ⟨hdump, r, hload, hdoc, htexts⟩ := hw.reread ihash (fun _ _ h => h.stored) hne
  have hstored : dbSetGlobal db.hostsTenants (varSetUuidForkey ihash cache s d.tenant) =
      some (varDump w).2 := by
    rw [dbSetGlobal, dbSetMetadata, varSetUuidForkey, hset, if_pos hdump]
  right
  dsimp only
  rw [hstored]
  exact ⟨r, hload, hdoc, htexts.mono fun _ _ _ _ _ _ hs => hs.mono fun _ _ h => h⟩

/-- Looking through the databases finds a tenant that has the host. -/
theorem anyResolveListed_right {cache : Var} (hfaithful : Faithful ihash db)
    (hcache : cache.Texts (Recalled db)) (ctx : ReqContext) {s : UrlText}
    (h : argValid 85 s = true) (hhost : ctx.hostid = mkuuid s) :
    Faithful ihash (anyResolveListed ihash db ctx s cache).2.2 ∧
      ((anyResolveListed ihash db ctx s cache).1 ≠ uuidnil →
        (anyResolveListed ihash db ctx s cache).2.2.Holds
          (anyResolveListed ihash db ctx s cache).1 (mkuuid s)) := by
  unfold anyResolveListed
  cases hfound : db.tenants.find? fun d => ctx.hostid ∈ d.hosts with
  | none => exact ⟨hfaithful, fun hne => absurd rfl hne⟩
  | some d =>
    have hd := List.mem_of_find?_eq_some hfound
    have hmem : mkuuid s ∈ d.hosts := by
      rw [← hhost]
      simpa using List.find?_some hfound
    exact ⟨.remember hcache h hd hmem, fun _ => ⟨d, hd, rfl, hmem⟩⟩

theorem cmdHostAnyResolve_right (hfaithful : Faithful ihash db) (ctx : ReqContext) {s : UrlText}
    (h : argValid 85 s = true) :
    ∃ r, cmdHostAnyResolve ihash db ctx s = .ok r ∧
      Faithful ihash r.2.2 ∧ (r.1 ≠ uuidnil → r.2.2.Holds r.1 (mkuuid s)) := by
  obtain hnone | ⟨w, hload, hdoc, htexts⟩ := hfaithful
  · have hempty : (Var.dict FString.empty 0 []).Texts (Recalled db) := ⟨0, [], rfl, by simp⟩
    have hright := anyResolveListed_right (.inl hnone) hempty { ctx with hostid := mkuuid s } h rfl
    refine ⟨_, ?_, hright⟩
    simp only [cmdHostAnyResolve, hnone]
    rfl
  · have hfaithful : Faithful ihash db := .inr ⟨w, hload, hdoc, htexts⟩
    obtain ⟨hrest, hentry⟩ := htexts.findKey ihash s
    cases hfind : varFindKey ihash w s with
    | mk cache found =>
      rw [hfind] at hrest hentry
      cases found with
      | none =>
        have hright := anyResolveListed_right hfaithful hrest { ctx with hostid := mkuuid s } h rfl
        exact ⟨_, by simp only [cmdHostAnyResolve, hload, hfind], hright⟩
      | some p =>
        obtain ⟨i, entry⟩ := p
        obtain ⟨id, h', text, hleaf, hid, hrecalled⟩ := hentry (i, entry) rfl
        dsimp only at hleaf
        subst hleaf
        refine ⟨(mkuuid text, { ctx with hostid := mkuuid s, tenantid := mkuuid text }, db), ?_,
          hfaithful, fun hne => ?_⟩
        · simp only [cmdHostAnyResolve, hload, hfind]
          rfl
        · have hholds := hrecalled.holds (by rw [hid]; exact h) hne
          rwa [hid] at hholds

/-! ### Runs -/

theorem Faithful.right (h : Faithful ihash db) : ResolvesRight ihash db := by
  intro ctx s hs
  obtain ⟨r, hrun, -, hholds⟩ := cmdHostAnyResolve_right h ctx hs
  exact ⟨r.1, r.2.1, r.2.2, hrun, hholds⟩

theorem holds_edit {f : List Uuid → List Uuid} {tenant t x : Uuid} :
    (db.edit tenant f).Holds t x ↔
      ∃ d ∈ db.tenants, d.tenant = t ∧ x ∈ if t = tenant then f d.hosts else d.hosts := by
  simp only [Hostdb.Holds, Hostdb.edit, List.mem_map, exists_exists_and_eq_and]
  refine exists_congr fun d => and_congr_right fun _ => ?_
  by_cases hd : d.tenant = tenant
  · simp only [if_pos hd]
    refine and_congr_right fun ht => ?_
    rw [if_pos (ht ▸ hd)]
  · simp only [if_neg hd]
    refine and_congr_right fun ht => ?_
    rw [if_neg (ht ▸ hd)]

theorem Faithful.create (h : Faithful ihash db) (tenant host : Uuid) :
    Faithful ihash (db.edit tenant fun hosts => host :: hosts) := by
  obtain hnone | ⟨w, hload, hdoc, htexts⟩ := h
  · exact .inl hnone
  · refine .inr ⟨w, hload, hdoc, htexts.mono fun _ _ _ _ _ _ hs => hs.mono fun t x hx => ?_⟩
    obtain ⟨d, hd, ht, hx⟩ := hx
    refine holds_edit.mpr ⟨d, hd, ht, ?_⟩
    split
    · exact List.mem_cons_of_mem _ hx
    · exact hx

/-- A removal of a host that is not remembered with the tenant leaves all entries true. -/
theorem Faithful.remove (h : Faithful ihash db) {tenant host : Uuid}
    (hkeeps : KeepsRemembered ihash db (.remove tenant host)) :
    Faithful ihash (db.edit tenant fun hosts => hosts.filter (· ≠ host)) := by
  obtain hnone | ⟨w, hload, hdoc, htexts⟩ := h
  · exact .inl hnone
  · refine .inr ⟨w, hload, hdoc, htexts.mono fun c id h' s hc hleaf hs => ⟨hs.stored, ?_⟩⟩
    intro hvalid hne
    obtain ⟨d, hd, ht, hx⟩ := hs.holds hvalid hne
    refine holds_edit.mpr ⟨d, hd, ht, ?_⟩
    split
    · rename_i hsame
      refine List.mem_filter.mpr ⟨hx, decide_eq_true fun hhost => ?_⟩
      obtain hnil | hkeeps := hkeeps
      · exact hne (hsame.trans hnil)
      · have hfound := hdoc.varChild_self hc
        subst hleaf
        refine hkeeps id.str hvalid hhost ?_
        rw [remembered, hload]
        dsimp only
        rw [← hsame]
        exact congrArg (Option.map varGetUuid) hfound
    · exact hx

theorem Faithful.step {db' : Hostdb} {e : HostEvent} (h : Faithful ihash db)
    (hkeeps : KeepsRemembered ihash db e) (hstep : hostStep ihash db e = .ok db') :
    Faithful ihash db' := by
  cases e with
  | create tenant host =>
    cases hstep
    exact h.create tenant host
  | remove tenant host =>
    cases hstep
    exact h.remove hkeeps
  | resolve ctx s hs =>
    obtain ⟨r, hrun, hfaithful, -⟩ := cmdHostAnyResolve_right h ctx hs
    simp only [hostStep, hrun, Except.map] at hstep
    cases hstep
    exact hfaithful

/-- What is remembered is the answer. -/
theorem cmdHostAnyResolve_remembered {s : UrlText} {tenant : Uuid}
    (h : remembered ihash db s = some tenant) (ctx : ReqContext) :
    cmdHostAnyResolve ihash db ctx s =
      .ok (tenant, { ctx with hostid := mkuuid s, tenantid := tenant }, db) := by
  unfold remembered at h
  unfold cmdHostAnyResolve
  cases hload : varLoadJson ihash db.hostsTenants with
  | error f =>
    rw [hload] at h
    cases h
  | ok cache =>
    rw [hload] at h
    cases cache with
    | none => cases h
    | some cache =>
      simp only [varChild] at h
      cases hfind : varFindKey ihash cache s with
      | mk rest found =>
        rw [hfind] at h
        cases found with
        | none => cases h
        | some p =>
          obtain ⟨i, entry⟩ := p
          obtain rfl : varGetUuid entry = tenant := Option.some.inj h
          simp only [hfind]

def anyContext : ReqContext :=
  ⟨.get, [], varAlloc .null, uuidnil, none, .admin, [], uuidnil, uuidnil⟩

theorem not_holds_removed (db : Hostdb) (tenant host : Uuid) :
    ¬ (db.edit tenant fun hosts => hosts.filter (· ≠ host)).Holds tenant host := by
  rw [holds_edit]
  rintro ⟨d, -, -, hmem⟩
  rw [if_pos rfl, List.mem_filter] at hmem
  exact of_decide_eq_true hmem.2 rfl

/-- After the removal of a host that is remembered with the tenant the answer is wrong. -/
theorem ResolvesRight.keeps {tenant host : Uuid}
    (h : ResolvesRight ihash (db.edit tenant fun hosts => hosts.filter (· ≠ host))) :
    KeepsRemembered ihash db (.remove tenant host) := by
  by_contra hnot
  simp only [KeepsRemembered, not_or, not_forall, not_not, exists_prop] at hnot
  obtain ⟨hne, s, hs, rfl, hmem⟩ := hnot
  have hanswer := @cmdHostAnyResolve_remembered ihash (db.edit tenant fun hosts =>
    hosts.filter (· ≠ mkuuid s)) s tenant hmem anyContext
  obtain ⟨res, ctx', db', hrun, hholds⟩ := h anyContext s hs
  rw [hanswer] at hrun
  cases hrun
  exact not_holds_removed db tenant (mkuuid s) (hholds hne)

theorem hostRuns_faithful {ls : List HostEvent}
    (h : ((hostRuns ihash).guard (KeepsRemembered ihash)).History ls db) : Faithful ihash db := by
  apply h.induction (I := fun _ => Faithful ihash)
  · intro db hinit
    left
    rw [show db.hostsTenants = none from hinit]
    rfl
  · intro ls db e db' hfaithful hstep
    exact hfaithful.step hstep.1 hstep.2

/-- In a run in which no host is removed from the tenant that is remembered for it, every host
is resolved right, and after one more step that is so if and only if that step is no such
removal. -/
theorem resolves_right_iff {ls : List HostEvent}
    (h : ((hostRuns ihash).guard (KeepsRemembered ihash)).History ls db) :
    ResolvesRight ihash db ∧ ∀ e db', hostStep ihash db e = .ok db' →
      (ResolvesRight ihash db' ↔ KeepsRemembered ihash db e) := by
  have hfaithful := hostRuns_faithful h
  refine ⟨hfaithful.right, fun e db' hstep => ⟨fun hright => ?_, fun hkeeps => ?_⟩⟩
  · cases e with
    | create tenant host => trivial
    | remove tenant host =>
      cases hstep
      exact hright.keeps
    | resolve ctx s hs => trivial
  · exact (hfaithful.step hkeeps hstep).right

/-- One tenant with one host, and another tenant. -/
def twoTenants : Hostdb := ⟨[⟨⟨0, 1⟩, [⟨0, 2⟩]⟩, ⟨⟨0, 3⟩, []⟩], none⟩

theorem resolves_right_created :
    ResolvesRight 4711 ⟨[⟨⟨0, 1⟩, [⟨0, 2⟩]⟩, ⟨⟨0, 3⟩, [⟨0, 4⟩]⟩], none⟩ ∧ ∀ e db',
      hostStep 4711 ⟨[⟨⟨0, 1⟩, [⟨0, 2⟩]⟩, ⟨⟨0, 3⟩, [⟨0, 4⟩]⟩], none⟩ e = .ok db' →
      (ResolvesRight 4711 db' ↔
        KeepsRemembered 4711 ⟨[⟨⟨0, 1⟩, [⟨0, 2⟩]⟩, ⟨⟨0, 3⟩, [⟨0, 4⟩]⟩], none⟩ e) :=
  @resolves_right_iff 4711 _ [.create ⟨0, 3⟩ ⟨0, 4⟩]
    ((Transition.History.init (s := twoTenants) rfl).step ⟨trivial, rfl⟩)

/-- The host as it is asked for. -/
def secondHost : UrlText := asc "00000000-0000-0000-0000-000000000002"

def secondRemembered : MetaFile :=
  dbSetGlobal none (varSetUuidForkey 4711 (varAlloc .null) secondHost ⟨0, 1⟩)

/-- A host that was asked for moves from one tenant to the other. -/
theorem moved_host_stale : ∃ db₁ db₂ db₃ ctx,
    hostStep 4711 twoTenants (.resolve anyContext secondHost (by decide)) = .ok db₁ ∧
    hostStep 4711 db₁ (.remove ⟨0, 1⟩ ⟨0, 2⟩) = .ok db₂ ∧
    hostStep 4711 db₂ (.create ⟨0, 3⟩ ⟨0, 2⟩) = .ok db₃ ∧
    cmdHostAnyResolve 4711 db₃ anyContext secondHost = .ok (⟨0, 1⟩, ctx, db₃) ∧
    ¬ db₃.Holds ⟨0, 1⟩ (mkuuid secondHost) ∧
    ¬ ∀ ls db, (hostRuns 4711).History ls db → ResolvesRight 4711 db := by
  have hmem : remembered 4711 ⟨[⟨⟨0, 1⟩, []⟩, ⟨⟨0, 3⟩, [⟨0, 2⟩]⟩], secondRemembered⟩ secondHost =
      some ⟨0, 1⟩ := by decide +kernel
  have hresolve : hostStep 4711 twoTenants (.resolve anyContext secondHost (by decide)) =
      .ok ⟨twoTenants.tenants, secondRemembered⟩ := by
    have hlisted : twoTenants.tenants.find? (fun d => mkuuid secondHost ∈ d.hosts) =
        some ⟨⟨0, 1⟩, [⟨0, 2⟩]⟩ := by decide
    have hload : varLoadJson 4711 twoTenants.hostsTenants = .ok none := rfl
    simp only [hostStep, cmdHostAnyResolve, hload, anyResolveListed, hlisted, Except.map]
    rfl
  have hanswer := cmdHostAnyResolve_remembered hmem anyContext
  have hgone : ¬ Hostdb.Holds ⟨[⟨⟨0, 1⟩, []⟩, ⟨⟨0, 3⟩, [⟨0, 2⟩]⟩], secondRemembered⟩ ⟨0, 1⟩
      (mkuuid secondHost) := by
    rintro ⟨d, hd, ht, hhost⟩
    simp only [List.mem_cons, List.not_mem_nil, or_false] at hd
    obtain rfl | rfl := hd
    · cases hhost
    · cases ht
  have hremove (file : MetaFile) : hostStep 4711 ⟨twoTenants.tenants, file⟩
      (.remove ⟨0, 1⟩ ⟨0, 2⟩) = .ok ⟨[⟨⟨0, 1⟩, []⟩, ⟨⟨0, 3⟩, []⟩], file⟩ := rfl
  have hcreate (file : MetaFile) : hostStep 4711 ⟨[⟨⟨0, 1⟩, []⟩, ⟨⟨0, 3⟩, []⟩], file⟩
      (.create ⟨0, 3⟩ ⟨0, 2⟩) = .ok ⟨[⟨⟨0, 1⟩, []⟩, ⟨⟨0, 3⟩, [⟨0, 2⟩]⟩], file⟩ := rfl
  refine ⟨_, _, _, _, hresolve, hremove _, hcreate _, hanswer, hgone, fun h => ?_⟩
  have hrun : ∃ ls, (hostRuns 4711).History ls
      ⟨[⟨⟨0, 1⟩, []⟩, ⟨⟨0, 3⟩, [⟨0, 2⟩]⟩], secondRemembered⟩ :=
    ⟨_, ((Transition.History.init (S := hostRuns 4711) (s := twoTenants) rfl).step
      hresolve).step (hremove _) |>.step (hcreate _)⟩
  obtain ⟨ls, hrun⟩ := hrun
  have hvalid : argValid 85 secondHost = true := by decide
  obtain ⟨res, ctx', db', hback, hholds⟩ := h ls _ hrun anyContext secondHost hvalid
  rw [hanswer] at hback
  obtain ⟨rfl, -, rfl⟩ := Prod.mk.inj (Except.ok.inj hback) |>.imp_right Prod.mk.inj
  exact hgone (hholds (by decide))

end Opticon
