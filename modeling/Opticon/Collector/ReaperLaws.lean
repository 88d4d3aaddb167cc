import Opticon.Collector.Reaper
import Opticon.Lib.Transition
import Mathlib.Algebra.Order.BigOperators.Group.List

/-! What a pass of the reaper deletes, and that it comes to an end. -/

namespace Opticon

namespace HostFiles

def usage (h : HostFiles) : UsageInfo := (localdbGetUsage h).1

def stale (tnow : Nat) (h : HostFiles) : Bool := staleInfo tnow h.usage

/-- The bytes in the record files of a host. -/
def size (h : HostFiles) : Nat := (h.recorded.map h.fileSize).sum

/-- The hosts that are not stale. -/
def fresh (tnow : Nat) (hosts : List HostFiles) : List HostFiles :=
  hosts.filter fun h => !h.stale tnow

/-- The fresh hosts with a usage that can be told. -/
def counted (tnow : Nat) (hosts : List HostFiles) : List HostFiles :=
  (fresh tnow hosts).filter (·.usage.earliest ≠ 0)

/-- The dates and the bytes of the record files of hosts. -/
def filed (hosts : List HostFiles) : List (Uuid × List Nat × (Nat → Option (List UInt8))) :=
  hosts.map fun h => (h.hostid, h.dates, h.dir.db)

/-- The file of a date is taken out of the record files of a host. -/
def without (dt : Nat) (l : Uuid × List Nat × (Nat → Option (List UInt8))) :
    Uuid × List Nat × (Nat → Option (List UInt8)) :=
  (l.1, l.2.1.erase dt, Function.update l.2.2 dt none)

end HostFiles

open HostFiles

/-- The bytes and the earliest time with one more host. -/
def tally (acc : Nat × Nat) (h : HostFiles) : Nat × Nat :=
  ((acc.1 + h.usage.bytes) % 2 ^ 64,
    if acc.2 = 0 ∨ h.usage.earliest < acc.2 then h.usage.earliest else acc.2)

theorem usage_bytes_le (h : HostFiles) : h.usage.bytes ≤ h.size := by
  unfold usage size localdbGetUsage
  split
  · simp
  · rename_i dt dts hrec
    have hmod := Nat.mod_le (((dt :: dts).map h.fileSize).sum) (2 ^ 64)
    dsimp only
    split
    · rw [hrec]
      exact hmod
    · exact Nat.zero_le _

theorem checkHosts_ok {tnow i n totalsz earliest : Nat} {hosts kept : List HostFiles}
    {totals : Nat × Nat}
    (h : checkHosts tnow i n hosts totalsz earliest = .ok (kept, totals)) :
    kept = (fresh tnow hosts).map (fun h => (localdbGetUsage h).2) ∧
      totals = (counted tnow hosts).foldl tally (totalsz, earliest) := by
  induction hosts generalizing totalsz earliest kept totals with
  | nil =>
    cases h
    exact ⟨rfl, rfl⟩
  | cons host hosts ih =>
    simp only [checkHosts] at h
    split at h
    · rename_i hstale
      have hskip : fresh tnow (host :: hosts) = fresh tnow hosts := by
        simp [fresh, stale, usage, hstale]
      split at h
      · rw [counted, hskip]
        exact ih h
      · cases h
    · rename_i hstale
      have hkeep : fresh tnow (host :: hosts) = host :: fresh tnow hosts := by
        simp [fresh, stale, usage, hstale]
      split at h
      · rename_i htold
        obtain ⟨⟨kept', totals'⟩, hrest, hret⟩ := Outcome.bind_ok_iff.mp h
        obtain ⟨rfl, rfl⟩ := ih hrest
        cases hret
        have hcount : counted tnow (host :: hosts) = host :: counted tnow hosts := by
          simp [counted, hkeep, usage, htold]
        rw [hkeep, hcount]
        exact ⟨rfl, rfl⟩
      · rename_i htold
        obtain ⟨⟨kept', totals'⟩, hrest, hret⟩ := Outcome.bind_ok_iff.mp h
        obtain ⟨rfl, rfl⟩ := ih hrest
        cases hret
        have hcount : counted tnow (host :: hosts) = counted tnow hosts := by
          simp [counted, hkeep, usage, not_not.mp htold]
        rw [hkeep, hcount]
        exact ⟨rfl, rfl⟩

/-- The bytes of a tally are no more than those of the hosts. -/
theorem tally_bytes (hosts : List HostFiles) (acc : Nat × Nat) :
    (hosts.foldl tally acc).1 ≤ acc.1 + (hosts.map size).sum := by
  induction hosts generalizing acc with
  | nil => simp
  | cons h hosts ih =>
    have hstep : (tally acc h).1 ≤ acc.1 + h.size :=
      (Nat.mod_le _ _).trans (Nat.add_le_add_left (usage_bytes_le h) _)
    have := ih (tally acc h)
    simp only [List.foldl_cons, List.map_cons, List.sum_cons]
    omega

/-- The earliest time of a tally is that of one of the hosts, and none is earlier. -/
theorem tally_earliest {hosts : List HostFiles} (htold : ∀ h ∈ hosts, h.usage.earliest ≠ 0)
    {a : Nat × Nat} (hne : hosts ≠ [] ∨ a.2 ≠ 0) :
    ((hosts.foldl tally a).2 = a.2 ∨
        ∃ h ∈ hosts, h.usage.earliest = (hosts.foldl tally a).2) ∧
      (hosts.foldl tally a).2 ≠ 0 ∧
      (a.2 ≠ 0 → (hosts.foldl tally a).2 ≤ a.2) ∧
      ∀ h ∈ hosts, (hosts.foldl tally a).2 ≤ h.usage.earliest := by
  induction hosts generalizing a with
  | nil =>
    obtain hne | hne := hne
    · exact absurd rfl hne
    · exact ⟨.inl rfl, hne, fun _ => le_rfl, by simp⟩
  | cons h hosts ih =>
    have hh := htold h List.mem_cons_self
    have ha : (tally a h).2 = a.2 ∨ (tally a h).2 = h.usage.earliest := by
      simp only [tally]
      split <;> simp
    have hle : (tally a h).2 ≤ h.usage.earliest ∧ (a.2 ≠ 0 → (tally a h).2 ≤ a.2) ∧
        (tally a h).2 ≠ 0 := by
      simp only [tally]
      split <;> omega
    obtain ⟨hfrom, hpos, hbound, hall⟩ :=
      ih (fun h hh => htold h (List.mem_cons_of_mem _ hh)) (.inr hle.2.2)
    rw [List.foldl_cons]
    refine ⟨?_, hpos, fun h0 => (hbound hle.2.2).trans (hle.2.1 h0), ?_⟩
    · obtain hfrom | ⟨h', hmem, hfrom⟩ := hfrom
      · rw [hfrom]
        obtain ha | ha := ha
        · exact .inl ha
        · exact .inr ⟨h, List.mem_cons_self, ha.symm⟩
      · exact .inr ⟨h', List.mem_cons_of_mem _ hmem, hfrom⟩
    · intro h' hmem
      obtain rfl | hmem := List.mem_cons.mp hmem
      · exact (hbound hle.2.2).trans hle.1
      · exact hall h' hmem

/-- The number of record files of the tenant. -/
def TenantDir.files (T : TenantDir) : Nat := (T.hosts.map fun h => h.dates.length).sum

/-- Each index file of the tenant begins with a time of its date. -/
def TenantDir.Dated (T : TenantDir) : Prop := ∀ h ∈ T.hosts, h.Dated

/-- The round takes nothing but the hosts that are stale. -/
def TenantDir.Swept (tnow : Nat) (T T' : TenantDir) : Prop :=
  filed T'.hosts = filed (fresh tnow T.hosts)

/-- The round takes the record files of the date of the earliest record, too. -/
structure TenantDir.Culled (tnow quota : Nat) (T T' : TenantDir) (oldest : Nat) : Prop where
  excess : quota < ((counted tnow T.hosts).map size).sum
  aged : 86399 < tnow - oldest
  held : ∃ h ∈ counted tnow T.hosts, h.usage.earliest = oldest ∧ time2date oldest ∈ h.dates
  first : ∀ h ∈ counted tnow T.hosts, ∀ dt ∈ h.recorded, time2date oldest ≤ dt
  left : filed T'.hosts = (filed (fresh tnow T.hosts)).map (without (time2date oldest))

/-- The metadata of a tenant sets the quota it is held to. -/
def TenantDir.Ruled (ihash : BitVec 32) (quota : BitVec 64) (T : TenantDir) : Prop :=
  ∀ v, varLoadJson ihash T.metadata = .ok (some v) →
    quota = quotaBytes (varGetIntForkey ihash v (asc "quota"))

variable {ihash : BitVec 32} {tnow i : Nat} {quota quota' : BitVec 64} {again : Bool}
  {T T' : TenantDir}

theorem mem_counted {hosts : List HostFiles} {h : HostFiles} (hmem : h ∈ counted tnow hosts) :
    h ∈ fresh tnow hosts ∧ h.usage.earliest ≠ 0 := by
  simpa [counted] using hmem

theorem mem_fresh {hosts : List HostFiles} {h : HostFiles} (hmem : h ∈ fresh tnow hosts) :
    h ∈ hosts :=
  (List.mem_filter.mp hmem).1

theorem filed_looked (hosts : List HostFiles) :
    filed (hosts.map fun h => (localdbGetUsage h).2) = filed hosts := by
  simp only [filed, List.map_map]
  apply List.map_congr_left
  intro h _
  have hl := localdbGetUsage_looked h
  simp [hl.hostid, hl.dates, hl.db]

theorem filed_delete (hosts : List HostFiles) (ti : Nat) :
    filed (hosts.map fun h => localdbDeleteHostDate h ti) =
      (filed hosts).map (without (time2date ti)) := by
  simp [filed, without, localdbDeleteHostDate, Function.comp_def]

theorem culled_of_over {kept : List HostFiles} {total earliest : Nat} (hT : T.Dated)
    (hcheck : checkHosts tnow i T.hosts.length T.hosts 0 0 = .ok (kept, total, earliest))
    (hover : quota.toNat < total) (haged : 86399 < tnow - earliest) :
    T.Culled tnow quota.toNat
      { T with hosts := kept.map fun h => localdbDeleteHostDate h earliest } earliest := by
  obtain ⟨rfl, htotals⟩ := checkHosts_ok hcheck
  have htold : ∀ h ∈ counted tnow T.hosts, h.usage.earliest ≠ 0 :=
    fun h hmem => (mem_counted hmem).2
  have hne : counted tnow T.hosts ≠ [] := by
    intro hnil
    rw [hnil] at htotals
    cases htotals
    exact absurd hover (Nat.not_lt_zero _)
  have hbytes := tally_bytes (counted tnow T.hosts) (0, 0)
  obtain ⟨hfrom, hpos, -, hall⟩ := tally_earliest (a := (0, 0)) htold (.inl hne)
  rw [← htotals] at hbytes hfrom hpos hall
  obtain hzero | ⟨h, hmem, hoff⟩ := hfrom
  · exact absurd hzero hpos
  have hdated : ∀ h ∈ counted tnow T.hosts, h.Dated :=
    fun h hmem => hT h (mem_fresh (mem_counted hmem).1)
  refine ⟨by omega, haged, ⟨h, hmem, hoff, ?_⟩, ?_, ?_⟩
  · have hdate := (localdbGetUsage_earliest (hdated h hmem) (htold h hmem)).1
    rwa [← usage, hoff] at hdate
  · intro h' hmem' dt hdt
    exact (time2date_mono (hall h' hmem')).trans
      ((localdbGetUsage_earliest (hdated h' hmem') (htold h' hmem')).2 dt hdt)
  · rw [filed_delete, filed_looked]

theorem reapTenant_empty {metadata : Option (List UInt8)} {hosts kept : List HostFiles}
    {v : Option Var} (hv : varLoadJson ihash metadata = .ok v)
    (hcheck : checkHosts tnow i hosts.length hosts 0 0 = .ok (kept, 0, 0)) :
    reapTenant ihash tnow i quota ⟨metadata, hosts⟩ =
      .ok (quotaBytes ((v.map fun v => varGetIntForkey ihash v (asc "quota")).getD quota), false,
        ⟨metadata, kept⟩) := by
  unfold reapTenant
  rw [hv, Outcome.ok_bind, hcheck, Outcome.ok_bind]
  apply if_neg
  intro h
  exact Nat.not_lt_zero _ h.1

/-- What a round for a tenant does. -/
theorem reapTenant_cases (hT : T.Dated)
    (h : reapTenant ihash tnow i quota T = .ok (quota', again, T')) :
    T'.Dated ∧ T'.metadata = T.metadata ∧ T.Ruled ihash quota' ∧
      (again = false ∧ T.Swept tnow T' ∨
        again = true ∧ ∃ oldest, T.Culled tnow quota'.toNat T' oldest) := by
  obtain ⟨v, hv, h⟩ := Outcome.bind_ok_iff.mp h
  obtain ⟨⟨kept, total, earliest⟩, hcheck, h⟩ := Outcome.bind_ok_iff.mp h
  dsimp only at h
  have hruled : T.Ruled ihash
      (quotaBytes ((v.map fun v => varGetIntForkey ihash v (asc "quota")).getD quota)) := by
    intro v' hv'
    rw [hv] at hv'
    cases hv'
    rfl
  have hkept : ∀ h ∈ kept, h.Dated := by
    rw [(checkHosts_ok hcheck).1]
    intro h hmem
    obtain ⟨h₀, hmem₀, rfl⟩ := List.mem_map.mp hmem
    exact (localdbGetUsage_looked h₀).dated (hT h₀ (mem_fresh hmem₀))
  split at h
  · rename_i hover
    cases h
    refine ⟨?_, rfl, hruled, .inr ⟨rfl, earliest, culled_of_over hT hcheck hover.1 hover.2⟩⟩
    intro h hmem
    obtain ⟨h₀, hmem₀, rfl⟩ := List.mem_map.mp hmem
    exact (hkept h₀ hmem₀).delete earliest
  · cases h
    refine ⟨hkept, rfl, hruled, .inl ⟨rfl, ?_⟩⟩
    rw [TenantDir.Swept, (checkHosts_ok hcheck).1]
    exact filed_looked _

theorem files_eq (T : TenantDir) : T.files = ((filed T.hosts).map fun l => l.2.1.length).sum := by
  simp [TenantDir.files, filed, Function.comp_def]

theorem fresh_files_le (tnow : Nat) (hosts : List HostFiles) :
    ((filed (fresh tnow hosts)).map fun l => l.2.1.length).sum ≤
      ((filed hosts).map fun l => l.2.1.length).sum := by
  have hsub : (fresh tnow hosts).Sublist hosts := List.filter_sublist
  have hlen := (hsub.map fun h => (h.hostid, h.dates, h.dir.db)).map fun l => l.2.1.length
  exact hlen.sum_le_sum fun _ _ => Nat.zero_le _

theorem TenantDir.Swept.files_le (h : T.Swept tnow T') : T'.files ≤ T.files := by
  rw [files_eq, files_eq, h]
  exact fresh_files_le tnow T.hosts

theorem TenantDir.Culled.files_lt {q oldest : Nat} (h : T.Culled tnow q T' oldest) :
    T'.files < T.files := by
  obtain ⟨host, hmem, -, hdate⟩ := h.held
  rw [files_eq, files_eq, h.left, List.map_map]
  apply Nat.lt_of_lt_of_le _ (fresh_files_le tnow T.hosts)
  apply List.sum_lt_sum
  · intro l _
    exact List.length_erase_le
  · refine ⟨(host.hostid, host.dates, host.dir.db),
      List.mem_map_of_mem (mem_counted hmem).1, ?_⟩
    have hpos := List.length_pos_of_mem hdate
    simp only [Function.comp_apply, without, List.length_erase_of_mem hdate]
    omega

/-- The rounds of a pass of the reaper over a database in which each index file begins with a
time of its date. -/
def reaping (ihash : BitVec 32) (tnow : Nat) : Transition Reaper Unit where
  init s := s.i = 0 ∧ s.quota = 0 ∧ ∀ t T, s.db t = some T → T.Dated
  step s _ s' := s.next ihash tnow = .ok (some s')

/-- One round of a pass: the first of the tenants that are left is swept or culled, by its own
metadata where that can be read, and nothing else is touched. -/
structure Reaper.Round (ihash : BitVec 32) (tnow : Nat) (s s' : Reaper) (t : Uuid)
    (ts : List Uuid) : Prop where
  rest : s.rest = t :: ts
  frame : ∀ t', t' ≠ t → s'.db t' = s.db t'
  reaps : s.db t = none ∧ s'.db t = none ∧ s'.rest = ts ∨
    ∃ T T', s.db t = some T ∧ s'.db t = some T' ∧ T'.metadata = T.metadata ∧
      T.Ruled ihash s'.quota ∧
      (s'.rest = ts ∧ T.Swept tnow T' ∨
        s'.rest = t :: ts ∧ ∃ oldest, T.Culled tnow s'.quota.toNat T' oldest)

variable {s s' : Reaper}

theorem Reaper.next_reaped {t : Uuid} {ts : List Uuid} (hrest : s.rest = t :: ts)
    (hT : s.db t = some T)
    (hreap : reapTenant ihash tnow s.i s.quota T = .ok (quota', again, T')) :
    s.next ihash tnow = .ok (some
      { rest := if again then t :: ts else ts
        i := if again then s.i else s.i + 1
        quota := quota'
        db := Function.update s.db t (some T') }) := by
  simp only [Reaper.next, hrest, hT, hreap, Outcome.ok_bind, Outcome.pure_ok]

theorem Reaper.next_cases (hs : ∀ t T, s.db t = some T → T.Dated)
    (h : s.next ihash tnow = .ok (some s')) :
    (∃ t ts, s.Round ihash tnow s' t ts) ∧ ∀ t T, s'.db t = some T → T.Dated := by
  unfold Reaper.next at h
  cases hrest : s.rest with
  | nil =>
    rw [hrest] at h
    cases h
  | cons t ts =>
    rw [hrest] at h
    cases hT : s.db t with
    | none =>
      simp only [hT] at h
      cases h
      exact ⟨⟨t, ts, hrest, fun _ _ => rfl, .inl ⟨hT, hT, rfl⟩⟩, hs⟩
    | some T =>
      simp only [hT] at h
      obtain ⟨⟨quota, again, T'⟩, hreap, h⟩ := Outcome.bind_ok_iff.mp h
      cases h
      obtain ⟨hdated, hmeta, hruled, hdone⟩ := reapTenant_cases (hs t T hT) hreap
      refine ⟨⟨t, ts, hrest, fun t' ht' => Function.update_of_ne ht' _ _, .inr ⟨T, T', hT,
        Function.update_self _ _ _, hmeta, hruled, ?_⟩⟩, ?_⟩
      · obtain ⟨rfl, hswept⟩ | ⟨rfl, hculled⟩ := hdone
        · exact .inl ⟨rfl, hswept⟩
        · exact .inr ⟨rfl, hculled⟩
      · intro t' T'' hT''
        dsimp only at hT''
        by_cases ht' : t' = t
        · subst ht'
          rw [Function.update_self] at hT''
          cases hT''
          exact hdated
        · rw [Function.update_of_ne ht'] at hT''
          exact hs t' T'' hT''

/-- The tenants that are left, and the record files of these. -/
def Reaper.load (s : Reaper) : Nat :=
  s.rest.length + (s.rest.map fun t => ((s.db t).map TenantDir.files).getD 0).sum

/-- Files of one tenant can only go. -/
theorem files_le_of_round {t : Uuid} {ts : List Uuid} (h : s.Round ihash tnow s' t ts) (t' : Uuid) :
    ((s'.db t').map TenantDir.files).getD 0 ≤ ((s.db t').map TenantDir.files).getD 0 := by
  by_cases ht' : t' = t
  · subst ht'
    obtain ⟨hnone, hnone', -⟩ | ⟨T, T', hT, hT', -, -, hdone⟩ := h.reaps
    · simp [hnone, hnone']
    · rw [hT, hT']
      obtain ⟨-, hswept⟩ | ⟨-, oldest, hculled⟩ := hdone
      · exact hswept.files_le
      · exact hculled.files_lt.le
  · rw [h.frame t' ht']

theorem Reaper.Round.load_lt {t : Uuid} {ts : List Uuid} (h : s.Round ihash tnow s' t ts) :
    s'.load < s.load := by
  have hts : (ts.map fun t => ((s'.db t).map TenantDir.files).getD 0).sum ≤
      (ts.map fun t => ((s.db t).map TenantDir.files).getD 0).sum :=
    List.sum_le_sum fun t _ => files_le_of_round h t
  rw [load, load, h.rest]
  simp only [List.map_cons, List.sum_cons, List.length_cons]
  obtain ⟨-, -, hrest⟩ | ⟨T, T', hT, hT', -, -, hdone⟩ := h.reaps
  · rw [hrest]
    omega
  · obtain ⟨hrest, -⟩ | ⟨hrest, oldest, hculled⟩ := hdone
    · rw [hrest]
      omega
    · have hlt := hculled.files_lt
      simp only [hrest, hT, hT', List.map_cons, List.sum_cons, List.length_cons, Option.map_some,
        Option.getD_some]
      omega

theorem checkHosts_fault {tnow i n totalsz earliest : Nat} {hosts : List HostFiles} {e : Fault}
    (h : checkHosts tnow i n hosts totalsz earliest = .error e) : e = .outOfBounds := by
  induction hosts generalizing totalsz earliest with
  | nil => cases h
  | cons host hosts ih =>
    simp only [checkHosts] at h
    split at h
    · split at h
      · exact ih h
      · exact (Except.error.inj h).symm
    · split at h
      all_goals
        obtain herr | ⟨r, hr, hret⟩ := Outcome.bind_error_iff.mp h
        · exact ih herr
        · cases hret

theorem Reaper.next_fault {e : Fault} (h : s.next ihash tnow = .error e) : e = .outOfBounds := by
  unfold Reaper.next at h
  split at h
  · cases h
  · split at h
    · cases h
    · obtain hreap | ⟨r, -, hret⟩ := Outcome.bind_error_iff.mp h
      · obtain hload | ⟨v, -, hreap⟩ := Outcome.bind_error_iff.mp hreap
        · exact varLoadJson_fault hload
        · obtain hcheck | ⟨r, -, hret⟩ := Outcome.bind_error_iff.mp hreap
          · exact checkHosts_fault hcheck
          · dsimp only at hret
            split at hret <;> cases hret
      · cases hret

/-- With a round for each tenant and each record file the pass comes to its end. -/
theorem reaperRun_ends {n : Nat} (hs : ∀ t T, s.db t = some T → T.Dated) (hn : s.load < n) :
    reaperRun ihash tnow n s ≠ .error .endlessLoop := by
  induction n generalizing s with
  | zero => omega
  | succ n ih =>
    intro h
    rw [reaperRun] at h
    obtain herr | ⟨s', hnext, h⟩ := Outcome.bind_error_iff.mp h
    · cases Reaper.next_fault herr
    · cases s' with
      | none => cases h
      | some s' =>
        obtain ⟨⟨t, ts, hround⟩, hs'⟩ := Reaper.next_cases hs hnext
        have hlt := hround.load_lt
        exact ih hs' (by omega) h

theorem reaping_dated (h : (reaping ihash tnow).Reachable s) :
    ∀ t T, s.db t = some T → T.Dated := by
  apply h.induction
  · intro s hi
    exact hi.2.2
  · intro s l s' hs hstep
    exact (Reaper.next_cases hs hstep).2

/-- From any state of a pass the pass comes to its end, and each of its rounds sweeps or culls
one tenant. -/
theorem reaping_rounds (h : (reaping ihash tnow).Reachable s) :
    (∃ n, reaperRun ihash tnow n s ≠ .error .endlessLoop) ∧
      ∀ s', s.next ihash tnow = .ok (some s') → ∃ t ts, s.Round ihash tnow s' t ts :=
  ⟨⟨s.load + 1, reaperRun_ends (reaping_dated h) (Nat.lt_succ_self _)⟩,
    fun _ hnext => (Reaper.next_cases (reaping_dated h) hnext).1⟩

/-- A host with one record, of the second day of all. -/
def oneRecord (bytes : List UInt8) : HostFiles where
  hostid := ⟨0, 1⟩
  dir :=
    { db := Function.update (fun _ => none) 19700102 (some bytes)
      idx := Function.update (fun _ => none) 19700102 (some [86400, 0])
      current := none }
  dates := [19700102]
  nodup := List.nodup_singleton _
  mem_dates dt := by
    by_cases hdt : dt = 19700102
    · simp [hdt]
    · simp [hdt]

theorem oneRecord_dated (bytes : List UInt8) : (oneRecord bytes).Dated := by
  intro dt w ws hidx
  by_cases hdt : dt = 19700102
  · subst hdt
    cases hidx
    decide
  · simp [oneRecord, hdt] at hidx

/-- The start of a pass over two tenants: one with a quota of a megabyte and a host, and one
without metadata and with a host. -/
def passStart (bytes : List UInt8) : Reaper where
  rest := [⟨0, 7⟩, ⟨0, 8⟩]
  i := 0
  quota := 0
  db := Function.update
    (Function.update (fun _ => none) ⟨0, 8⟩ (some ⟨none, [oneRecord []]⟩))
    ⟨0, 7⟩ (some ⟨some (asc "\x7b\"quota\":1\x7d"), [oneRecord bytes]⟩)

theorem passStart_reachable (ihash : BitVec 32) (tnow : Nat) (bytes : List UInt8) :
    (reaping ihash tnow).Reachable (passStart bytes) := by
  refine .init ⟨rfl, rfl, ?_⟩
  intro t T hT h hmem
  suffices h = oneRecord bytes ∨ h = oneRecord [] by
    obtain rfl | rfl := this
    · exact oneRecord_dated bytes
    · exact oneRecord_dated []
  by_cases h7 : t = ⟨0, 7⟩
  · subst h7
    cases hT
    exact .inl (List.mem_singleton.mp hmem)
  · by_cases h8 : t = ⟨0, 8⟩
    · subst h8
      cases hT
      exact .inr (List.mem_singleton.mp hmem)
    · have hnone : (passStart bytes).db t = none :=
        (Function.update_of_ne h7 _ _).trans (Function.update_of_ne h8 _ _)
      rw [hnone] at hT
      cases hT

/-- The first tenant is over its quota by one byte. -/
theorem reaping_rounds_over :
    (∃ n, reaperRun 0 172800 n (passStart (List.replicate 1048577 0)) ≠ .error .endlessLoop) ∧
      ∀ s', (passStart (List.replicate 1048577 0)).next 0 172800 = .ok (some s') →
        ∃ t ts, (passStart (List.replicate 1048577 0)).Round 0 172800 s' t ts :=
  reaping_rounds (passStart_reachable 0 172800 _)

theorem quota_of_one : ∃ v, varLoadJson 0 (some (asc "\x7b\"quota\":1\x7d")) = .ok (some v) ∧
    varGetIntForkey 0 v (asc "quota") = 1 := by
  have hload : (varLoadJson 0 (some (asc "\x7b\"quota\":1\x7d"))).map
      (Option.map fun v => varGetIntForkey 0 v (asc "quota")) = .ok (some 1) := by decide
  cases h : varLoadJson 0 (some (asc "\x7b\"quota\":1\x7d")) with
  | error e =>
    rw [h] at hload
    cases hload
  | ok v =>
    rw [h] at hload
    cases v with
    | none => cases hload
    | some v => exact ⟨v, rfl, Option.some.inj (Except.ok.inj hload)⟩

/-- A tenant that keeps to its quota loses a host whose last record is two days old; and one
without metadata is held to a quota of a megabyte of megabytes, by the tenant before it. -/
theorem stale_host_removed : ∃ s s' s'' T T', (reaping 0 259201).Reachable s ∧
    s.next 0 259201 = .ok (some s') ∧ s.db ⟨0, 7⟩ = some T ∧ s'.db ⟨0, 7⟩ = some T' ∧
    (T.hosts.map size).sum < s'.quota.toNat ∧ T.hosts.length = 1 ∧ T'.hosts = [] ∧
    s'.next 0 259201 = .ok (some s'') ∧ s'.rest = [⟨0, 8⟩] ∧
    (s'.db ⟨0, 8⟩).map TenantDir.metadata = some none ∧
    s''.quota = 0x10000000000 := by
  obtain ⟨v, hv, hq⟩ := quota_of_one
  have hcheck (i : Nat) (hi : i < 4) :
      checkHosts 259201 i 1 [oneRecord []] 0 0 = .ok ([], 0, 0) := by
    have hroom : i < hostRoom 1 := hi
    have hstale : staleInfo 259201 (localdbGetUsage (oneRecord [])).1 = true := by decide
    simp [checkHosts, hstale, hroom]
  have hfirst : reapTenant 0 259201 0 0 ⟨some (asc "\x7b\"quota\":1\x7d"), [oneRecord []]⟩ =
      .ok (quotaBytes 1, false, ⟨some (asc "\x7b\"quota\":1\x7d"), []⟩) :=
    (reapTenant_empty hv (hcheck 0 (by decide))).trans (by rw [Option.map_some, hq]; rfl)
  have hsecond : reapTenant 0 259201 1 (quotaBytes 1) ⟨none, [oneRecord []]⟩ =
      .ok (quotaBytes (quotaBytes 1), false, ⟨none, []⟩) :=
    reapTenant_empty (v := none) rfl (hcheck 1 (by decide))
  have hdb : (passStart []).db ⟨0, 7⟩ =
      some ⟨some (asc "\x7b\"quota\":1\x7d"), [oneRecord []]⟩ := rfl
  let s' : Reaper := ⟨[⟨0, 8⟩], 1, quotaBytes 1, Function.update (passStart []).db ⟨0, 7⟩
    (some ⟨some (asc "\x7b\"quota\":1\x7d"), []⟩)⟩
  let s'' : Reaper := ⟨[], 2, quotaBytes (quotaBytes 1),
    Function.update s'.db ⟨0, 8⟩ (some ⟨none, []⟩)⟩
  have hnext : (passStart []).next 0 259201 = .ok (some s') :=
    Reaper.next_reaped rfl hdb hfirst
  have hnext' : s'.next 0 259201 = .ok (some s'') := by
    have hdb : s'.db ⟨0, 8⟩ = some ⟨none, [oneRecord []]⟩ := rfl
    exact Reaper.next_reaped (s := s') rfl hdb hsecond
  have hdb' : s'.db ⟨0, 7⟩ = some ⟨some (asc "\x7b\"quota\":1\x7d"), []⟩ := rfl
  exact ⟨passStart [], s', s'', _, _, passStart_reachable _ _ _, hnext, hdb, hdb',
    by decide, rfl, rfl, hnext', rfl, rfl, by decide⟩

end Opticon
