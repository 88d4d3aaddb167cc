import Mathlib.Data.List.Chain
import Opticon.Agent.ProcrunLaws

/-! Runs of rounds: the percentage of a process, and the processes that are forgotten. -/

namespace Opticon

open Outcome SlotTable

variable {p c : Procrun} {es : List Tproc} {rs : List ProcRound} {r s : ProcRound} {pid : ℕ}

def ProcRound.pids (r : ProcRound) : List ℕ := r.reports.map ProcReport.pid

/-- Each process that runs is reported once in a round, and a second passes between rounds. -/
structure Rounds (rs : List ProcRound) : Prop where
  nodup : ∀ r ∈ rs, r.pids.Nodup
  pid_ne : ∀ r ∈ rs, ∀ a ∈ r.reports, a.pid ≠ 0
  apart : rs.IsChain fun r s => r.time + 1 ≤ s.time

/-- The slots in use. -/
def procs (p : Procrun) : List Tproc := (p.array.take p.count).filterMap id

theorem Laid.procs_eq (h : Laid p es) : procs p = es := by
  obtain ⟨spare, harray⟩ := h.array
  rw [procs, harray, h.count, List.take_append_of_le_length (by simp),
    List.take_of_length_le (by simp), List.filterMap_map]
  exact List.filterMap_some

/-! ## What passes from round to round -/

/-- A report of the process was followed by rounds at most ten seconds apart only. -/
def Lingers (rs : List ProcRound) (pid : ℕ) : Prop :=
  ∃ as r bs, rs = as ++ r :: bs ∧ pid ∈ r.pids ∧
    (r :: bs).IsChain fun r s => s.time - r.time ≤ 10

theorem lingers_snoc : Lingers (rs ++ [r]) pid ↔
    pid ∈ r.pids ∨ Lingers rs pid ∧ ∀ s ∈ rs.getLast?, r.time - s.time ≤ 10 := by
  constructor
  · rintro ⟨as, s, bs, hrs, hpid, hchain⟩
    rcases List.eq_nil_or_concat bs with rfl | ⟨bs, b, rfl⟩
    · obtain ⟨-, hr⟩ := List.append_inj' hrs rfl
      cases hr
      exact .inl hpid
    · rw [List.concat_eq_append, ← List.cons_append, ← List.append_assoc] at hrs
      obtain ⟨rfl, hr⟩ := List.append_inj' hrs rfl
      cases hr
      rw [List.concat_eq_append, ← List.cons_append, List.isChain_append] at hchain
      refine .inr ⟨⟨as, s, bs, rfl, hpid, hchain.1⟩, fun l hl => ?_⟩
      rw [List.getLast?_append_cons] at hl
      exact hchain.2.2 l hl r (by simp)
  · rintro (hpid | ⟨⟨as, s, bs, rfl, hpid, hchain⟩, hgap⟩)
    · exact ⟨rs, r, [], rfl, hpid, List.isChain_singleton _⟩
    · refine ⟨as, s, bs ++ [r], by simp, hpid, ?_⟩
      rw [← List.cons_append, List.isChain_append]
      refine ⟨hchain, List.isChain_singleton _, fun l hl b hb => ?_⟩
      cases (by simpa using hb : r = b)
      exact hgap l (by rw [List.getLast?_append_cons]; exact hl)

theorem Lingers.exists_last (h : Lingers rs pid) : ∃ s, s ∈ rs.getLast? := by
  obtain ⟨as, r, bs, rfl, -, -⟩ := h
  exact ⟨_, List.getLast?_eq_some_getLast (by simp)⟩

/-- What the array holds between rounds. -/
structure Recorded (p : Procrun) (es : List Tproc) (rs : List ProcRound) : Prop where
  laid : Laid p es
  distinct : Distinct Tproc.pid 0 es
  start : ∀ r ∈ rs.getLast?, p.tiStart = r.time
  counters : ∀ r ∈ rs.getLast?, ∀ a ∈ r.reports, ∃ t, slot Tproc.pid es a.pid = some t ∧
    t.utimeStart = a.utime ∧ t.stimeStart = a.stime
  beat : ∀ t ∈ es, t.pid ≠ 0 → t.beat = p.tiStart
  lingers : ∀ pid, pid ≠ 0 → (pid ∈ es.map Tproc.pid ↔ Lingers rs pid)

theorem recorded_init (now : ℤ) (ncpu : ℕ) :
    Recorded { procrunInit now with ncpu } [] [] where
  laid := ⟨⟨_, rfl⟩, rfl, rfl, Nat.zero_lt_succ 15⟩
  distinct := List.Pairwise.nil
  start := by simp
  counters := by simp
  beat := by simp
  lingers pid _ := by simp [Lingers]

/-! ## One round -/

section Slots

variable {now : ℤ} {tdelta : ℕ} {reports : List ProcReport} {a : ProcReport} {t : Tproc}

theorem restarted_pid (now : ℤ) (t : Tproc) :
    (restarted now t).pid = t.pid ∨ (restarted now t).pid = 0 := by
  rw [restarted]
  split
  · split
    · exact .inr rfl
    · exact .inl rfl
  · exact .inl rfl

/-- A slot that is in use after the end of a round was not expired there. -/
theorem of_restarted_pid (h : (restarted now t).pid ≠ 0) :
    t.pid ≠ 0 ∧ now - t.beat ≤ 10 ∧ (restarted now t).pid = t.pid ∧ (restarted now t).beat = now := by
  have ht : t.pid ≠ 0 := fun ht => h (((restarted_pid now t).elim (·.trans ht)) id)
  rw [restarted, if_pos ht] at h ⊢
  by_cases hold : 10 < now - t.beat
  · rw [if_pos hold] at h
    exact absurd rfl h
  · rw [if_neg hold]
    exact ⟨ht, by omega, rfl, rfl⟩

theorem restarted_kept (ht : t.pid ≠ 0) (hbeat : now - t.beat ≤ 10) :
    restarted now t = { t with
      utimeStart := t.utimeStart + t.utimeRun
      stimeStart := t.stimeStart + t.stimeRun
      utimeRun := 0
      stimeRun := 0
      pcpu := 0
      beat := now } := by
  rw [restarted, if_pos ht, if_neg (by omega)]

/-- The table after a whole round. -/
def roundOf (now : ℤ) (tdelta : ℕ) (reports : List ProcReport) (es : List Tproc) : List Tproc :=
  ((sampled now reports es).map (calced tdelta)).map (restarted now)

theorem sampled_distinct (hd : Distinct Tproc.pid 0 es) (hne : ∀ a ∈ reports, a.pid ≠ 0) :
    Distinct Tproc.pid 0 (sampled now reports es) :=
  hd.putAll (reported_keyed now) hne

theorem calced_distinct (hd : Distinct Tproc.pid 0 es) (hne : ∀ a ∈ reports, a.pid ≠ 0) :
    Distinct Tproc.pid 0 ((sampled now reports es).map (calced tdelta)) :=
  (sampled_distinct hd hne).map fun _ => .inl (calced_pid _ _)

theorem roundOf_distinct (hd : Distinct Tproc.pid 0 es) (hne : ∀ a ∈ reports, a.pid ≠ 0) :
    Distinct Tproc.pid 0 (roundOf now tdelta reports es) :=
  (calced_distinct hd hne).map (restarted_pid now)

/-- What a round makes of a slot that it does not expire. -/
theorem slot_roundOf (hd : Distinct Tproc.pid 0 es) (hne : ∀ a ∈ reports, a.pid ≠ 0)
    (hpid : pid ≠ 0) (ht : slot Tproc.pid (sampled now reports es) pid = some t)
    (hbeat : now - t.beat ≤ 10) :
    slot Tproc.pid (roundOf now tdelta reports es) pid = some (restarted now (calced tdelta t)) := by
  have hcalced := slot_map (sampled_distinct hd hne) (fun _ => .inl (calced_pid tdelta _)) hpid ht
    (calced_pid tdelta t)
  refine slot_map (calced_distinct hd hne) (restarted_pid now) hpid hcalced ?_
  rw [restarted_kept (by rw [calced_pid, (mem_of_slot ht).2]; exact hpid)
    (by rw [calced_beat]; exact hbeat)]

/-- A process has a slot after a round if its slot was not expired. -/
theorem mem_roundOf (hd : Distinct Tproc.pid 0 es) (hne : ∀ a ∈ reports, a.pid ≠ 0)
    (hpid : pid ≠ 0) : pid ∈ (roundOf now tdelta reports es).map Tproc.pid ↔
      ∃ t, slot Tproc.pid (sampled now reports es) pid = some t ∧ now - t.beat ≤ 10 := by
  constructor
  · intro hmem
    obtain ⟨u, hu, rfl⟩ := List.mem_map.mp hmem
    obtain ⟨v, hv, rfl⟩ := List.mem_map.mp hu
    obtain ⟨t, ht, rfl⟩ := List.mem_map.mp hv
    obtain ⟨-, hbeat, hkept, -⟩ := of_restarted_pid hpid
    rw [calced_beat] at hbeat
    rw [calced_pid] at hkept
    exact ⟨t, (slot_eq_some_iff (sampled_distinct hd hne) hpid).mpr ⟨ht, hkept.symm⟩, hbeat⟩
  · rintro ⟨t, ht, hbeat⟩
    have hslot : slot Tproc.pid (roundOf now tdelta reports es) pid =
        some (restarted now (calced tdelta t)) := slot_roundOf hd hne hpid ht hbeat
    obtain ⟨hmem, hkey⟩ := mem_of_slot hslot
    exact List.mem_map.mpr ⟨_, hmem, hkey⟩

theorem slot_sampled (hd : Distinct Tproc.pid 0 es) (hne : ∀ a ∈ reports, a.pid ≠ 0)
    (hnodup : (reports.map ProcReport.pid).Nodup) (ha : a ∈ reports) :
    slot Tproc.pid (sampled now reports es) a.pid =
      some (reported now a (slot Tproc.pid es a.pid)) :=
  slot_putAll (reported_keyed now) hd hne hnodup ha

@[simp] theorem reported_beat (now : ℤ) (a : ProcReport) (old : Option Tproc) :
    (reported now a old).beat = now := by
  cases old <;> rfl

/-- The counters of a report are those that the next round starts from. -/
theorem restarted_reported (now : ℤ) (tdelta : ℕ) (a : ProcReport) (old : Option Tproc)
    (hpid : (reported now a old).pid ≠ 0) :
    (restarted now (calced tdelta (reported now a old))).utimeStart = a.utime ∧
      (restarted now (calced tdelta (reported now a old))).stimeStart = a.stime := by
  rw [restarted_kept (by rw [calced_pid]; exact hpid) (by rw [calced_beat, reported_beat]; omega),
    calced, if_pos hpid]
  cases old with
  | none => exact ⟨UInt64.add_zero _, UInt64.add_zero _⟩
  | some t =>
    have hsum : ∀ x y : UInt64, x + (y - x) = y := fun x y => by
      rw [UInt64.add_comm, UInt64.sub_add_cancel]
    exact ⟨hsum _ _, hsum _ _⟩

end Slots

/-- A round passes on what the array holds. -/
theorem Recorded.round (h : Recorded p es rs) (hnodup : r.pids.Nodup)
    (hne : ∀ a ∈ r.reports, a.pid ≠ 0) :
    ∃ c n, sampleRound p r = .ok c ∧ procrunNewround c = .ok n ∧
      Laid c ((sampled r.time r.reports es).map
        (calced (tickDelta (procrunInitsample p r.time)))) ∧
      Recorded n (roundOf r.time (tickDelta (procrunInitsample p r.time)) r.reports es)
        (rs ++ [r]) := by
  obtain ⟨c, hc, hclock, hlaid⟩ := sampleRound_laid h.laid r
  obtain ⟨n, hn, hlaid', hstart⟩ := procrunNewround_laid hlaid
  have hnow : c.tiNow = r.time := hclock.now
  rw [hnow] at hlaid' hstart
  have hlast : ∀ s ∈ (rs ++ [r]).getLast?, s = r := fun s hs => by
    rw [List.getLast?_concat] at hs
    exact (Option.some.inj hs).symm
  refine ⟨c, n, hc, hn, hlaid, ?_⟩
  constructor
  case laid => exact hlaid'
  case distinct => exact roundOf_distinct h.distinct hne
  case start =>
    intro s hs
    rw [hlast s hs]
    exact hstart
  case counters =>
    intro s hs a ha
    rw [hlast s hs] at ha
    have hslot : slot Tproc.pid (sampled r.time r.reports es) a.pid =
        some (reported r.time a (slot Tproc.pid es a.pid)) := slot_sampled h.distinct hne hnodup ha
    exact ⟨_, slot_roundOf h.distinct hne (hne a ha) hslot (by rw [reported_beat]; omega),
      restarted_reported _ _ _ _ (by rw [(mem_of_slot hslot).2]; exact hne a ha)⟩
  case beat =>
    intro t ht hpid
    obtain ⟨u, -, rfl⟩ := List.mem_map.mp ht
    exact (of_restarted_pid hpid).2.2.2.trans hstart.symm
  case lingers =>
    intro pid hpid
    rw [mem_roundOf h.distinct hne hpid, lingers_snoc]
    by_cases hmem : pid ∈ r.pids
    · obtain ⟨a, ha, rfl⟩ := List.mem_map.mp hmem
      refine iff_of_true ⟨_, slot_sampled h.distinct hne hnodup ha, ?_⟩ (.inl hmem)
      rw [reported_beat]
      omega
    · rw [sampled, slot_putAll_other (reported_keyed r.time) h.distinct hne hpid hmem,
        ← h.lingers pid hpid]
      constructor
      · rintro ⟨t, ht, hbeat⟩
        obtain ⟨htes, htpid⟩ := mem_of_slot ht
        refine .inr ⟨List.mem_map.mpr ⟨t, htes, htpid⟩, fun s hs => ?_⟩
        rw [← h.start s hs, ← h.beat t htes (htpid ▸ hpid)]
        exact hbeat
      · rintro (hr | ⟨hes, hgap⟩)
        · exact absurd hr hmem
        · obtain ⟨t, ht, htpid⟩ := List.mem_map.mp hes
          obtain ⟨s, hs⟩ := ((h.lingers pid hpid).mp hes).exists_last
          refine ⟨t, (slot_eq_some_iff h.distinct hpid).mpr ⟨ht, htpid⟩, ?_⟩
          rw [h.beat t ht (htpid ▸ hpid), h.start s hs]
          exact hgap s hs

theorem Rounds.init (h : Rounds (rs ++ [r])) : Rounds rs where
  nodup s hs := h.nodup s (List.mem_append_left _ hs)
  pid_ne s hs := h.pid_ne s (List.mem_append_left _ hs)
  apart := h.apart.left_of_append

theorem Rounds.last (h : Rounds (rs ++ [r])) :
    r.pids.Nodup ∧ (∀ a ∈ r.reports, a.pid ≠ 0) ∧ ∀ s ∈ rs.getLast?, s.time + 1 ≤ r.time :=
  ⟨h.nodup r (by simp), h.pid_ne r (by simp), fun s hs =>
    (List.isChain_append.mp h.apart).2.2 s hs r (by simp)⟩

theorem runRounds_recorded (h : Rounds rs) (now : ℤ) (ncpu : ℕ) :
    ∃ p es, runRounds { procrunInit now with ncpu } rs = .ok p ∧ Recorded p es rs := by
  induction rs using List.reverseRecOn with
  | nil => exact ⟨_, [], rfl, recorded_init now ncpu⟩
  | append_singleton rs r ih =>
    obtain ⟨p, es, hp, hrecorded⟩ := ih h.init
    obtain ⟨c, n, hc, hn, -, hnext⟩ := hrecorded.round h.last.1 h.last.2.1
    refine ⟨n, _, ?_, hnext⟩
    rw [runRounds] at hp ⊢
    rw [List.foldlM_append, hp, ok_bind, List.foldlM_cons, hc, ok_bind, hn, ok_bind]
    rfl

/-! ## The percentage -/

/-- The increase of the counters of a process from one report to the next. -/
def tickIncrease (a b : ProcReport) : ℕ :=
  (b.utime.toNat - a.utime.toNat) + (b.stime.toNat - a.stime.toNat)

def elapsedTicks (s r : ProcRound) : ℕ := ((r.time - s.time) * CLK_TCK).toNat

/-- The elapsed ticks fit into an `unsigned short` up to 655 seconds. -/
theorem tickDelta_eq (hstart : p.tiStart = s.time) (hnow : p.tiNow = r.time)
    (hgap : s.time + 1 ≤ r.time) (hshort : r.time - s.time ≤ 655) :
    tickDelta p = elapsedTicks s r := by
  rw [tickDelta, elapsedTicks, hstart, hnow, CLK_TCK, Int.emod_eq_of_lt (by omega) (by omega)]
  exact if_neg (by omega)

theorem ustime_reported {now : ℤ} {a b : ProcReport} {t : Tproc} (tdelta : ℕ)
    (hu : t.utimeStart = a.utime) (hs : t.stimeStart = a.stime) (hule : a.utime ≤ b.utime)
    (hsle : a.stime ≤ b.stime) (hfits : tickIncrease a b < 2 ^ 64) :
    ustime tdelta (reported now b (some t)) = min (tickIncrease a b) tdelta := by
  have hsum : (b.stime - a.stime + (b.utime - a.utime)).toNat = tickIncrease a b := by
    rw [tickIncrease] at hfits ⊢
    rw [UInt64.toNat_add, UInt64.toNat_sub_of_le _ _ hsle, UInt64.toNat_sub_of_le _ _ hule,
      Nat.add_comm, Nat.mod_eq_of_lt hfits]
  rw [ustime, reported, runTproc, hu, hs]
  exact congrArg (min · tdelta) hsum

/-- A process has the share of the ticks of the last round. -/
theorem Recorded.pcpu (h : Recorded p es rs) (hlast : r.pids.Nodup)
    (hne : ∀ a ∈ r.reports, a.pid ≠ 0) (hs : s ∈ rs.getLast?) {a b : ProcReport}
    (ha : a ∈ s.reports) (hb : b ∈ r.reports) (hpid : a.pid = b.pid) (hule : a.utime ≤ b.utime)
    (hsle : a.stime ≤ b.stime) (hfits : tickIncrease a b < 2 ^ 64) (tdelta : ℕ) :
    ∃ t ∈ (sampled r.time r.reports es).map (calced tdelta), t.pid = b.pid ∧
      t.pcpu = 10000 * min (tickIncrease a b) tdelta / tdelta := by
  obtain ⟨old, hold, hu, hst⟩ := h.counters s hs a ha
  rw [hpid] at hold
  have hslot : slot Tproc.pid (sampled r.time r.reports es) b.pid =
      some (reported r.time b (slot Tproc.pid es b.pid)) := slot_sampled h.distinct hne hlast hb
  rw [hold] at hslot
  obtain ⟨hmem, hkey⟩ := mem_of_slot hslot
  refine ⟨_, List.mem_map_of_mem hmem, by rw [calced_pid, hkey], ?_⟩
  rw [calced, if_pos (by rw [hkey]; exact hne b hb),
    ustime_reported tdelta hu hst hule hsle hfits]

/-- No process is in use of which all reports are more than ten seconds old. -/
def Expired (rs : List ProcRound) (r : ProcRound) (es : List Tproc) : Prop :=
  ∀ pid, pid ≠ 0 → (∀ s ∈ rs ++ [r], pid ∈ s.pids → 10 < r.time - s.time) →
    ∀ t ∈ es, t.pid ≠ pid

theorem Recorded.expired_iff (h : Recorded p es (rs ++ [r]))
    (hne : ∀ s ∈ rs ++ [r], ∀ a ∈ s.reports, a.pid ≠ 0) :
    Expired rs r es ↔ ∀ pid, Lingers (rs ++ [r]) pid →
      ∃ s ∈ rs ++ [r], pid ∈ s.pids ∧ r.time - s.time ≤ 10 := by
  constructor
  · intro hexp pid hlingers
    have hpid : pid ≠ 0 := by
      obtain ⟨as, s, bs, hrs, hmem, -⟩ := hlingers
      obtain ⟨a, ha, rfl⟩ := List.mem_map.mp hmem
      exact hne s (hrs ▸ List.mem_append_right _ List.mem_cons_self) a ha
    obtain ⟨t, ht, htpid⟩ := List.mem_map.mp ((h.lingers pid hpid).mpr hlingers)
    by_contra hnone
    refine hexp pid hpid (fun s hs hmem => ?_) t ht htpid
    by_contra hgap
    exact hnone ⟨s, hs, hmem, by omega⟩
  · intro hgone pid hpid hold t ht htpid
    have hmem : pid ∈ es.map Tproc.pid := List.mem_map.mpr ⟨t, ht, htpid⟩
    obtain ⟨s, hs, hr, hgap⟩ := hgone pid ((h.lingers pid hpid).mp hmem)
    exact absurd (hold s hs hr) (by omega)

/-- A run never leaves the array and has one slot a process. Up to 655 seconds after the last
round the percentages are those of the elapsed ticks. What was not reported for ten seconds is
forgotten if no process was kept alive by rounds at most ten seconds apart. -/
theorem procrun_right (h : Rounds (rs ++ [r])) (now : ℤ) (ncpu : ℕ) :
    ∃ p c n, runRounds { procrunInit now with ncpu } rs = .ok p ∧ sampleRound p r = .ok c ∧
      procrunNewround c = .ok n ∧ Distinct Tproc.pid 0 (procs c) ∧
      Distinct Tproc.pid 0 (procs n) ∧
      (∀ s ∈ rs.getLast?, r.time - s.time ≤ 655 →
        ∀ a ∈ s.reports, ∀ b ∈ r.reports, a.pid = b.pid → a.utime ≤ b.utime →
          a.stime ≤ b.stime → tickIncrease a b < 2 ^ 64 →
          ∃ t ∈ procs c, t.pid = b.pid ∧
            t.pcpu = 10000 * min (tickIncrease a b) (elapsedTicks s r) / elapsedTicks s r) ∧
      (Expired rs r (procs n) ↔ ∀ pid, Lingers (rs ++ [r]) pid →
        ∃ s ∈ rs ++ [r], pid ∈ s.pids ∧ r.time - s.time ≤ 10) := by
  obtain ⟨hnodup, hne, hgap⟩ := h.last
  obtain ⟨p, es, hp, hrecorded⟩ := runRounds_recorded h.init now ncpu
  obtain ⟨c, n, hc, hn, hlaid, hnext⟩ := hrecorded.round hnodup hne
  refine ⟨p, c, n, hp, hc, hn, ?_⟩
  rw [hlaid.procs_eq, hnext.laid.procs_eq]
  refine ⟨calced_distinct hrecorded.distinct hne, hnext.distinct, ?_,
    hnext.expired_iff h.pid_ne⟩
  intro s hs hshort a ha b hb hpid hule hsle hfits
  have htdelta : tickDelta (procrunInitsample p r.time) = elapsedTicks s r :=
    tickDelta_eq (hrecorded.start s hs) rfl (hgap s hs) hshort
  rw [htdelta]
  exact hrecorded.pcpu hnodup hne hs ha hb hpid hule hsle hfits _

def shell (utime : UInt64) : ProcReport := ⟨1, utime, 0, 0, 0, [], 0⟩

/-- Half of the ticks of a second. -/
theorem procrun_right_shell :
    ∃ p c n, runRounds { procrunInit 0 with ncpu := 1 } [⟨0, [shell 0]⟩] = .ok p ∧
      sampleRound p ⟨1, [shell 50]⟩ = .ok c ∧ procrunNewround c = .ok n ∧
      ∃ t ∈ procs c, t.pid = 1 ∧ t.pcpu = 5000 := by
  have h : Rounds ([⟨0, [shell 0]⟩] ++ [⟨1, [shell 50]⟩]) :=
    ⟨by decide, by decide, by decide⟩
  obtain ⟨p, c, n, hp, hc, hn, -, -, hpcpu, -⟩ := procrun_right h 0 1
  exact ⟨p, c, n, hp, hc, hn,
    hpcpu _ rfl (by decide) _ List.mem_cons_self _ List.mem_cons_self rfl (by decide)
      (by decide) (by decide)⟩

/-- The 65600 ticks of 656 seconds are taken for 64; and a process that was not reported for
twelve seconds has its slot still. -/
theorem procrun_wraps :
    (do
      let p ← runRounds (procrunInit 0) [⟨0, [shell 0]⟩]
      let c ← sampleRound p ⟨656, [shell 100]⟩
      Except.ok ((procs c).map Tproc.pcpu)) = .ok [10000] ∧
    10000 * min (tickIncrease (shell 0) (shell 100)) 65600 / 65600 = 15 ∧
    (do
      let p ← runRounds (procrunInit 0) [⟨0, [shell 0]⟩, ⟨6, []⟩, ⟨12, []⟩]
      Except.ok ((procs p).map Tproc.pid)) = .ok [1] := by
  refine ⟨rfl, rfl, rfl⟩

end Opticon
