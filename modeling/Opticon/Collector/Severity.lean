import Mathlib.Tactic.Linarith
import Opticon.Collector.WatcherLaws
import Opticon.Lib.Transition

/-! How bad the status of a host can get by the triggers of its watchers. -/

namespace Opticon

/-- The badness above which a round with this highest trigger adds nothing. -/
def Watchtrigger.cap : Watchtrigger → ℚ
  | .none => 0
  | .warn => 50
  | .alert => 90
  | .crit => 150

/-- A status that is worse than what a trigger stands for. -/
def Watchtrigger.exceeded : Watchtrigger → List UInt8 → Prop
  | .warn, status => status = asc "ALERT" ∨ status = asc "CRIT"
  | .alert, status => status = asc "CRIT"
  | _, _ => False

/-- The badness such a status begins at, for the triggers that have one. -/
def Watchtrigger.bound : Watchtrigger → ℚ
  | .warn => 80
  | _ => 120

/-- What a round adds up over the meters of a host: the number of problems, the sum of what
the watchers that match make of them, and the highest trigger. -/
def roundTotals (r : Round) (host : Host) : Except Fault (Nat × ℚ × Watchtrigger) := do
  let h ← pingMeters r host
  let (h, m_status) := hostGetMeter h midStatus
  let h ← h.updateMeter m_status fun m => meterSetcount h.lastmodified m 0
  let (_, totals) ← badnessPass r (host.meters = []) h.meters
  return totals

/-- A host gets a round of the watcher, or whatever other meters. -/
inductive HostStep where
  | round (r : Round)
  | update (h : Host)

/-- The rounds of a host that starts without badness, in which no watcher above a trigger
matches. A host that is stale is not measured, and one that is removed has no next round. -/
def watched (t : Watchtrigger) : Transition Host HostStep where
  init h := h.badness = 0
  step h e h' := match e with
    | .update u => h' = u ∧ u.badness = h.badness
    | .round r => (∃ w, watchthreadHandleHost r h = .ok w ∧ w.host = some h') ∧
      (r.tnow - h.lastmodified ≤ 80 → ∀ problemcount total maxtrigger,
        roundTotals r h = .ok (problemcount, total, maxtrigger) → maxtrigger.level ≤ t.level)

/-- The status after a round, and one that is reported, are not worse than a trigger. -/
def NotWorse (t : Watchtrigger) (h : Host) (r : Round) : Prop :=
  ∀ w h', watchthreadHandleHost r h = .ok w → w.host = some h' → r.tnow - h.lastmodified ≤ 80 →
    ¬ t.exceeded (statusText h'.badness) ∧ ∀ rep, w.report = some rep → ¬ t.exceeded rep.status

/-- A round that is not capped adds no more than the status allows. -/
def Moderate (t : Watchtrigger) (h : Host) : HostStep → Prop
  | .update _ => True
  | .round r => r.tnow - h.lastmodified ≤ 80 → ∀ problemcount total maxtrigger,
      roundTotals r h = .ok (problemcount, total, maxtrigger) → maxtrigger ≠ .none →
      h.badness ≤ maxtrigger.cap → h.badness + total < t.bound

variable {r : Round} {h h' host : Host} {t maxtrigger : Watchtrigger} {badness total : ℚ}
  {problemcount : Nat}

/-- What becomes of the badness once the sum of a round is known. -/
def settledBadness (problemcount : Nat) (total : ℚ) (maxtrigger : Watchtrigger) (badness : ℚ) : ℚ :=
  let added := cappedBadness maxtrigger badness total
  if problemcount = 0 then decayed (badness + added)
  else if added = 0 then (badness + added) * (9 / 10)
  else badness + added

theorem badness_of_head (hh : h'.head = h.head) : h'.badness = h.badness :=
  congrArg (fun h => h.badness) hh

theorem problemMeter_badness (hp : problemMeter problemcount total h = .ok h') :
    h'.badness = if problemcount = 0 then decayed h.badness
      else if total = 0 then h.badness * (9 / 10) else h.badness := by
  have hget := badness_of_head (hostGetMeter_head h (makeid (asc "problems") MTYPE_STR))
  unfold problemMeter at hp
  generalize hostGetMeter h (makeid (asc "problems") MTYPE_STR) = g at hp hget
  obtain ⟨h₁, m_problems⟩ := g
  dsimp only at hp hget
  split at hp
  · rename_i hnone
    rw [if_pos hnone, badness_of_head (updateMeter_head hp), ← hget]
  · rename_i hsome
    obtain ⟨h₂, hu, hf⟩ := Outcome.bind_ok_iff.mp hp
    rw [if_neg hsome, badness_of_head (fillProblems_head hf), badness_of_head (updateMeter_head hu)]
    split
    · rw [← hget]
    · exact hget

theorem handleBadness_badness {empty : Bool} {ms : List Meter}
    (hpass : badnessPass r empty h.meters = .ok (ms, problemcount, total, maxtrigger))
    (hb : handleBadness r empty h = .ok h') :
    h'.badness = settledBadness problemcount total maxtrigger h.badness := by
  rw [handleBadness, hpass, Outcome.ok_bind] at hb
  obtain ⟨h₁, hp, hs⟩ := Outcome.bind_ok_iff.mp hb
  have hget := badness_of_head (hostGetMeter_head h₁ (makeid (asc "badness") MTYPE_FRAC))
  exact (badness_of_head (setFracMeter_head hs)).trans (hget.trans (problemMeter_badness hp))

/-- A sum other than zero has a problem. -/
theorem badnessRound_total {ms ms' : List Meter} {count count' : Nat} {sum sum' : ℚ}
    {trig trig' : Watchtrigger}
    (hb : badnessRound r ms count sum trig = .ok (ms', count', sum', trig')) :
    count ≤ count' ∧ (count' = count → sum' = sum) := by
  induction ms generalizing count sum trig ms' with
  | nil =>
    cases hb
    exact ⟨le_rfl, fun _ => rfl⟩
  | cons m ms ih =>
    obtain ⟨⟨b, trig₁⟩, -, hb⟩ := Outcome.bind_ok_iff.mp hb
    obtain ⟨⟨ms₁, rest⟩, hrest, hb⟩ := Outcome.bind_ok_iff.mp hb
    cases hb
    obtain ⟨hle, heq⟩ := ih hrest
    split at hle
    · exact ⟨(Nat.le_succ _).trans hle, fun h => absurd hle (by omega)⟩
    · rename_i hzero
      rw [if_neg hzero] at heq
      have hzero : b = 0 := not_not.mp hzero
      refine ⟨hle, fun h => ?_⟩
      rw [heq h, hzero, add_zero]

theorem badnessPass_total {empty : Bool} {ms ms' : List Meter}
    (hb : badnessPass r empty ms = .ok (ms', problemcount, total, maxtrigger)) :
    problemcount = 0 → total = 0 := by
  unfold badnessPass at hb
  split at hb
  · cases hb
    exact fun _ => rfl
  · exact (badnessRound_total hb).2

/-- A round of a host that is not stale. -/
theorem watchthreadHandleHost_totals {w : Watched} (hw : watchthreadHandleHost r host = .ok w)
    (hh : w.host = some h') (hfresh : r.tnow - host.lastmodified ≤ 80) :
    ∃ problemcount total maxtrigger, roundTotals r host = .ok (problemcount, total, maxtrigger) ∧
      (problemcount = 0 → total = 0) ∧
      h'.badness = settledBadness problemcount total maxtrigger host.badness ∧
      ∀ rep, w.report = some rep → rep.status = statusText h'.badness := by
  obtain ⟨h₁, hping, hw⟩ := Outcome.bind_ok_iff.mp hw
  have hhead := (hostGetMeter_head h₁ midStatus).trans (pingMeters_head hping)
  have htotals : roundTotals r host = (do
      let h ← (hostGetMeter h₁ midStatus).1.updateMeter (hostGetMeter h₁ midStatus).2 fun m =>
        meterSetcount (hostGetMeter h₁ midStatus).1.lastmodified m 0
      let (_, totals) ← badnessPass r (host.meters = []) h.meters
      return totals) := by
    rw [roundTotals, hping, Outcome.ok_bind]
  generalize hostGetMeter h₁ midStatus = g at hw hhead htotals
  obtain ⟨h₂, m_status⟩ := g
  obtain ⟨ostatus, -, hw⟩ := Outcome.bind_ok_iff.mp hw
  obtain ⟨h₃, hcount, hw⟩ := Outcome.bind_ok_iff.mp hw
  have hhead := (updateMeter_head hcount).trans hhead
  have hlast : h₃.lastmodified = host.lastmodified := congrArg (fun h => h.lastmodified) hhead
  rw [hcount, Outcome.ok_bind] at htotals
  simp only [hlast] at hw
  rw [if_neg (Nat.not_lt.mpr hfresh)] at hw
  obtain ⟨h₄, hbad, hw⟩ := Outcome.bind_ok_iff.mp hw
  obtain ⟨h₅, hset, hw⟩ := Outcome.bind_ok_iff.mp hw
  cases hw
  cases hh
  obtain ⟨⟨ms, problemcount, total, maxtrigger⟩, hpass, -⟩ := Outcome.bind_ok_iff.mp hbad
  have hbadness := handleBadness_badness hpass hbad
  rw [badness_of_head hhead] at hbadness
  have hkept := badness_of_head (updateMeter_head hset)
  refine ⟨problemcount, total, maxtrigger, ?_, badnessPass_total hpass, hkept.trans hbadness, ?_⟩
  · rw [htotals, hpass]
    rfl
  · intro rep hrep
    rw [hkept]
    obtain ⟨-, hrep⟩ := Option.ite_none_right_eq_some.mp hrep
    rw [← Option.some.inj hrep]

theorem watchthreadHandleHost_stale {w : Watched} (hw : watchthreadHandleHost r host = .ok w)
    (hh : w.host = some h') (hstale : ¬ r.tnow - host.lastmodified ≤ 80) :
    h'.badness = host.badness := by
  obtain ⟨h₁, hping, hw⟩ := Outcome.bind_ok_iff.mp hw
  have hhead := (hostGetMeter_head h₁ midStatus).trans (pingMeters_head hping)
  generalize hostGetMeter h₁ midStatus = g at hw hhead
  obtain ⟨h₂, m_status⟩ := g
  obtain ⟨ostatus, -, hw⟩ := Outcome.bind_ok_iff.mp hw
  obtain ⟨h₃, hcount, hw⟩ := Outcome.bind_ok_iff.mp hw
  have hhead := (updateMeter_head hcount).trans hhead
  have hlast : h₃.lastmodified = host.lastmodified := congrArg (fun h => h.lastmodified) hhead
  simp only [hlast] at hw
  rw [if_pos (Nat.not_le.mp hstale)] at hw
  obtain ⟨h₄, hset, hw⟩ := Outcome.bind_ok_iff.mp hw
  split at hw
  · cases hw
    cases hh
  · cases hw
    cases hh
    exact (badness_of_head (updateMeter_head hset)).trans (badness_of_head hhead)

theorem decayed_lt {q : ℚ} (hq : 0 < q) (h : badness < q) : decayed badness < q := by
  unfold decayed
  split
  · linarith
  split
  · linarith
  split
  · linarith
  · exact hq

/-- A status is worse than a trigger from the badness it begins at. -/
theorem exceeded_iff (ht : t = .warn ∨ t = .alert) :
    t.exceeded (statusText badness) ↔ t.bound ≤ badness := by
  have htexts : asc "OK" ≠ asc "ALERT" ∧ asc "OK" ≠ asc "CRIT" ∧ asc "WARN" ≠ asc "ALERT" ∧
    asc "WARN" ≠ asc "CRIT" ∧ asc "ALERT" ≠ asc "CRIT" := by decide
  obtain ⟨h₁, h₂, h₃, h₄, h₅⟩ := htexts
  obtain rfl | rfl := ht
  · simp only [Watchtrigger.exceeded, Watchtrigger.bound, statusText]
    split
    · simp only [h₁, h₂, or_self, false_iff, not_le]
      linarith
    split
    · simp only [h₃, h₄, or_self, false_iff, not_le]
      assumption
    · rename_i hge
      have hle : (80 : ℚ) ≤ badness := not_lt.mp hge
      split <;> simp [hle]
  · simp only [Watchtrigger.exceeded, Watchtrigger.bound, statusText]
    split
    · simp only [h₂, false_iff, not_le]
      linarith
    split
    · simp only [h₄, false_iff, not_le]
      linarith
    split
    · simp only [h₅, false_iff, not_le]
      assumption
    · rename_i hge
      exact ⟨fun _ => not_lt.mp hge, fun _ => rfl⟩

/-- The sum of a round counts if there was not too much badness before. -/
theorem cappedBadness_eq (hno : maxtrigger ≠ .none) :
    cappedBadness maxtrigger badness total = if maxtrigger.cap < badness then 0 else total := by
  cases maxtrigger with
  | none => exact absurd rfl hno
  | warn => rfl
  | alert => rfl
  | crit => rfl

theorem settledBadness_lt (hlt : badness < t.bound)
    (hmod : maxtrigger ≠ .none → badness ≤ maxtrigger.cap → badness + total < t.bound) :
    settledBadness problemcount total maxtrigger badness < t.bound := by
  have hpos : 0 < t.bound := by cases t <;> norm_num [Watchtrigger.bound]
  have hadded : badness + cappedBadness maxtrigger badness total < t.bound := by
    by_cases hno : maxtrigger = .none
    · rw [hno, cappedBadness, add_zero]
      exact hlt
    · rw [cappedBadness_eq hno]
      split
      · rw [add_zero]
        exact hlt
      · rename_i hcap
        exact hmod hno (not_lt.mp hcap)
  simp only [settledBadness]
  split
  · exact decayed_lt hpos hadded
  split
  · linarith
  · exact hadded

/-- What is above the bound before decay stays there, as there are problems. -/
theorem bound_le_settledBadness (ht : t = .warn ∨ t = .alert) (hlevel : maxtrigger.level ≤ t.level)
    (hzero : problemcount = 0 → total = 0) (hno : maxtrigger ≠ .none)
    (hcap : badness ≤ maxtrigger.cap) (hge : t.bound ≤ badness + total) :
    t.bound ≤ settledBadness problemcount total maxtrigger badness := by
  have hgap : maxtrigger.cap < t.bound := by
    cases maxtrigger with
    | none => exact absurd rfl hno
    | warn => obtain rfl | rfl := ht <;> norm_num [Watchtrigger.cap, Watchtrigger.bound]
    | alert =>
      obtain rfl | rfl := ht
      · exact absurd hlevel (by decide)
      · norm_num [Watchtrigger.cap, Watchtrigger.bound]
    | crit => obtain rfl | rfl := ht <;> exact absurd hlevel (by decide)
  have htotal : total ≠ 0 := by
    intro h
    linarith
  have hadded : cappedBadness maxtrigger badness total = total := by
    rw [cappedBadness_eq hno, if_neg (not_lt.mpr hcap)]
  have hproblem : problemcount ≠ 0 := fun h => htotal (hzero h)
  simp only [settledBadness, hadded, if_neg hproblem, if_neg htotal]
  exact hge

theorem badness_lt_bound {es : List HostStep} (ht : t = .warn ∨ t = .alert)
    (hrun : ((watched t).guard (Moderate t)).History es h) : h.badness < t.bound := by
  apply hrun.induction (I := fun _ h => h.badness < t.bound)
  · intro h hinit
    rw [show h.badness = 0 from hinit]
    obtain rfl | rfl := ht <;> norm_num [Watchtrigger.bound]
  · rintro es h e h' ih ⟨hmod, hstep⟩
    cases e with
    | update u =>
      obtain ⟨rfl, hbadness⟩ := hstep
      rw [hbadness]
      exact ih
    | round r =>
      obtain ⟨⟨w, hw, hh⟩, -⟩ := hstep
      by_cases hfresh : r.tnow - h.lastmodified ≤ 80
      · obtain ⟨problemcount, total, maxtrigger, htotals, -, hbadness, -⟩ :=
          watchthreadHandleHost_totals hw hh hfresh
        rw [hbadness]
        exact settledBadness_lt ih (hmod hfresh _ _ _ htotals)
      · rw [watchthreadHandleHost_stale hw hh hfresh]
        exact ih

/-- In every run of rounds in which no watcher above WARN matches, or none above ALERT, and
the sums that are added are moderate, the status after a further round is not worse than
that if and only if the sum of this round is moderate too. -/
theorem status_not_worse_iff {es : List HostStep} (ht : t = .warn ∨ t = .alert)
    (hrun : ((watched t).guard (Moderate t)).History es h)
    (hstep : (watched t).step h (.round r) h') : NotWorse t h r ↔ Moderate t h (.round r) := by
  have hlt := badness_lt_bound ht hrun
  obtain ⟨⟨w, hw, hh⟩, hlevel⟩ := hstep
  constructor
  · intro hnot hfresh problemcount total maxtrigger htotals hno hcap
    obtain ⟨count, sum, trig, htotals', hzero, hbadness, -⟩ :=
      watchthreadHandleHost_totals hw hh hfresh
    cases htotals'.symm.trans htotals
    by_contra hge
    have hworse := bound_le_settledBadness ht (hlevel hfresh _ _ _ htotals) hzero hno hcap
      (not_lt.mp hge)
    rw [← hbadness] at hworse
    exact (hnot w h' hw hh hfresh).1 ((exceeded_iff ht).mpr hworse)
  · intro hmod w' h'' hw' hh' hfresh
    obtain ⟨count, sum, trig, htotals, -, hbadness, hreport⟩ :=
      watchthreadHandleHost_totals hw' hh' hfresh
    have hbelow : h''.badness < t.bound := by
      rw [hbadness]
      exact settledBadness_lt hlt (hmod hfresh _ _ _ htotals)
    have hnot : ¬ t.exceeded (statusText h''.badness) := by
      rw [exceeded_iff ht]
      exact not_le.mpr hbelow
    refine ⟨hnot, fun rep hrep => ?_⟩
    rw [hreport rep hrep]
    exact hnot

/-! ### Sixteen warnings in one round -/

/-- A host with a meter of sixteen numbers. -/
def busyHost : Host :=
  { hostAlloc ⟨0, 3⟩ with
    meters := [⟨makeid (asc "load") MTYPE_INT, 0, 16,
      some ⟨128, List.replicate 16 (.int 9)⟩, 0⟩]
    mcount := 1 }

/-- A round in which each number above the limit makes a badness of 5. -/
def warnRound (limit : BitVec 64) : Round where
  tnow := 0
  watch := []
  global := [⟨.warn, makeid (asc "load") MTYPE_INT, .uintGt limit, 5⟩]
  adjust := []
  ping _ := (.fin 0, .fin 0)
  dbOpen := false
  hostExists := false

theorem exists_watched {q : ℚ}
    (hmap : ((watchthreadHandleHost r h).map fun w => w.host.map fun h => h.badness) = .ok (some q)) :
    ∃ w h', watchthreadHandleHost r h = .ok w ∧ w.host = some h' ∧ h'.badness = q := by
  cases hw : watchthreadHandleHost r h with
  | error e =>
    rw [hw] at hmap
    cases hmap
  | ok w =>
    rw [hw] at hmap
    obtain ⟨h', hh, hq⟩ := Option.map_eq_some_iff.mp (Except.ok.inj hmap)
    exact ⟨w, h', rfl, hh, hq⟩

theorem level_of_totals {totals : Nat × ℚ × Watchtrigger} (htotals : roundTotals r h = .ok totals)
    (hlevel : totals.2.2.level ≤ t.level) :
    r.tnow - h.lastmodified ≤ 80 → ∀ problemcount total maxtrigger,
      roundTotals r h = .ok (problemcount, total, maxtrigger) → maxtrigger.level ≤ t.level := by
  intro _ problemcount total maxtrigger htotals'
  cases htotals.symm.trans htotals'
  exact hlevel

theorem status_not_worse_quiet :
    NotWorse .warn busyHost (warnRound 9) ↔ Moderate .warn busyHost (.round (warnRound 9)) := by
  obtain ⟨w, h', hw, hh, -⟩ := @exists_watched (warnRound 9) busyHost 0 (by decide +kernel)
  have htotals : roundTotals (warnRound 9) busyHost = .ok (0, 0, .none) := by decide +kernel
  exact status_not_worse_iff (.inl rfl) (Transition.History.init rfl)
    ⟨⟨w, hw, hh⟩, level_of_totals htotals (by decide)⟩

/-- Warnings only, and the status is ALERT: the badness before the round was below the cap, so
all of the sum is added. -/
theorem warnings_raise_alert : ¬ ∀ t es h r h', t = .warn ∨ t = .alert →
    (watched t).History es h → (watched t).step h (.round r) h' → NotWorse t h r := by
  intro hall
  obtain ⟨w, h', hw, hh, hq⟩ := @exists_watched (warnRound 8) busyHost 80 (by decide +kernel)
  have htotals : roundTotals (warnRound 8) busyHost = .ok (1, 80, .warn) := by decide +kernel
  have hnot := hall .warn [] busyHost (warnRound 8) h' (.inl rfl) (Transition.History.init rfl)
    ⟨⟨w, hw, hh⟩, level_of_totals htotals le_rfl⟩
  refine (hnot w h' hw hh (Nat.zero_le 80)).1 ((exceeded_iff (.inl rfl)).mpr ?_)
  rw [hq]
  exact le_rfl

end Opticon
