import Opticon.Collector.NotifyLaws
import Opticon.Lib.Decimal
import Opticon.Lib.Transition

/-! What is reported of a host, and when. -/

namespace Opticon

open Linked Notifylist

/-- How it stands with a host: what was set last, whether this state was reported, and whether
the last problem was. A host about which nothing was set has no problem. -/
structure Standing where
  isproblem : Bool
  status : List UInt8
  reported : Bool
  problemReported : Bool

def Standing.init : Standing := ⟨false, [], true, false⟩

def Standing.set (st : Standing) (isproblem : Bool) (status : List UInt8) : Standing :=
  if isproblem = st.isproblem then { st with status := status }
  else ⟨isproblem, status, false, !isproblem && st.problemReported⟩

def Standing.report (st : Standing) : Standing :=
  { st with reported := true, problemReported := st.problemReported || st.isproblem }

/-- The notifications of a tenant, and how it stands with its hosts. -/
structure Alerted where
  list : Notifylist
  standing : Uuid → Standing

inductive AlertStep where
  | set (hostid : Uuid) (isproblem : Bool) (status : List UInt8) (tnow : Nat)
  | check (tnow : Nat)

def isReported (issues : Option (List Issue)) (hostid : Uuid) : Bool :=
  (issues.getD []).any fun i => i.hostid == hostid

def AlertStep.apply : AlertStep → Alerted → Except Fault Alerted
  | .set hostid isproblem status tnow, s => do
    let list ← tenantSetNotification s.list isproblem status hostid tnow
    return ⟨list, Function.update s.standing hostid ((s.standing hostid).set isproblem status)⟩
  | .check tnow, s => do
    let (issues, list) ← tenantCheckNotification s.list tnow
    return ⟨list, fun hostid =>
      if isReported issues hostid then (s.standing hostid).report else s.standing hostid⟩

/-- Tenants that start without notifications. -/
def alerting : Transition Alerted AlertStep where
  init s := s = ⟨notifylistInit, fun _ => .init⟩
  step s e s' := e.apply s = .ok s'

/-- There is a notification for the host that was not reported. -/
def Pending (list : Notifylist) (hostid : Uuid) : Prop :=
  ∃ n node, notifylistFind list hostid = .ok (some n) ∧ list.mem n = some node ∧
    node.val.notified = false

/-- What a step has to do. A check reports the state of a host that was set last; a recovery
only if the problem was reported, and no state twice. A recovery from a reported problem, and
a problem after a reported recovery, become pending, and a problem that was not reported is
dropped when it clears. -/
def StepRight (s : Alerted) : AlertStep → Prop
  | .check tnow => ∀ issues list, tenantCheckNotification s.list tnow = .ok (some issues, list) →
      ∀ i ∈ issues, i.isproblem = (s.standing i.hostid).isproblem ∧
        i.status = (s.standing i.hostid).status ∧
        ((s.standing i.hostid).isproblem = false → (s.standing i.hostid).problemReported = true) ∧
        (s.standing i.hostid).reported = false
  | .set hostid isproblem status tnow =>
    ∀ list, tenantSetNotification s.list isproblem status hostid tnow = .ok list →
      (isproblem = false → (s.standing hostid).isproblem = true →
        (s.standing hostid).problemReported = true → Pending list hostid) ∧
      (isproblem = true → (s.standing hostid).isproblem = false →
        (s.standing hostid).reported = true → Pending list hostid) ∧
      (isproblem = false → (s.standing hostid).isproblem = true →
        (s.standing hostid).problemReported = false → notifylistFind list hostid = .ok none)

/-- A notification for a recovery from a problem that was reported is due. -/
def RecoveryDue (s : Alerted) (tnow : Nat) : Prop :=
  ∃ n node, s.list.mem n = some node ∧ node.val.overdue tnow = true ∧
    (s.standing node.val.hostid).isproblem = false ∧
    (s.standing node.val.hostid).problemReported = true

/-- The status has room, a notification is linked to a list whose last pointer is at its end,
and nothing is reported when a recovery is due. -/
def Unharmed (s : Alerted) : AlertStep → Prop
  | .set hostid isproblem status _ => status.length ≤ 15 ∧
      (isproblem = true → notifylistFind s.list hostid = .ok none → s.list.LastFinal)
  | .check tnow => notifylistCheckActionable s.list tnow = .ok true → ¬ RecoveryDue s tnow

/-- A notification tells how it stands with its host, but that it is always one of a problem. -/
structure Tells (st : Standing) (n : Notification) : Prop where
  isproblem : n.isproblem = true
  status : n.status = st.status
  pending : n.notified = false → st.reported = false ∧ st.problemReported = !st.isproblem
  done : n.notified = true → st.isproblem = true ∧ st.reported = true ∧ st.problemReported = true

/-- Each host has one notification at most, and none only if it has no problem. -/
structure Tracked (s : Alerted) (l : List (Nat × Notification)) : Prop where
  lists : s.list.Lists l
  hosts : (hostids l).Nodup
  told : ∀ x ∈ l, Tells (s.standing x.2.hostid) x.2
  quiet : ∀ hostid, hostid ∉ hostids l → (s.standing hostid).isproblem = false

variable {s s' : Alerted} {l l₁ l₂ : List (Nat × Notification)} {a : Nat} {v w : Notification}

theorem Tracked.init : Tracked ⟨notifylistInit, fun _ => .init⟩ [] := by
  refine ⟨.init, List.nodup_nil, ?_, fun _ _ => rfl⟩
  intro x hx
  cases hx

theorem hostids_split : hostids (l₁ ++ (a, v) :: l₂) = hostids l₁ ++ v.hostid :: hostids l₂ := by
  simp [hostids]

theorem Tracked.find (h : Tracked s (l₁ ++ (a, v) :: l₂)) :
    notifylistFind s.list v.hostid = .ok (some a) := by
  have hnodup := h.hosts
  rw [hostids_split, List.nodup_middle, List.nodup_cons, List.mem_append, not_or] at hnodup
  have hno : (l₁.find? fun x => v.hostid == x.2.hostid) = none := by
    rw [List.find?_eq_none]
    intro x hx heq
    rw [beq_iff_eq] at heq
    exact hnodup.1.1 (heq ▸ List.mem_map_of_mem (f := fun x => x.2.hostid) hx)
  rw [notifylistFind, h.lists.find, List.find?_append, hno]
  simp

theorem Tracked.find_none (h : Tracked s l) {hostid : Uuid} (hno : hostid ∉ hostids l) :
    notifylistFind s.list hostid = .ok none := by
  have hnone : (l.find? fun x => hostid == x.2.hostid) = none := by
    rw [List.find?_eq_none]
    intro x hx heq
    rw [beq_iff_eq] at heq
    exact hno (heq ▸ List.mem_map_of_mem (f := fun x => x.2.hostid) hx)
  rw [notifylistFind, h.lists.find, hnone]
  rfl

theorem Tracked.pending (h : Tracked s (l₁ ++ (a, v) :: l₂)) (hv : v.notified = false) :
    Pending s.list v.hostid := by
  obtain ⟨node, hm, rfl⟩ := h.lists.mem_node (show (a, v) ∈ _ by simp)
  exact ⟨a, node, h.find, hm, hv⟩

/-- A host that has a notification, or has none. -/
theorem Tracked.cases (h : Tracked s l) (hostid : Uuid) :
    (∃ l₁ a v l₂, l = l₁ ++ (a, v) :: l₂ ∧ v.hostid = hostid) ∨ hostid ∉ hostids l := by
  by_cases hmem : hostid ∈ hostids l
  · obtain ⟨⟨a, v⟩, hx, rfl⟩ := List.mem_map.mp hmem
    obtain ⟨l₁, l₂, rfl⟩ := List.append_of_mem hx
    exact .inl ⟨l₁, a, v, l₂, rfl, rfl⟩
  · exact .inr hmem

section Update

variable {list : Notifylist} {st : Standing}

/-- A host's notification and its standing change together. -/
theorem Tracked.write (h : Tracked s (l₁ ++ (a, v) :: l₂))
    (hlists : list.Lists (l₁ ++ (a, w) :: l₂)) (hid : w.hostid = v.hostid) (htells : Tells st w) :
    Tracked ⟨list, Function.update s.standing v.hostid st⟩ (l₁ ++ (a, w) :: l₂) := by
  have hsame : hostids (l₁ ++ (a, w) :: l₂) = hostids (l₁ ++ (a, v) :: l₂) := by
    rw [hostids_split, hostids_split, hid]
  refine ⟨hlists, hsame ▸ h.hosts, ?_, ?_⟩
  · have hnodup := h.hosts
    rw [hostids_split, List.nodup_middle, List.nodup_cons] at hnodup
    intro x hx
    obtain hx | hx | hx : x ∈ l₁ ∨ x = (a, w) ∨ x ∈ l₂ := by simpa using hx
    · have hne : x.2.hostid ≠ v.hostid := ne_of_mem_of_not_mem
        (List.mem_append_left _ (List.mem_map_of_mem (f := fun x => x.2.hostid) hx)) hnodup.1
      simp only [Function.update_of_ne hne]
      exact h.told x (by simp [hx])
    · subst hx
      simp only [hid, Function.update_self]
      exact htells
    · have hne : x.2.hostid ≠ v.hostid := ne_of_mem_of_not_mem
        (List.mem_append_right _ (List.mem_map_of_mem (f := fun x => x.2.hostid) hx)) hnodup.1
      simp only [Function.update_of_ne hne]
      exact h.told x (by simp [hx])
  · intro hostid hno
    rw [hsame] at hno
    have hne : hostid ≠ v.hostid := by
      rintro rfl
      exact hno (by simp [hostids_split])
    simp only [Function.update_of_ne hne]
    exact h.quiet hostid hno

/-- A host's notification goes when it has no problem any more. -/
theorem Tracked.drop (h : Tracked s (l₁ ++ (a, v) :: l₂)) (hlists : list.Lists (l₁ ++ l₂))
    (hst : st.isproblem = false) :
    Tracked ⟨list, Function.update s.standing v.hostid st⟩ (l₁ ++ l₂) ∧
      v.hostid ∉ hostids (l₁ ++ l₂) := by
  have hnodup := h.hosts
  rw [hostids_split, List.nodup_middle, List.nodup_cons] at hnodup
  have hids : hostids (l₁ ++ l₂) = hostids l₁ ++ hostids l₂ := List.map_append
  refine ⟨⟨hlists, hids ▸ hnodup.2, ?_, ?_⟩, hids ▸ hnodup.1⟩
  · intro x hx
    have hne : x.2.hostid ≠ v.hostid := ne_of_mem_of_not_mem
      (hids ▸ List.mem_map_of_mem (f := fun x => x.2.hostid) hx) hnodup.1
    simp only [Function.update_of_ne hne]
    obtain hx | hx := List.mem_append.mp hx
    · exact h.told x (by simp [hx])
    · exact h.told x (by simp [hx])
  · intro hostid hno
    by_cases hne : hostid = v.hostid
    · simp only [hne, Function.update_self, hst]
    · simp only [Function.update_of_ne hne]
      refine h.quiet hostid ?_
      rw [hids] at hno
      simpa [hostids_split, hne] using hno

/-- A host gets a notification. -/
theorem Tracked.add (h : Tracked s l) (hlists : list.Lists (l ++ [(a, w)]))
    (hno : w.hostid ∉ hostids l) (htells : Tells st w) :
    Tracked ⟨list, Function.update s.standing w.hostid st⟩ (l ++ [(a, w)]) := by
  refine ⟨hlists, ?_, ?_, ?_⟩
  · rw [hostids_split, List.nodup_middle, show hostids [] = [] from rfl, List.append_nil,
      List.nodup_cons]
    exact ⟨hno, h.hosts⟩
  · intro x hx
    obtain hx | hx : x ∈ l ∨ x = (a, w) := by simpa using hx
    · have hne : x.2.hostid ≠ w.hostid :=
        ne_of_mem_of_not_mem (List.mem_map_of_mem (f := fun x => x.2.hostid) hx) hno
      simp only [Function.update_of_ne hne]
      exact h.told x hx
    · subst hx
      simp only [Function.update_self]
      exact htells
  · intro hostid hmem
    rw [hostids_split, List.mem_append, List.mem_cons, not_or, not_or] at hmem
    simp only [Function.update_of_ne hmem.2.1]
    exact h.quiet hostid hmem.1

/-- A host without a notification stays without a problem. -/
theorem Tracked.leave (h : Tracked s l) {hostid : Uuid} (hno : hostid ∉ hostids l)
    (hst : st.isproblem = false) :
    Tracked ⟨s.list, Function.update s.standing hostid st⟩ l := by
  refine ⟨h.lists, h.hosts, ?_, ?_⟩
  · intro x hx
    have hne : x.2.hostid ≠ hostid :=
      ne_of_mem_of_not_mem (List.mem_map_of_mem (f := fun x => x.2.hostid) hx) hno
    simp only [Function.update_of_ne hne]
    exact h.told x hx
  · intro hostid' hno'
    by_cases hne : hostid' = hostid
    · simp only [hne, Function.update_self, hst]
    · simp only [Function.update_of_ne hne]
      exact h.quiet hostid' hno'

end Update

/-- What the setting of a status comes to, and that it does what it has to. -/
theorem Tracked.set (h : Tracked s l) {hostid : Uuid} {isproblem : Bool} {status : List UInt8}
    {tnow : Nat} (hs : Unharmed s (.set hostid isproblem status tnow)) :
    ∃ list l', tenantSetNotification s.list isproblem status hostid tnow = .ok list ∧
      Tracked ⟨list, Function.update s.standing hostid ((s.standing hostid).set isproblem status)⟩ l' ∧
      (isproblem = false → (s.standing hostid).isproblem = true →
        (s.standing hostid).problemReported = true → Pending list hostid) ∧
      (isproblem = true → (s.standing hostid).isproblem = false →
        (s.standing hostid).reported = true → Pending list hostid) ∧
      (isproblem = false → (s.standing hostid).isproblem = true →
        (s.standing hostid).problemReported = false → notifylistFind list hostid = .ok none) := by
  have htake : status.take 15 = status := List.take_of_length_le hs.1
  obtain ⟨l₁, a, v, l₂, rfl, rfl⟩ | hno := h.cases hostid
  · obtain ⟨hproblem, hstatus, hpending, hdone⟩ := h.told (a, v) (by simp)
    simp only at hproblem hstatus hpending hdone
    obtain ⟨list, hset, hlists⟩ := @Lists.setNotification _ _ _ _ _ isproblem status _ tnow h.lists
      h.find
    rw [htake, hproblem] at hlists
    generalize hst : s.standing v.hostid = st at hstatus hpending hdone ⊢
    cases isproblem with
    | true =>
      -- the same amount of trouble: the notification only gets the status
      rw [if_pos rfl] at hlists
      refine ⟨list, _, hset, h.write hlists rfl ?_, nofun, ?_, nofun⟩
      · unfold Standing.set
        split
        · rename_i hsame
          exact ⟨rfl, rfl, hpending, hdone⟩
        · rename_i hdiff
          -- a new problem after a recovery that was not reported
          have hn : v.notified = false := by
            cases hn : v.notified with
            | false => rfl
            | true => exact absurd (hdone hn).1.symm hdiff
          exact ⟨rfl, rfl, fun _ => ⟨rfl, rfl⟩, fun hn' => absurd (hn.symm.trans hn') (by simp)⟩
      · intro _ hrecovered hreported
        cases hn : v.notified with
        | false => exact absurd ((hpending hn).1.symm.trans hreported) (by simp)
        | true => exact absurd (hrecovered.symm.trans (hdone hn).1) (by simp)
    | false =>
      rw [if_neg (by simp)] at hlists
      have hcleared : (st.set false status).isproblem = false := by
        unfold Standing.set
        split
        · rename_i hsame
          exact hsame.symm
        · rfl
      cases hn : v.notified with
      | false =>
        rw [if_pos (by simp [hn])] at hlists
        obtain ⟨htracked, hno⟩ := h.drop hlists hcleared
        refine ⟨list, _, hset, htracked, ?_, nofun, fun _ _ _ => htracked.find_none hno⟩
        intro _ hst hrep
        have := (hpending hn).2
        simp [hst, hrep] at this
      | true =>
        rw [if_neg (by simp [hn])] at hlists
        obtain ⟨htrue, hreported, hrep⟩ := hdone hn
        have htells : Tells (st.set false status) ⟨status, true, false, v.hostid, tnow⟩ := by
          have hst' : st.set false status = ⟨false, status, false, true⟩ := by
            simp [Standing.set, htrue, hrep]
          rw [hst']
          exact ⟨rfl, rfl, fun _ => ⟨rfl, rfl⟩, fun hn => absurd hn (by simp)⟩
        have htracked := h.write hlists rfl htells
        refine ⟨list, _, hset, htracked, fun _ _ _ => htracked.pending rfl, nofun, ?_⟩
        intro _ _ hnot
        exact absurd (hrep.symm.trans hnot) (by simp)
  · have hquiet := h.quiet hostid hno
    obtain ⟨list, hset, hlists⟩ := @Lists.newNotification _ _ isproblem status _ tnow h.lists
      (h.find_none hno) (fun hp => hs.2 hp (h.find_none hno))
    rw [htake] at hlists
    cases isproblem with
    | true =>
      rw [if_pos rfl] at hlists
      have htells : Tells ((s.standing hostid).set true status) ⟨status, true, false, hostid, tnow⟩ := by
        have hst' : (s.standing hostid).set true status = ⟨true, status, false, false⟩ := by
          simp [Standing.set, hquiet]
        rw [hst']
        exact ⟨rfl, rfl, fun _ => ⟨rfl, rfl⟩, fun hn => absurd hn (by simp)⟩
      have htracked := h.add hlists hno htells
      exact ⟨list, _, hset, htracked, nofun, fun _ _ _ => htracked.pending rfl, nofun⟩
    | false =>
      rw [if_neg (by simp)] at hlists
      obtain rfl : list = s.list := by
        simp only [tenantSetNotification, h.find_none hno, Outcome.ok_bind, Outcome.pure_ok,
          Bool.false_eq_true, if_false] at hset
        exact (Except.ok.inj hset).symm
      refine ⟨_, l, hset, h.leave hno ?_, ?_, nofun, ?_⟩
      · simp [Standing.set, hquiet]
      · intro _ hp
        exact absurd (hquiet.symm.trans hp) (by simp)
      · intro _ hp
        exact absurd (hquiet.symm.trans hp) (by simp)

section Check

variable {tnow : Nat}

theorem overdue_notified {n : Notification} (h : n.overdue tnow = true) : n.notified = false := by
  simp only [Notification.overdue, Bool.and_eq_true, Bool.not_eq_true'] at h
  exact h.2

theorem mark_hostid (x : Nat × Notification) : (mark tnow x).2.hostid = x.2.hostid := by
  unfold mark
  split <;> rfl

theorem hostids_mark : hostids (l.map (mark tnow)) = hostids l := by
  simp only [hostids, List.map_map]
  exact List.map_congr_left fun x _ => mark_hostid x

/-- The issues of a round that reports something. -/
def issues (tnow : Nat) (l : List (Nat × Notification)) : List Issue :=
  (l.filter fun x => x.2.overdue tnow).map fun x => issue x.2

theorem mem_issues {i : Issue} :
    i ∈ issues tnow l ↔ ∃ x ∈ l, x.2.overdue tnow = true ∧ issue x.2 = i := by
  simp [issues, and_assoc]

theorem isReported_iff {hostid : Uuid} : isReported (some (issues tnow l)) hostid = true ↔
    ∃ x ∈ l, x.2.overdue tnow = true ∧ x.2.hostid = hostid := by
  simp only [isReported, Option.getD_some, List.any_eq_true, mem_issues, beq_iff_eq]
  constructor
  · rintro ⟨_, ⟨x, hx, hover, rfl⟩, hid⟩
    exact ⟨x, hx, hover, hid⟩
  · rintro ⟨x, hx, hover, hid⟩
    exact ⟨_, ⟨x, hx, hover, rfl⟩, hid⟩

/-- Unless a recovery is due, what is overdue are problems. -/
theorem Tracked.overdue_problem (h : Tracked s l) (hno : ¬ RecoveryDue s tnow) {x : Nat × Notification}
    (hx : x ∈ l) (hover : x.2.overdue tnow = true) : (s.standing x.2.hostid).isproblem = true := by
  obtain ⟨node, hm, hval⟩ := h.lists.mem_node (a := x.1) (v := x.2) hx
  obtain ⟨-, hrep⟩ := (h.told x hx).pending (overdue_notified hover)
  by_contra hp
  have hp : (s.standing x.2.hostid).isproblem = false := by simpa using hp
  refine hno ⟨x.1, node, hm, ?_, ?_, ?_⟩
  · rw [hval, hover]
  · rw [hval, hp]
  · rw [hval, hrep, hp]
    rfl

/-- A round that reports what is overdue, when no recovery is. -/
theorem Tracked.report (h : Tracked s l) (hno : ¬ RecoveryDue s tnow) {list : Notifylist}
    (hlists : list.Lists (l.map (mark tnow))) :
    Tracked ⟨list, fun hostid => if isReported (some (issues tnow l)) hostid
      then (s.standing hostid).report else s.standing hostid⟩ (l.map (mark tnow)) := by
  refine ⟨hlists, by rw [hostids_mark]; exact h.hosts, ?_, ?_⟩
  · intro x' hx'
    obtain ⟨x, hx, rfl⟩ := List.mem_map.mp hx'
    rw [mark_hostid]
    cases hover : x.2.overdue tnow with
    | true =>
      have hreported := isReported_iff.mpr ⟨x, hx, hover, rfl⟩
      have htold := h.told x hx
      have hproblem := h.overdue_problem hno hx hover
      simp only [hreported, if_true, mark, hover]
      exact ⟨htold.isproblem, htold.status, fun hn => absurd hn (by simp),
        fun _ => ⟨hproblem, rfl, by simp [Standing.report, hproblem]⟩⟩
    | false =>
      have hreported : isReported (some (issues tnow l)) x.2.hostid = false := by
        rw [Bool.eq_false_iff]
        intro hyes
        obtain ⟨y, hy, hover', hid⟩ := isReported_iff.mp hyes
        obtain rfl : y = x := List.inj_on_of_nodup_map h.hosts hy hx hid
        exact absurd (hover.symm.trans hover') (by simp)
      simp only [hreported, Bool.false_eq_true, if_false, mark_of_not_overdue hover]
      exact h.told x hx
  · intro hostid hno'
    rw [hostids_mark] at hno'
    have hquiet := h.quiet hostid hno'
    simp only
    split
    · exact hquiet
    · exact hquiet

theorem Tracked.check_result (h : Tracked s l) (tnow : Nat) : ∃ list,
    tenantCheckNotification s.list tnow =
      .ok (if l.any fun x => x.2.actionable tnow then some (issues tnow l) else none, list) ∧
    list.Lists (if l.any fun x => x.2.actionable tnow then l.map (mark tnow) else l) :=
  h.lists.checkNotification h.hosts

/-- A round does what it has to if and only if it does not meet with a recovery. -/
theorem Tracked.check_right_iff (h : Tracked s l) :
    StepRight s (.check tnow) ↔ Unharmed s (.check tnow) := by
  obtain ⟨list, hcheck, -⟩ := h.check_result tnow
  constructor
  · intro hright hactionable hdue
    obtain ⟨n, node, hm, hover, hp, -⟩ := hdue
    rw [h.lists.checkActionable] at hactionable
    rw [Except.ok.inj hactionable, if_pos rfl] at hcheck
    obtain ⟨x, hx, rfl⟩ := List.mem_map.mp (h.lists.only n node hm)
    obtain ⟨node', hm', hval⟩ := h.lists.mem_node (a := x.1) (v := x.2) hx
    obtain rfl := Option.some.inj (hm.symm.trans hm')
    rw [hval] at hover hp
    have hflag := (hright _ _ hcheck _ (mem_issues.mpr ⟨x, hx, hover, rfl⟩)).1
    have htrue : (issue x.2).isproblem = true := (h.told x hx).isproblem
    exact absurd (htrue.symm.trans (hflag.trans hp)) (by simp)
  · intro hno issues' list' hcheck' i hi
    cases hactionable : l.any fun x => x.2.actionable tnow with
    | false =>
      rw [hactionable, if_neg (by simp)] at hcheck
      cases hcheck.symm.trans hcheck'
    | true =>
      rw [hactionable, if_pos rfl] at hcheck
      cases hcheck.symm.trans hcheck'
      have hno := hno (by rw [h.lists.checkActionable, hactionable])
      obtain ⟨x, hx, hover, rfl⟩ := mem_issues.mp hi
      have htold := h.told x hx
      have hproblem := h.overdue_problem hno hx hover
      refine ⟨htold.isproblem.trans hproblem.symm, htold.status, ?_,
        (htold.pending (overdue_notified hover)).1⟩
      intro hp
      exact absurd (hproblem.symm.trans hp) (by simp)

theorem Tracked.check (h : Tracked s l) (hno : Unharmed s (.check tnow)) :
    ∃ s' l', (AlertStep.check tnow).apply s = .ok s' ∧ Tracked s' l' := by
  obtain ⟨list, hcheck, hlists⟩ := h.check_result tnow
  simp only [AlertStep.apply, hcheck, Outcome.ok_bind, Outcome.pure_ok]
  cases hactionable : l.any fun x => x.2.actionable tnow with
  | true =>
    rw [hactionable, if_pos rfl] at hlists
    have hno := hno (by rw [h.lists.checkActionable, hactionable])
    exact ⟨_, _, rfl, h.report hno hlists⟩
  | false =>
    rw [hactionable, if_neg (by simp)] at hlists
    exact ⟨_, l, rfl, hlists, h.hosts, h.told, h.quiet⟩

end Check

/-- A step that meets the condition can be made, does what it has to, and leads to a state in
which each notification tells how it stands with its host. -/
theorem Tracked.step (h : Tracked s l) {e : AlertStep} (he : Unharmed s e) :
    (∃ s' l', e.apply s = .ok s' ∧ Tracked s' l') ∧ StepRight s e := by
  cases e with
  | check tnow => exact ⟨h.check he, h.check_right_iff.mpr he⟩
  | set hostid isproblem status tnow =>
    obtain ⟨list, l', hset, htracked, hright⟩ := h.set he
    refine ⟨⟨_, l', ?_, htracked⟩, ?_⟩
    · simp only [AlertStep.apply, hset, Outcome.ok_bind, Outcome.pure_ok]
    · intro list' hset'
      obtain rfl := Except.ok.inj (hset.symm.trans hset')
      exact hright

/-- In every run of steps that meet the condition, a further step that meets it can be made and
does what it has to; and one that checks the notifications does so only if it meets it. -/
theorem notifications_right {steps : List AlertStep}
    (h : (alerting.guard Unharmed).History steps s) (e : AlertStep) :
    (Unharmed s e → (∃ s', alerting.step s e s') ∧ StepRight s e) ∧
      ∀ tnow, e = .check tnow → StepRight s e → Unharmed s e := by
  obtain ⟨l, hs⟩ : ∃ l, Tracked s l := by
    refine h.reachable.induction (I := fun s => ∃ l, Tracked s l) ?_ ?_
    · rintro _ rfl
      exact ⟨[], .init⟩
    · rintro s e s' ⟨l, hs⟩ ⟨he, hstep⟩
      obtain ⟨⟨s'', l', hstep', hs'⟩, -⟩ := hs.step he
      obtain rfl := Except.ok.inj (hstep'.symm.trans hstep)
      exact ⟨l', hs'⟩
  refine ⟨fun he => ?_, ?_⟩
  · obtain ⟨⟨s', l', hstep, -⟩, hright⟩ := hs.step he
    exact ⟨⟨s', hstep⟩, hright⟩
  · rintro tnow rfl hright
    exact hs.check_right_iff.mp hright

/-! ### A problem that is reported, and its recovery -/

/-- The state after a step that succeeds. -/
def after (e : AlertStep) (s : Alerted) : Alerted :=
  (e.apply s).toOption.getD ⟨notifylistInit, fun _ => .init⟩

theorem apply_after {e : AlertStep} (h : (e.apply s).isOk) : e.apply s = .ok (after e s) := by
  unfold after
  cases hx : e.apply s with
  | ok s' => rfl
  | error e =>
    rw [hx] at h
    cases h

def host1 : Uuid := ⟨0, 1⟩

def problem1 : AlertStep := .set host1 true (asc "ALERT") 1000
def recovery1 : AlertStep := .set host1 false (asc "OK") 1500

def alerted1 : Alerted := after problem1 ⟨notifylistInit, fun _ => .init⟩
def alerted2 : Alerted := after (.check 1400) alerted1
def alerted3 : Alerted := after recovery1 alerted2

theorem problem1_unharmed : Unharmed ⟨notifylistInit, fun _ => .init⟩ problem1 := by
  refine ⟨by decide, ?_⟩
  intro _ _ a ha
  cases ha

theorem problem1_history : (alerting.guard Unharmed).History [problem1] alerted1 :=
  Transition.History.step (Transition.History.init rfl) ⟨problem1_unharmed, apply_after rfl⟩

theorem alerted1_unharmed : Unharmed alerted1 (.check 1400) := by
  rintro - ⟨n, node, -, -, -, hrep⟩
  have hstanding : alerted1.standing =
      Function.update (fun _ => Standing.init) host1 (Standing.init.set true (asc "ALERT")) := rfl
  rw [hstanding] at hrep
  by_cases hid : node.val.hostid = host1
  · rw [hid, Function.update_self] at hrep
    cases hrep
  · rw [Function.update_of_ne hid] at hrep
    cases hrep

theorem notifications_right_first :
    Unharmed alerted1 (.check 1400) ∧ StepRight alerted1 (.check 1400) :=
  ⟨alerted1_unharmed, ((notifications_right problem1_history _).1 alerted1_unharmed).2⟩

/-- The recovery from a problem that was reported is reported as a problem. -/
theorem recovery_as_problem :
    alerting.History [problem1, .check 1400, recovery1] alerted3 ∧
    (alerted3.standing host1).isproblem = false ∧
    (tenantCheckNotification alerted3.list 2000).map (fun r => r.1) =
      .ok (some [⟨host1, asc "OK", true⟩]) ∧
    ¬ StepRight alerted3 (.check 2000) := by
  have hrun₂ := problem1_history.of_guard.step (show alerting.step _ (.check 1400) alerted2 from
    apply_after rfl)
  have hrun₃ := hrun₂.step (show alerting.step _ recovery1 alerted3 from apply_after rfl)
  have hissues : (tenantCheckNotification alerted3.list 2000).map (fun r => r.1) =
      .ok (some [⟨host1, asc "OK", true⟩]) := by decide
  refine ⟨hrun₃, by decide, hissues, ?_⟩
  intro hright
  cases hcheck : tenantCheckNotification alerted3.list 2000 with
  | error e =>
    rw [hcheck] at hissues
    cases hissues
  | ok r =>
    obtain ⟨issues, list⟩ := r
    rw [hcheck] at hissues
    obtain rfl : issues = some [⟨host1, asc "OK", true⟩] := Except.ok.inj hissues
    have hflag := (hright _ _ hcheck _ List.mem_cons_self).1
    exact absurd hflag (by decide)

end Opticon
