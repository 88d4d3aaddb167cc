import Opticon.Lib.Transition
import Opticon.Thread.Conditional
import Mathlib.Algebra.Order.Group.Nat

/-! A probe's thread and the main loop of the agent (`probelist.c`), which share the trees that
the probe returns. The trees are numbered as they are made. -/

namespace Opticon

/-- Where the thread is in its loop: in the probe's function, with the new tree in front of the
lock or behind it, or done with it. -/
inductive Working where
  | probing
  | holding (nvar : ℕ)
  | rotated (nvar : ℕ)
  | replied
  deriving DecidableEq

/-- A probe, with the tree the main loop uses while it has the lock. The trees that were made and
freed, the runs of the probe's function and the kicks are kept on record. -/
structure Probing where
  thread : Working
  vcurrent : Option ℕ
  vold : Option ℕ
  pulse : Conditional
  locked : Bool
  v : Option ℕ
  made : ℕ
  freed : List ℕ
  runs : ℕ
  kicks : ℕ

def probingInit : Probing := ⟨.probing, none, none, conditionalInit, false, none, 0, [], 1, 0⟩

inductive ProbeStep where
  | reply
  | nodata
  | rotate
  | store
  | wait
  | leave
  | spurious
  | kick
  | lock
  | unlock
  deriving DecidableEq

def ProbeStep.apply (s : Probing) : ProbeStep → Option Probing
  | .reply =>
    if s.thread = .probing then some { s with thread := .holding s.made, made := s.made + 1 }
    else none
  | .nodata => if s.thread = .probing then some { s with thread := .replied } else none
  | .rotate =>
    match s.thread with
    | .holding nvar =>
      if s.locked then none
      else some { s with
        freed := s.freed ++ s.vold.toList
        vold := s.vcurrent
        thread := .rotated nvar }
    | _ => none
  | .store =>
    match s.thread with
    | .rotated nvar => some { s with vcurrent := some nvar, thread := .replied }
    | _ => none
  | .wait =>
    if s.thread = .replied ∧ s.pulse.waiter = .away then
      some { s with pulse := conditionalWaitFresh s.pulse }
    else none
  | .leave =>
    if s.pulse.waiter = .woken then
      some { s with pulse := s.pulse.leave, thread := .probing, runs := s.runs + 1 }
    else none
  | .spurious =>
    if s.pulse.waiter = .blocked then some { s with pulse := s.pulse.spurious } else none
  | .kick => some { s with pulse := conditionalSignal s.pulse, kicks := s.kicks + 1 }
  | .lock => if s.locked then none else some { s with locked := true, v := s.vcurrent }
  | .unlock => if s.locked then some { s with locked := false, v := none } else none

def probing : Transition Probing ProbeStep := .ofFun (· = probingInit) fun s e => e.apply s

/-- A tree that the probe can still come to. -/
def Probing.Holds (s : Probing) (n : ℕ) : Prop :=
  s.vcurrent = some n ∨ s.vold = some n ∨ s.thread = .holding n ∨ s.thread = .rotated n

/-- The last of the first `n` trees. -/
def newest (n : ℕ) : Option ℕ := if n = 0 then none else some (n - 1)

/-- The probe has the last two of the first `n` trees, and the ones before are freed. -/
structure LastTwo (vcurrent vold : Option ℕ) (freed : List ℕ) (n : ℕ) : Prop where
  vcurrent : vcurrent = newest n
  vold : vold = newest (n - 1)
  freed : freed = List.range (n - 2)

/-- Behind the lock the same tree is the current and the old one for a moment. -/
structure Ledger (s : Probing) : Prop where
  settled : s.thread = .probing ∨ s.thread = .replied →
    LastTwo s.vcurrent s.vold s.freed s.made
  holding : ∀ n, s.thread = .holding n → s.made = n + 1 ∧
    LastTwo s.vcurrent s.vold s.freed n
  rotated : ∀ n, s.thread = .rotated n → s.made = n + 1 ∧ s.vcurrent = newest n ∧
    s.vold = newest n ∧ s.freed = List.range (n - 1)
  reading : ∀ n, s.v = some n → s.locked = true ∧ (s.vcurrent = some n ∨ s.vold = some n)
  waiting : s.pulse.waiter ≠ .away → s.thread = .replied

variable {s s' : Probing} {e : ProbeStep}

theorem range_newest (n : ℕ) :
    List.range (n - 2) ++ (newest (n - 1)).toList = List.range (n - 1) := by
  match n with
  | 0 | 1 => rfl
  | k + 2 =>
    rw [Nat.add_sub_cancel, show k + 2 - 1 = k + 1 from rfl, List.range_succ]
    rfl

theorem Ledger.step (h : Ledger s) (hs : e.apply s = some s') : Ledger s' := by
  cases e <;> simp only [ProbeStep.apply, Option.ite_none_right_eq_some,
    Option.ite_none_left_eq_some] at hs
  case reply =>
    obtain ⟨hthread, hs⟩ := hs
    cases hs
    have htrees := h.settled (.inl hthread)
    refine ⟨nofun, fun n hn => ?_, nofun, h.reading, fun hw => ?_⟩
    · cases hn
      exact ⟨rfl, htrees⟩
    · have hreplied := h.waiting hw
      rw [hthread] at hreplied
      cases hreplied
  case nodata =>
    obtain ⟨hthread, hs⟩ := hs
    cases hs
    have htrees := h.settled (.inl hthread)
    exact ⟨fun _ => htrees, nofun, nofun, h.reading, fun _ => rfl⟩
  case rotate =>
    split at hs
    · rename_i nvar hthread
      obtain ⟨hlocked, hs⟩ := Option.ite_none_left_eq_some.mp hs
      cases hs
      obtain ⟨hmade, htrees⟩ := h.holding nvar hthread
      refine ⟨nofun, nofun, fun n hn => ?_, fun n hv => ?_, fun hw => ?_⟩
      · cases hn
        refine ⟨hmade, htrees.vcurrent, htrees.vcurrent, ?_⟩
        dsimp only
        rw [htrees.freed, htrees.vold, range_newest]
      · -- without the lock the main loop reads nothing
        exact absurd (h.reading n hv).1 hlocked
      · have hreplied := h.waiting hw
        rw [hthread] at hreplied
        cases hreplied
    · cases hs
  case store =>
    split at hs
    · rename_i nvar hthread
      cases hs
      obtain ⟨hmade, hcurrent, hold, hfreed⟩ := h.rotated nvar hthread
      refine ⟨fun _ => ⟨?_, ?_, ?_⟩, nofun, nofun, fun n hv => ?_, fun _ => rfl⟩
      · simp [newest, hmade]
      · simpa [hmade] using hold
      · simpa [hmade] using hfreed
      · -- what it reads is the old tree by now
        obtain ⟨hlocked, hread⟩ := h.reading n hv
        rw [hcurrent, ← hold, or_self] at hread
        exact ⟨hlocked, .inr hread⟩
    · cases hs
  case wait =>
    obtain ⟨⟨hthread, -⟩, hs⟩ := hs
    cases hs
    exact ⟨h.settled, h.holding, h.rotated, h.reading, fun _ => hthread⟩
  case leave =>
    obtain ⟨hwoken, hs⟩ := hs
    cases hs
    have htrees := h.settled (.inr (h.waiting (by simp [hwoken])))
    exact ⟨fun _ => htrees, nofun, nofun, h.reading, fun hw => absurd rfl hw⟩
  case spurious =>
    obtain ⟨hblocked, hs⟩ := hs
    cases hs
    exact ⟨h.settled, h.holding, h.rotated, h.reading, fun _ => h.waiting (by simp [hblocked])⟩
  case kick =>
    cases hs
    refine ⟨h.settled, h.holding, h.rotated, h.reading, fun hw => h.waiting fun haway => hw ?_⟩
    simp [conditionalSignal, haway]
  case lock =>
    obtain ⟨-, hs⟩ := hs
    cases hs
    exact ⟨h.settled, h.holding, h.rotated, fun n hv => ⟨rfl, .inl hv⟩, h.waiting⟩
  case unlock =>
    obtain ⟨-, hs⟩ := hs
    cases hs
    exact ⟨h.settled, h.holding, h.rotated, nofun, h.waiting⟩

theorem Ledger.init : Ledger probingInit :=
  ⟨fun _ => ⟨rfl, rfl, rfl⟩, nofun, nofun, nofun, fun hw => absurd rfl hw⟩

theorem newest_eq_some_iff {n k : ℕ} : newest n = some k ↔ k + 1 = n := by
  rw [newest]
  split
  · simp; omega
  · rw [Option.some_inj]
    omega

/-- The trees from some number on are those the probe has, and the others are freed. -/
theorem Ledger.holds (h : Ledger s) : ∃ k, s.freed = List.range k ∧ k ≤ s.made ∧ s.made ≤ k + 3 ∧
    ∀ n, s.Holds n ↔ k ≤ n ∧ n < s.made := by
  cases hthread : s.thread with
  | probing | replied =>
    have htrees := h.settled (by simp [hthread])
    refine ⟨s.made - 2, htrees.freed, by omega, by omega, fun n => ?_⟩
    rw [Probing.Holds, htrees.vcurrent, htrees.vold, newest_eq_some_iff, newest_eq_some_iff, hthread]
    simp only [reduceCtorEq, or_false]
    omega
  | holding nvar =>
    obtain ⟨hmade, htrees⟩ := h.holding nvar hthread
    refine ⟨nvar - 2, htrees.freed, by omega, by omega, fun n => ?_⟩
    rw [Probing.Holds, htrees.vcurrent, htrees.vold, newest_eq_some_iff, newest_eq_some_iff, hthread]
    simp only [Working.holding.injEq, reduceCtorEq, or_false]
    omega
  | rotated nvar =>
    obtain ⟨hmade, hcurrent, hold, hfreed⟩ := h.rotated nvar hthread
    refine ⟨nvar - 1, hfreed, by omega, by omega, fun n => ?_⟩
    rw [Probing.Holds, hcurrent, hold, newest_eq_some_iff, hthread]
    simp only [Working.rotated.injEq, reduceCtorEq, false_or]
    omega

/-- A run of the probe's function is the first one or was asked for. -/
theorem runs_le_kicks (h : (probing.guard fun _ e => e ≠ .spurious).Reachable s) :
    s.runs + (if s.pulse.waiter = .woken then 1 else 0) ≤ s.kicks + 1 := by
  apply h.induction (I := fun s => s.runs + (if s.pulse.waiter = .woken then 1 else 0) ≤ s.kicks + 1)
  · rintro s rfl
    exact le_rfl
  · rintro s e s' hle ⟨hne, hs⟩
    have hs : e.apply s = some s' := hs
    cases e <;> simp only [ProbeStep.apply, Option.ite_none_right_eq_some,
      Option.ite_none_left_eq_some] at hs
    case reply | nodata | lock | unlock =>
      obtain ⟨-, hs⟩ := hs
      cases hs
      exact hle
    case rotate =>
      split at hs
      · obtain ⟨-, hs⟩ := Option.ite_none_left_eq_some.mp hs
        cases hs
        exact hle
      · cases hs
    case store =>
      split at hs
      · cases hs
        exact hle
      · cases hs
    case wait =>
      obtain ⟨⟨-, haway⟩, hs⟩ := hs
      cases hs
      simpa [conditionalWaitFresh, haway] using hle
    case leave =>
      obtain ⟨hwoken, hs⟩ := hs
      cases hs
      simpa [Conditional.leave, hwoken] using hle
    case spurious => exact absurd rfl hne
    case kick =>
      cases hs
      dsimp only
      split at hle
      · rename_i hwoken
        simp only [conditionalSignal, hwoken]
        simpa using hle.trans (Nat.le_succ _)
      · split
        · omega
        · omega

/-- In whatever order the probe and the main loop take their steps, no tree is freed twice or
while one of them can still come to it, each tree is freed or still there, there are three of
them at most, and the probe only runs when it was kicked. -/
theorem probe_trees_kept (h : probing.Reachable s) :
    s.freed.Nodup ∧ (∀ n ∈ s.freed, ¬ s.Holds n ∧ s.v ≠ some n) ∧
      (∀ n < s.made, n ∈ s.freed ∨ s.Holds n) ∧ s.made ≤ s.freed.length + 3 ∧
      ((probing.guard fun _ e => e ≠ .spurious).Reachable s → s.runs ≤ s.kicks + 1) := by
  have hledger : Ledger s := by
    apply h.induction
    · rintro s rfl
      exact Ledger.init
    · intro s e s' hs hstep
      exact hs.step hstep
  obtain ⟨k, hfreed, -, hthree, hholds⟩ := hledger.holds
  refine ⟨hfreed ▸ List.nodup_range, fun n hn => ?_, fun n hn => ?_, ?_, fun hrun => ?_⟩
  · rw [hfreed, List.mem_range] at hn
    have hno : ¬ s.Holds n := fun hyes => absurd ((hholds n).mp hyes).1 (not_le.mpr hn)
    refine ⟨hno, fun hv => hno ?_⟩
    obtain hcurrent | hold := (hledger.reading n hv).2
    · exact .inl hcurrent
    · exact .inr (.inl hold)
  · rw [hfreed, List.mem_range, hholds]
    omega
  · rw [hfreed, List.length_range]
    exact hthree
  · exact (Nat.le_add_right _ _).trans (runs_le_kicks hrun)

/-- The main loop reads the first tree while the probe puts the second one into its place. -/
def secondStored : Probing :=
  ⟨.replied, some 1, some 0, ⟨0, .away⟩, true, some 0, 2, [], 2, 1⟩

theorem secondStored_history : probing.History
    [.reply, .rotate, .store, .wait, .kick, .leave, .reply, .rotate, .lock, .store] secondStored :=
  .of_foldlM rfl rfl

theorem probe_trees_kept_second : secondStored.v = some 0 ∧ 0 ∉ secondStored.freed ∧
    secondStored.runs ≤ secondStored.kicks + 1 := by
  obtain ⟨-, hfreed, -, -, hruns⟩ := probe_trees_kept secondStored_history.reachable
  refine ⟨rfl, fun hmem => (hfreed 0 hmem).2 rfl, hruns ?_⟩
  exact (secondStored_history.guard_labels (G := fun e => e ≠ .spurious) (by decide)).reachable

end Opticon
