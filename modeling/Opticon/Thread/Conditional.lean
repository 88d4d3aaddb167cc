import Mathlib.Data.Int.Notation

/-! The conditionals with which threads wake each other (`thread.c`). One thread waits on
each of them. -/

namespace Opticon

/-- Where the waiting thread is: not in `pthread_cond_wait`, blocked there, or woken there
without the lock of the conditional yet. -/
inductive Waiter where
  | away
  | blocked
  | woken
  deriving DecidableEq

/-- A conditional with its signals that nobody waited for yet. -/
structure Conditional where
  queue : ℤ
  waiter : Waiter
  deriving DecidableEq

def conditionalInit : Conditional := ⟨0, .away⟩

/-- Add a signal to a conditional's queue and send it out. -/
def conditionalSignal (self : Conditional) : Conditional :=
  ⟨self.queue + 1, if self.waiter = .blocked then .woken else self.waiter⟩

/-- Wait for a signal, or pick a backlogged one off the queue. -/
def conditionalWait (self : Conditional) : Conditional :=
  if self.queue ≠ 0 then { self with queue := self.queue - 1 } else { self with waiter := .blocked }

/-- Wait for a new signal, queued doesn't count. -/
def conditionalWaitFresh (_ : Conditional) : Conditional := ⟨0, .blocked⟩

namespace Conditional

/-- The woken thread has the lock again and leaves. -/
def leave (self : Conditional) : Conditional := ⟨self.queue - 1, .away⟩

/-- `pthread_cond_wait` may return without a signal. -/
def spurious (self : Conditional) : Conditional := { self with waiter := .woken }

end Conditional

end Opticon
