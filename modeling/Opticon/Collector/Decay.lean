import Mathlib.Algebra.Order.Archimedean.Basic
import Opticon.Collector.Severity

/-! How the badness of a host goes down while nothing is wrong with it. -/

namespace Opticon

open Transition

variable {r : Round} {h h₀ h' : Host} {b : ℚ} {es : List HostStep}

/-- A round that measures the host and finds no meter with badness; or a change that is not about
the badness. -/
def HostStep.Quiet (h : Host) : HostStep → Host → Prop
  | .update u, h' => h' = u ∧ u.badness = h.badness
  | .round r, h' => (∃ w, watchthreadHandleHost r h = .ok w ∧ w.host = some h') ∧
      r.tnow - h.lastmodified ≤ 80 ∧ ∃ total maxtrigger, roundTotals r h = .ok (0, total, maxtrigger)

/-- Consecutive rounds in which no meter has badness. -/
def quiet : Transition Host HostStep where
  init h := 0 ≤ h.badness
  step h e h' := e.Quiet h h'

/-! ### The map -/

end Opticon
