import TrajectorySafety.Event
import TrajectorySafety.Safety.Evaluation

/-!
The judgement of one trajectory, as it is given to somebody who watches.
-/

namespace TrajectorySafety

/-- Whether a trajectory is safe, since when it is not, and what is worth noting. -/
structure Judgement where
  safe : Bool
  time : Option Nat
  events : List Event

/-- Judges a trajectory by its earliest violation. -/
def judge (constraints : List Constraint) (t : Trajectory) : Judgement :=
  match firstViolation constraints t with
  | some v => ⟨false, some v.time, [.trajectoryUnsafe v.text]⟩
  | none => ⟨true, none, []⟩

end TrajectorySafety
