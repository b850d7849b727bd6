import TrajectorySafety.Number.Decimal

/-!
States, and the trajectories that they form.
-/

namespace TrajectorySafety

/-- A point of the state space: one double per coordinate. -/
structure State where
  coordinates : List Float
deriving Repr

namespace State

def dimension (s : State) : Nat := s.coordinates.length

/-- A coordinate, if the state has it. -/
def get? (s : State) (i : Nat) : Option Float := s.coordinates[i]?

/-- The first coordinate that is a NaN or an infinity. -/
def firstNonFinite (s : State) : Option Nat := s.coordinates.findIdx? fun v => !v.isFinite

/-- The largest absolute value of a coordinate; a NaN does not count. -/
def maxAbs (s : State) : Float := s.coordinates.foldl (fun m v => Number.larger m v.abs) 0

/-- The coordinates in parentheses. -/
def text (s : State) : String := "(" ++ ", ".intercalate (s.coordinates.map Number.text) ++ ")"

end State

/-- The states at times 0, 1, … of one simulation, and the number of states asked for. -/
structure Trajectory where
  states : List State
  horizon : Nat
deriving Repr

namespace Trajectory

/-- A trajectory that has all the states asked for. -/
def complete (states : List State) : Trajectory := ⟨states, states.length⟩

def length (t : Trajectory) : Nat := t.states.length

/-- The state at a time, if the trajectory lasts that long. -/
def at? (t : Trajectory) (time : Nat) : Option State := t.states[time]?

/-- The state at time 0. -/
def initial? (t : Trajectory) : Option State := t.states.head?

/-- Whether the simulation ended before the horizon. -/
def isTruncated (t : Trajectory) : Bool := t.length < t.horizon

end Trajectory

end TrajectorySafety
