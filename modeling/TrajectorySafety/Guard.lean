import TrajectorySafety.Error
import TrajectorySafety.State

/-!
The guard that every produced state passes before it joins a trajectory.
-/

namespace TrajectorySafety

open Number (scientific)

/-- What a model answers for one state. -/
inductive Step where
  /-- The successor. -/
  | next (state : State)
  /-- The model ran out of its range; the trajectory ends. -/
  | diverged
deriving Repr

/-- Why a step is rejected. -/
inductive Divergence where
  /-- The model said so. -/
  | reported
  /-- A coordinate is a NaN or an infinity. -/
  | nonFinite (coordinate : Nat)
  /-- The largest coordinate exceeds the allowed magnitude. -/
  | magnitude (value bound : Float)
deriving Repr

/-- Where and why a step was rejected. -/
def Divergence.location (time : Nat) : Divergence → String
  | reported => s!"t={time}, reported by model"
  | nonFinite i => s!"t={time}, non-finite x[{i}]"
  | magnitude value bound => s!"t={time}, |x|={scientific 3 value} exceeds {scientific 3 bound}"

/-- Which states are let through. -/
structure Guard where
  /-- Whether a NaN or an infinity is rejected. -/
  checkFinite : Bool := true
  /-- The largest absolute value that is let through, if there is a limit. -/
  maxMagnitude : Option Float := none
deriving Repr

namespace Guard

/-- Whether the magnitude of a state exceeds the limit. -/
def excess (g : Guard) (s : State) : Option Divergence :=
  match g.maxMagnitude with
  | some bound => if bound < s.maxAbs then some (.magnitude s.maxAbs bound) else none
  | none => none

/-- What is wrong with a state. -/
def inspect (g : Guard) (s : State) : Option Divergence :=
  if g.checkFinite then
    match s.firstNonFinite with
    | some i => some (.nonFinite i)
    | none => g.excess s
  else g.excess s

/-- The state of a step, unless it is rejected. -/
def accept (g : Guard) : Step → Except Divergence State
  | .diverged => .error .reported
  | .next s =>
    match g.inspect s with
    | some d => .error d
    | none => .ok s

/-- The state of a step at a time, with a rejection as an error. -/
def screen (g : Guard) (step : Step) (time : Nat) : Except Error State :=
  (g.accept step).mapError fun d => .divergence (d.location time)

end Guard

end TrajectorySafety
