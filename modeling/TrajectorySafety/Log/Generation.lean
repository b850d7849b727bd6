import TrajectorySafety.Log
import TrajectorySafety.Random.Generator

/-!
Logs of a reference trajectory: the state at time 0 is always observed, every later one with a
given chance, each as the box that reaches a half-width to both sides of it.
-/

namespace TrajectorySafety

open TrajectorySafety.Random

/-- The half-width of observed boxes. -/
inductive HalfWidth where
  /-- The same for every coordinate. -/
  | uniform (halfWidth : Float)
  /-- One for each coordinate, in order. -/
  | perDimension (halfWidths : List Float)
deriving Repr

namespace HalfWidth

/-- The half-width of a coordinate; zero where none is listed. -/
def get : HalfWidth → Nat → Float
  | uniform h, _ => h
  | perDimension hs, i => hs.getD i 0

/-- Whether a half-width can be used: finite and not negative. -/
def usable (h : Float) : Bool := h.isFinite && !(h < 0)

/-- Checks the half-width against the dimension of the states. -/
def validate : HalfWidth → (dimension : Nat) → Except Fault Unit
  | uniform h, _ => if usable h then .ok () else .error (.badHalfWidth h)
  | perDimension hs, dimension =>
    if hs.length ≠ dimension then .error (.halfWidthCount hs.length dimension)
    else
      match hs.find? fun h => !usable h with
      | some h => .error (.badHalfWidth h)
      | none => .ok ()

end HalfWidth

/-- How observations are taken: the chance of each in percent, and the half-width of its box. -/
structure LogRecorder where
  probability : Float
  halfWidth : HalfWidth
deriving Repr

namespace LogRecorder

/-- A recorder with a chance above 0 and up to 100 percent. -/
def make (probability : Float) (halfWidth : HalfWidth) : Except Fault LogRecorder :=
  if 0 < probability ∧ probability ≤ 100 then .ok ⟨probability, halfWidth⟩
  else .error (.loggingProbability probability)

/-- The box around a state, from coordinate `i` on. -/
def boxAround (r : LogRecorder) : (i : Nat) → List Float → Except Fault (List Interval)
  | _, [] => .ok []
  | i, v :: rest => do
    let interval ← Interval.around v (r.halfWidth.get i)
    let others ← r.boxAround (i + 1) rest
    return interval :: others

/-- The observation of a state at a time. -/
def observe (r : LogRecorder) (time : Nat) (s : State) : Except Fault LogEntry := do
  let intervals ← r.boxAround 0 s.coordinates
  return ⟨⟨intervals⟩, time⟩

/-- The observations among the states from a time after the first on, with one draw for each state;
what is wrong with a box ends them. -/
def observeLater (r : LogRecorder) : (time : Nat) → List State → Generator →
    Except Fault (List LogEntry) × Generator
  | _, [], g => (.ok [], g)
  | time, s :: rest, g =>
    let (seen, g) := g.chance r.probability
    if seen then
      match r.observe time s with
      | .error fault => (.error fault, g)
      | .ok entry =>
        let (others, g) := r.observeLater (time + 1) rest g
        (others.map (entry :: ·), g)
    else r.observeLater (time + 1) rest g

/-- The log of a reference trajectory, and the generator after its draws. -/
def record (r : LogRecorder) (reference : Trajectory) (g : Generator) :
    Except Fault UncertaintyLog × Generator :=
  match reference.states with
  | [] => (.error .emptyReference, g)
  | initial :: rest =>
    match r.halfWidth.validate initial.dimension with
    | .error fault => (.error fault, g)
    | .ok () =>
      match r.observe 0 initial with
      | .error fault => (.error fault, g)
      | .ok entry =>
        let (others, g) := r.observeLater 1 rest g
        (others.bind fun entries => UncertaintyLog.ofEntries (entry :: entries), g)

end LogRecorder

end TrajectorySafety
