import TrajectorySafety.Bound
import TrajectorySafety.Log.Generation
import TrajectorySafety.Model.Affine
import TrajectorySafety.Safety.Constraint

/-!
The settings of a verification, their defaults and the conditions on them.

There are two kinds of conditions: ranges of single settings (`Config.breaches`, all of them
reported) and conditions that need the meaning of the settings (`Config.validate`, the first one
reported).
-/

namespace TrajectorySafety

/-- Which system is verified. -/
inductive ModelChoice where
  | identity (dimension : Nat)
  | affine (matrix : List (List Float)) (offset noise : Option (List Float))
deriving Repr

namespace ModelChoice

/-- The dimension of the states. -/
def dimension : ModelChoice → Nat
  | identity d => d
  | affine matrix _ _ => matrix.length

/-- The chosen model, or what is wrong with its parameters. -/
def build : ModelChoice → Except Fault (StepModel Unit)
  | identity d => if d = 0 then .error .zeroDimension else .ok (.identity d)
  | affine matrix offset noise => StepModel.affine <$> Affine.make matrix offset noise

end ModelChoice

/-- How the reference log is made. -/
structure LogConfig where
  /-- The chance of observing a state after time 0, in percent. -/
  probability : Float := 10
  halfWidth : HalfWidth := .uniform 0.05
  /-- Where the reference trajectory starts: bounds for each coordinate. -/
  initialSet : List (Float × Float) := []
deriving Repr

/-- How trajectories are sampled. -/
structure SamplingConfig where
  /-- States per trajectory. -/
  horizon : Nat := 50
  batchSize : Nat := 100
  /-- Trajectories that may be generated before giving up. -/
  maxAttempts : Nat := 1000000
  /-- Examples kept for the report. -/
  retain : Nat := 10
  timeoutSeconds : Option Float := none
deriving Repr

/-- How many samples are needed. -/
structure BoundConfig where
  strategy : BoundStrategy := .jeffreys
  budget : Float := 100000
  confidence : Float := 0.99
deriving Repr

/-- All settings of a verification. -/
structure Config where
  schemaVersion : String := "1.0"
  seed : UInt64 := 42
  model : ModelChoice := .identity 2
  guard : Guard := {}
  log : LogConfig := {}
  sampling : SamplingConfig := {}
  bound : BoundConfig := {}
  safety : ConstraintSpec := {}
deriving Repr

/-- A positive time in seconds as whole nanoseconds, to nearest with ties to even; `none` if it is
not below `2 ^ 64` seconds. -/
def nanoseconds? (seconds : Float) : Option Nat :=
  match Number.Binary.ofFloat? seconds with
  | some b =>
    let (num, den) := b.ratio
    if b.negative && num ≠ 0 then none
    else if den * Number.pow2 64 ≤ num then none
    else some (Number.roundDiv (num * Number.pow10 9) den)
  | none => none

/-- The time limit in nanoseconds, if there is a usable one. -/
def SamplingConfig.timeout? (s : SamplingConfig) : Option Nat :=
  match s.timeoutSeconds with
  | some seconds => if 0 < seconds then nanoseconds? seconds else none
  | none => none

namespace Config

/-- A breach for a setting below or above its range; a NaN breaks no range. -/
def outside (path : String) (value low : Float) (high : Option Float) : List Breach :=
  let above := match high with
    | some h => h < value
    | none => false
  if value < low || above then [⟨path, "range"⟩] else []

/-- A breach for a count of zero. -/
def zero (path : String) (value : Nat) : List Breach := if value < 1 then [⟨path, "range"⟩] else []

/-- Every setting outside its range, by path. -/
def breaches (c : Config) : List Breach :=
  outside "bound.budget" c.bound.budget 1 none ++
    outside "bound.confidence" c.bound.confidence 0 (some 1) ++
    outside "log.probability" c.log.probability 0 (some 100) ++
    zero "sampling.batch_size" c.sampling.batchSize ++
    zero "sampling.horizon" c.sampling.horizon ++
    zero "sampling.max_attempts" c.sampling.maxAttempts ++
    (if c.schemaVersion.isEmpty then [⟨"schema_version", "length"⟩] else [])

/-- The constraints, checked against the dimension of the model. -/
def constraints (c : Config) : Except Fault (List Constraint) := do
  let cs ← c.safety.resolve
  validateConstraints cs c.model.dimension
  return cs

/-- The intervals of the initial set from position `i` on. -/
def initialIntervals : (i : Nat) → List (Float × Float) → Except Fault (List Interval)
  | _, [] => .ok []
  | i, (lo, hi) :: rest =>
    match Interval.make lo hi with
    | .error fault => .error (.initialInterval i fault)
    | .ok interval => (interval :: ·) <$> initialIntervals (i + 1) rest

/-- The box in which the reference trajectory starts. -/
def initialRegion (c : Config) : Except Fault Box :=
  if c.log.initialSet.length ≠ c.model.dimension then
    .error (.initialSetCount c.log.initialSet.length c.model.dimension)
  else Box.mk <$> initialIntervals 0 c.log.initialSet

/-- What is wrong with a time limit. -/
def timeoutFault? : Option Float → Option Fault
  | none => none
  | some seconds =>
    if !(seconds.isFinite && 0 < seconds) then some (.timeoutSign seconds)
    else if (nanoseconds? seconds).isNone then some (.timeoutRange seconds)
    else none

/-- The conditions that need the meaning of the settings. Constraints and the initial set are
checked only where there are any. -/
def validate (c : Config) : Except Fault Unit := do
  let p := c.log.probability
  let b := c.bound
  if c.model.dimension = 0 then throw .zeroDimension
  if !(0 < p && p ≤ 100) then throw (.configuredProbability p)
  c.log.halfWidth.validate c.model.dimension
  if !c.log.initialSet.isEmpty then discard c.initialRegion
  match timeoutFault? c.sampling.timeoutSeconds with
  | some fault => throw fault
  | none => pure ()
  if !(b.budget.isFinite && 1 < b.budget) then throw (.configuredBudget b.budget)
  if !(0 < b.confidence && b.confidence < 1) then throw (.confidence b.confidence)
  if !c.safety.records.isEmpty then discard c.constraints

/-- Both kinds of conditions, ranges first. -/
def check (c : Config) : Except Error Unit :=
  if c.breaches.isEmpty then c.validate.mapError .config else .error (.validation c.breaches)

end Config

end TrajectorySafety
