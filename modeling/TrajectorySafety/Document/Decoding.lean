import TrajectorySafety.Config
import TrajectorySafety.Document.Decoder
import TrajectorySafety.Safety.Evaluation

/-!
The values of this library as they are read from documents.
-/

namespace TrajectorySafety

variable (d : Source)

def State.ofNode (n : Node) : Reading State := State.mk <$> d.list d.real n

/-- A trajectory has the fields `states` and `horizon`. -/
def Trajectory.ofNode (n : Node) : Reading Trajectory := do
  let fs ← d.fields ⟨[("states", []), ("horizon", [])], false⟩ n
  let states ← fs.required "states" (d.list (State.ofNode d))
  let horizon ← fs.required "horizon" d.count
  return ⟨states, horizon⟩

/-- An interval has the fields `lo` and `hi`; their order is not checked. -/
def Interval.ofNode (n : Node) : Reading Interval := do
  let fs ← d.fields ⟨[("lo", []), ("hi", [])], false⟩ n
  let lo ← fs.required "lo" d.real
  let hi ← fs.required "hi" d.real
  return ⟨lo, hi⟩

def Box.ofNode (n : Node) : Reading Box := Box.mk <$> d.list (Interval.ofNode d) n

/-- A log entry has the fields `region` and `time`. -/
def LogEntry.ofNode (n : Node) : Reading LogEntry := do
  let fs ← d.fields ⟨[("region", []), ("time", [])], false⟩ n
  let region ← fs.required "region" (Box.ofNode d)
  let time ← fs.required "time" d.count
  return ⟨region, time⟩

/-- An operator is any token that stands for it. -/
def Operator.ofNode (n : Node) : Reading Operator := do
  let token ← d.text n
  Reading.of (Operator.parse token).toOption

/-- A constraint has the fields `coordinate`, `op` and `threshold`. -/
def Constraint.ofNode (n : Node) : Reading Constraint := do
  let fs ← d.fields ⟨[("coordinate", []), ("op", []), ("threshold", [])], false⟩ n
  let coordinate ← fs.required "coordinate" d.count
  let op ← fs.required "op" (Operator.ofNode d)
  let threshold ← fs.required "threshold" d.real
  return ⟨coordinate, op, threshold⟩

/-- A state variable is a count or a text. -/
def StateVariable.ofNode : Node → Reading StateVariable := d.content fun n =>
  (.index <$> d.rules.openCount n) <|> (.name <$> d.rules.openText n)

/-- A record has the fields `state`, `op` and `value`, which also go by other names. -/
def ConstraintRecord.ofNode (n : Node) : Reading ConstraintRecord := do
  let fs ← d.fields
    ⟨[("state", ["state_idx"]), ("op", ["inequal"]), ("value", ["const"])], true⟩ n
  let state ← fs.required "state" (StateVariable.ofNode d)
  let op ← fs.required "op" d.text
  let value ← fs.default "value" none (d.optional d.real)
  return ⟨state, op, value⟩

/-- A specification has the fields `state_vars` and `constraints`, both empty when missing. -/
def ConstraintSpec.ofNode (n : Node) : Reading ConstraintSpec := do
  let fs ← d.fields ⟨[("state_vars", []), ("constraints", [])], true⟩ n
  let names ← fs.default "state_vars" [] (d.list d.text)
  let records ← fs.default "constraints" [] (d.list (ConstraintRecord.ofNode d))
  return ⟨names, records⟩

/-- A half-width is a number, or a list of numbers. -/
def HalfWidth.ofNode : Node → Reading HalfWidth := d.content fun n =>
  let number := d.rules.openReal
  (.uniform <$> number n) <|> (.perDimension <$> Dialect.openList number n)

/-- The parameters of a kind of model. -/
def ModelChoice.ofBody? (rules : Dialect) (kind : String) (body : Dialect.Body) :
    Option ModelChoice :=
  match kind with
  | "identity" => do
    let fs ← rules.openFields ["dimension"] body
    let dimension ← fs.required "dimension" rules.openCount
    return .identity dimension
  | "affine" => do
    let vector := Dialect.openList rules.openReal
    let fs ← rules.openFields ["matrix", "offset", "noise"] body
    let matrix ← fs.required "matrix" (Dialect.openList vector)
    let offset ← fs.default "offset" none (rules.openOptional vector)
    let noise ← fs.default "noise" none (rules.openOptional vector)
    return .affine matrix offset noise
  | _ => none

/-- A model is a record with its `kind` and the parameters of that kind, or a list of them in this
order. -/
def ModelChoice.ofNode : Node → Reading ModelChoice := d.content fun n => do
  let (kind, body) ← d.rules.tagged "kind" n
  ModelChoice.ofBody? d.rules kind body

/-- A guard has the fields `check_finite` and `max_magnitude`. -/
def Guard.ofNode (n : Node) : Reading Guard := do
  let fs ← d.fields ⟨[("check_finite", []), ("max_magnitude", [])], false⟩ n
  let checkFinite ← fs.default "check_finite" true d.flag
  let maxMagnitude ← fs.default "max_magnitude" none (d.optional d.real)
  return ⟨checkFinite, maxMagnitude⟩

/-- A divergence is its name, with its details as a record under it. -/
def Divergence.ofNode (n : Node) : Reading Divergence := do
  let n ← d.follow n
  match d.rules.variantName? n, n with
  | some name, _ => if name = "Reported" then return .reported else failure
  | none, .record _ [(key, body)] => do
    match ← d.text key with
    | "NonFinite" => do
      let fs ← d.fields ⟨[("coordinate", [])], false⟩ body
      let coordinate ← fs.required "coordinate" d.count
      return .nonFinite coordinate
    | "Magnitude" => do
      let fs ← d.fields ⟨[("value", []), ("bound", [])], false⟩ body
      let value ← fs.required "value" d.real
      let bound ← fs.required "bound" d.real
      return .magnitude value bound
    | _ => failure
  | none, _ => failure

def BoundStrategy.ofNode : Node → Reading BoundStrategy := d.variant BoundStrategy.ofName?

/-- Settings of the log; what is missing has its default. -/
def LogConfig.ofNode (n : Node) : Reading LogConfig := do
  let base : LogConfig := {}
  let fs ← d.fields ⟨[("probability", []), ("epsilon", []), ("initial_set", [])], true⟩ n
  let probability ← fs.default "probability" base.probability d.real
  let halfWidth ← fs.default "epsilon" base.halfWidth (HalfWidth.ofNode d)
  let initialSet ← fs.default "initial_set" base.initialSet (d.list (d.pair d.real))
  return ⟨probability, halfWidth, initialSet⟩

/-- Settings of the sampling; what is missing has its default. -/
def SamplingConfig.ofNode (n : Node) : Reading SamplingConfig := do
  let base : SamplingConfig := {}
  let fs ← d.fields ⟨[("horizon", []), ("batch_size", []), ("max_attempts", []), ("retain", []),
    ("timeout_secs", [])], true⟩ n
  let horizon ← fs.default "horizon" base.horizon d.count
  let batchSize ← fs.default "batch_size" base.batchSize d.count
  let maxAttempts ← fs.default "max_attempts" base.maxAttempts d.count
  let retain ← fs.default "retain" base.retain d.count
  let timeoutSeconds ← fs.default "timeout_secs" base.timeoutSeconds (d.optional d.real)
  return ⟨horizon, batchSize, maxAttempts, retain, timeoutSeconds⟩

/-- Settings of the sample bound; what is missing has its default. -/
def BoundConfig.ofNode (n : Node) : Reading BoundConfig := do
  let base : BoundConfig := {}
  let fs ← d.fields ⟨[("strategy", []), ("budget", []), ("confidence", [])], true⟩ n
  let strategy ← fs.default "strategy" base.strategy (BoundStrategy.ofNode d)
  let budget ← fs.default "budget" base.budget d.real
  let confidence ← fs.default "confidence" base.confidence d.real
  return ⟨strategy, budget, confidence⟩

/-- The seed stands in a section of its own. -/
def seedOfNode (n : Node) : Reading UInt64 := do
  let base : Config := {}
  let fs ← d.fields ⟨[("seed", [])], true⟩ n
  fs.default "seed" base.seed fun n => Nat.toUInt64 <$> d.count n

/-- The sections of a configuration; what is missing has its defaults. -/
def Config.ofNode (n : Node) : Reading Config := do
  let base : Config := {}
  let fs ← d.fields ⟨[("schema_version", []), ("reproducibility", []), ("model", []),
    ("guard", []), ("log", []), ("sampling", []), ("bound", []), ("safety", [])], true⟩ n
  let schemaVersion ← fs.default "schema_version" base.schemaVersion d.text
  let seed ← fs.default "reproducibility" base.seed (seedOfNode d)
  let model ← fs.default "model" base.model (ModelChoice.ofNode d)
  let guard ← fs.default "guard" base.guard (Guard.ofNode d)
  let log ← fs.default "log" base.log (LogConfig.ofNode d)
  let sampling ← fs.default "sampling" base.sampling (SamplingConfig.ofNode d)
  let bound ← fs.default "bound" base.bound (BoundConfig.ofNode d)
  let safety ← fs.default "safety" base.safety (ConstraintSpec.ofNode d)
  return { schemaVersion, seed, model, guard, log, sampling, bound, safety }

end TrajectorySafety
