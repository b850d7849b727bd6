import TrajectorySafety.Config
import TrajectorySafety.Document.Datum
import TrajectorySafety.Verification.Report

/-!
The values of this library as plain data. What is written here is what the decoders read.
-/

namespace TrajectorySafety

open Datum (listOf optional)

def State.datum (s : State) : Datum := listOf .real s.coordinates

def Trajectory.datum (t : Trajectory) : Datum :=
  .record [("states", listOf State.datum t.states), ("horizon", .count t.horizon)]

def Interval.datum (i : Interval) : Datum := .record [("lo", .real i.lo), ("hi", .real i.hi)]

def Box.datum (b : Box) : Datum := listOf Interval.datum b.intervals

def LogEntry.datum (e : LogEntry) : Datum :=
  .record [("region", e.region.datum), ("time", .count e.time)]

def UncertaintyLog.datum (log : UncertaintyLog) : Datum :=
  .record [("entries", listOf LogEntry.datum log.entries)]

def Operator.datum (op : Operator) : Datum := .text op.symbol

def Constraint.datum (c : Constraint) : Datum :=
  .record [("coordinate", .count c.coordinate), ("op", c.op.datum),
    ("threshold", .real c.threshold)]

def StateVariable.datum : StateVariable → Datum
  | .index i => .count i
  | .name n => .text n

def ConstraintRecord.datum (r : ConstraintRecord) : Datum :=
  .record [("state", r.state.datum), ("op", .text r.op), ("value", optional .real r.value)]

def ConstraintSpec.datum (s : ConstraintSpec) : Datum :=
  .record [("state_vars", listOf .text s.names),
    ("constraints", listOf ConstraintRecord.datum s.records)]

def HalfWidth.datum : HalfWidth → Datum
  | .uniform h => .real h
  | .perDimension hs => listOf .real hs

def ModelChoice.datum : ModelChoice → Datum
  | .identity dimension => .record [("kind", .text "identity"), ("dimension", .count dimension)]
  | .affine matrix offset noise =>
    .record [("kind", .text "affine"), ("matrix", listOf (listOf .real) matrix),
      ("offset", optional (listOf .real) offset), ("noise", optional (listOf .real) noise)]

def Guard.datum (g : Guard) : Datum :=
  .record [("check_finite", .flag g.checkFinite), ("max_magnitude", optional .real g.maxMagnitude)]

def Divergence.datum : Divergence → Datum
  | .reported => .text "Reported"
  | .nonFinite i => .record [("NonFinite", .record [("coordinate", .count i)])]
  | .magnitude value bound =>
    .record [("Magnitude", .record [("value", .real value), ("bound", .real bound)])]

def BoundStrategy.datum (s : BoundStrategy) : Datum := .text s.name

def LogConfig.datum (c : LogConfig) : Datum :=
  .record [("probability", .real c.probability), ("epsilon", c.halfWidth.datum),
    ("initial_set", listOf (fun (lo, hi) => .list [.real lo, .real hi]) c.initialSet)]

def SamplingConfig.datum (c : SamplingConfig) : Datum :=
  .record [("horizon", .count c.horizon), ("batch_size", .count c.batchSize),
    ("max_attempts", .count c.maxAttempts), ("retain", .count c.retain),
    ("timeout_secs", optional .real c.timeoutSeconds)]

def BoundConfig.datum (c : BoundConfig) : Datum :=
  .record [("strategy", c.strategy.datum), ("budget", .real c.budget),
    ("confidence", .real c.confidence)]

def Config.datum (c : Config) : Datum :=
  .record [("schema_version", .text c.schemaVersion),
    ("reproducibility", .record [("seed", .count c.seed.toNat)]),
    ("model", c.model.datum), ("guard", c.guard.datum), ("log", c.log.datum),
    ("sampling", c.sampling.datum), ("bound", c.bound.datum), ("safety", c.safety.datum)]

/-- What was seen at a violation has its kind beside its values. -/
def Observed.datum : Observed → Datum
  | .value v => .record [("kind", .text "value"), ("value", .real v)]
  | .interval lo hi => .record [("kind", .text "interval"), ("lo", .real lo), ("hi", .real hi)]

def Violation.datum (v : Violation) : Datum :=
  .record [("time", .count v.time), ("constraint", v.constraint.datum),
    ("observed", v.observed.datum)]

def WitnessSource.datum : WitnessSource → Datum
  | .logEntry i => .record [("kind", .text "log_entry"), ("index", .count i)]
  | .trajectory batch i =>
    .record [("kind", .text "trajectory"), ("batch", .count batch), ("index", .count i)]

def StopReason.datum : StopReason → Datum
  | .attemptsExhausted => .text "attempts_exhausted"
  | .cancelled => .text "cancelled"
  | .timedOut => .text "timed_out"

def Verdict.datum : Verdict → Datum
  | .safe => .record [("verdict", .text "safe")]
  | .violated v source =>
    .record [("verdict", .text "unsafe"), ("violation", v.datum), ("source", source.datum)]
  | .inconclusive reason => .record [("verdict", .text "inconclusive"), ("reason", reason.datum)]

def Report.datum (r : Report) : Datum :=
  .record [("verdict", r.verdict.datum), ("strategy", .text r.strategy),
    ("required_samples", .count r.required), ("elapsed_secs", .real r.elapsedSeconds),
    ("total_trajectories", .count r.total), ("valid_trajectories", .count r.valid),
    ("batches", .count r.batches), ("diverged", .count r.diverged),
    ("safe_trajectories", listOf Trajectory.datum r.safeTrajectories),
    ("unsafe_trajectories", listOf Trajectory.datum r.unsafeTrajectories),
    ("safe_log_entries", listOf LogEntry.datum r.safeEntries),
    ("unsafe_log_entries", listOf LogEntry.datum r.unsafeEntries)]

end TrajectorySafety
