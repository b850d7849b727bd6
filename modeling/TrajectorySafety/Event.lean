/-!
Diagnostics of a run, in the order in which they happen.
-/

namespace TrajectorySafety

/-- How much attention a diagnostic asks for. -/
inductive Level where
  | debug
  | info
  | warn
deriving Repr, DecidableEq

/-- The value of a named field of a diagnostic. -/
inductive Field where
  | text (value : String)
  | count (value : Nat)
  | flag (value : Bool)
  | real (value : Float)
deriving Repr

/-- Something worth noting that happened during a run. -/
inductive Event where
  | boundComputed (strategy : String) (budget confidence : Float) (required : Nat)
  | logChecked (entries unsafeEntries : Nat)
  | boxMayViolate (violation : String) (index : Nat)
  | samplingStarted (model : String) (seed : Nat) (batched : Bool) (batchSize horizon : Nat)
  | samplingStopped (reason : String) (valid required : Nat)
  | batchFiltered (batch stream attempted valid diverged : Nat)
  | sampleViolates (violation : String) (batch index : Nat)
  | finished (verdict : String) (total valid : Nat)
  | truncated (model error : String)
  | referenceTruncated (length horizon : Nat)
  | logGenerated (entries : Nat) (probability : Float)
  | logWritten (path : String)
  | trajectoryUnsafe (violation : String)
deriving Repr

def Event.level : Event → Level
  | .boxMayViolate .. | .samplingStopped .. | .sampleViolates .. | .truncated ..
  | .referenceTruncated .. => .warn
  | .batchFiltered .. | .trajectoryUnsafe .. => .debug
  | _ => .info

def Event.message : Event → String
  | .boundComputed .. => "sample bound computed"
  | .logChecked .. => "log checked"
  | .boxMayViolate .. => "logged box may violate safety"
  | .samplingStarted .. => "sampling started"
  | .samplingStopped .. => "sampling stopped early"
  | .batchFiltered .. => "batch filtered"
  | .sampleViolates .. => "sampled trajectory violates safety"
  | .finished .. => "verification finished"
  | .truncated .. => "trajectory truncated"
  | .referenceTruncated .. => "reference trajectory diverged; log covers the prefix only"
  | .logGenerated .. => "uncertainty log generated"
  | .logWritten .. => "log written"
  | .trajectoryUnsafe .. => "trajectory unsafe"

/-- The fields of a diagnostic, by name. -/
def Event.fields : Event → List (String × Field)
  | .boundComputed strategy budget confidence required =>
    [("strategy", .text strategy), ("budget", .real budget), ("confidence", .real confidence),
      ("required", .count required)]
  | .logChecked entries unsafeEntries =>
    [("entries", .count entries), ("unsafe_entries", .count unsafeEntries)]
  | .boxMayViolate violation index => [("violation", .text violation), ("index", .count index)]
  | .samplingStarted model seed batched batchSize horizon =>
    [("model", .text model), ("seed", .count seed), ("batched", .flag batched),
      ("batch_size", .count batchSize), ("horizon", .count horizon)]
  | .samplingStopped reason valid required =>
    [("reason", .text reason), ("valid", .count valid), ("required", .count required)]
  | .batchFiltered batch stream attempted valid diverged =>
    [("batch", .count batch), ("stream", .count stream), ("attempted", .count attempted),
      ("valid", .count valid), ("diverged", .count diverged)]
  | .sampleViolates violation batch index =>
    [("violation", .text violation), ("batch", .count batch), ("index", .count index)]
  | .finished verdict total valid =>
    [("verdict", .text verdict), ("total", .count total), ("valid", .count valid)]
  | .truncated model error => [("model", .text model), ("error", .text error)]
  | .referenceTruncated length horizon => [("len", .count length), ("horizon", .count horizon)]
  | .logGenerated entries probability =>
    [("entries", .count entries), ("probability", .real probability)]
  | .logWritten path => [("path", .text path)]
  | .trajectoryUnsafe violation => [("violation", .text violation)]

end TrajectorySafety
