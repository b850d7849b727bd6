import TrajectorySafety.Number.Decimal

/-!
What can go wrong, by cause.

`Fault` is a configuration that cannot be used, `LineFault` a line of a written log that cannot be
read; `Error` is everything under which no verdict can be given. A safety violation is not among
them: it is a verdict. The wording stands in the three `message` functions only.
-/

namespace TrajectorySafety

open Number (text)

/-- What is wrong with a configuration, a log or a constraint. -/
inductive Fault where
  /-- A fault stated in words by the caller. -/
  | stated (message : String)
  | unboundedInterval (lo hi : Float)
  | invertedInterval (lo hi : Float)
  | negativeHalfWidth (halfWidth : Float)
  | emptyLog
  | lateLog (time : Nat)
  | boxWithoutCoordinates
  | unorderedLog (later earlier : Nat)
  | mixedLog (time found expected : Nat)
  | halfWidthCount (found dimension : Nat)
  | badHalfWidth (halfWidth : Float)
  | loggingProbability (percent : Float)
  | emptyReference
  | budget (budget : Float)
  | confidence (confidence : Float)
  | unknownStrategy (name : String)
  | zeroHorizon
  | zeroBatch
  | zeroDimension
  | emptyMatrix
  | matrixRow (row found expected : Nat)
  | matrixEntry (row : Nat)
  | vectorLength (field : String) (found expected : Nat)
  | vectorEntry (field : String)
  | negativeNoise (index : Nat)
  | unknownOperator (token : String)
  | noConstraints
  | constraintCoordinate (index coordinate dimension : Nat)
  | constraintThreshold (index : Nat)
  | repeatedVariable (name : String)
  | variableIndex (index coordinate listed : Nat)
  | unknownVariable (index : Nat) (name : String)
  | recordOperator (index : Nat) (token : String)
  | missingThreshold (index : Nat)
  | configuredProbability (percent : Float)
  | initialSetCount (found dimension : Nat)
  | initialInterval (index : Nat) (fault : Fault)
  | timeoutSign (seconds : Float)
  | timeoutRange (seconds : Float)
  | configuredBudget (budget : Float)
  | logDimension (found : Nat) (model : String) (expected : Nat)
  | logHorizon (time horizon : Nat)
deriving Repr

/-- The wording for an operator that does not exist. -/
def unknownOperatorMessage (token : String) : String :=
  s!"unknown operator '{token}' (expected one of <, <=, >, >=, lt, le, gt, ge)"

/-- The wording of a fault. -/
def Fault.message : Fault → String
  | .stated m => m
  | .unboundedInterval lo hi => s!"interval bounds must be finite, got [{text lo}, {text hi}]"
  | .invertedInterval lo hi =>
    s!"interval lower bound exceeds upper bound: [{text lo}, {text hi}]"
  | .negativeHalfWidth h => s!"half-width must be non-negative, got {text h}"
  | .emptyLog => "uncertainty log has no entries"
  | .lateLog t => s!"uncertainty log must start at t=0, first entry is t={t}"
  | .boxWithoutCoordinates => "uncertainty log boxes have no coordinates"
  | .unorderedLog later earlier =>
    s!"uncertainty log timestamps must be strictly increasing: t={later} follows t={earlier}"
  | .mixedLog t found expected => s!"log entry t={t} has {found} coordinates, expected {expected}"
  | .halfWidthCount found dimension =>
    s!"log.epsilon lists {found} half-widths for a {dimension}-dimensional state"
  | .badHalfWidth h => s!"log.epsilon must be finite and non-negative, got {text h}"
  | .loggingProbability p => s!"log.probability must be in (0, 100], got {text p}"
  | .emptyReference => "reference trajectory is empty"
  | .budget b => s!"bound.budget must be a finite number greater than 1, got {text b}"
  | .confidence c => s!"bound.confidence must lie strictly between 0 and 1, got {text c}"
  | .unknownStrategy name =>
    s!"unknown bound strategy '{name}' (expected jeffreys or beta-posterior)"
  | .zeroHorizon => "sampling.horizon must be at least 1"
  | .zeroBatch => "sampling.batch_size must be at least 1"
  | .zeroDimension => "model.dimension must be at least 1"
  | .emptyMatrix => "model.matrix must have at least one row"
  | .matrixRow i found expected => s!"model.matrix[{i}] has {found} columns, expected {expected}"
  | .matrixEntry i => s!"model.matrix[{i}] contains a non-finite entry"
  | .vectorLength field found expected => s!"{field} has {found} entries, expected {expected}"
  | .vectorEntry field => s!"{field} contains a non-finite entry"
  | .negativeNoise i => s!"model.noise[{i}] must be non-negative"
  | .unknownOperator token => unknownOperatorMessage token
  | .noConstraints => "safety.constraints must not be empty"
  | .constraintCoordinate i c dimension =>
    s!"safety.constraints[{i}] refers to x[{c}] but the state has {dimension} coordinates"
  | .constraintThreshold i => s!"safety.constraints[{i}] threshold must be finite"
  | .repeatedVariable name => s!"safety.state_vars lists '{name}' more than once"
  | .variableIndex i c listed =>
    s!"safety.constraints[{i}].state: index {c} outside state_vars (len {listed})"
  | .unknownVariable i name => s!"safety.constraints[{i}].state: unknown state variable '{name}'"
  | .recordOperator i token =>
    s!"safety.constraints[{i}].op: Configuration error: " ++ unknownOperatorMessage token
  | .missingThreshold i => s!"safety.constraints[{i}].value: missing numeric threshold"
  | .configuredProbability p => s!"log.probability must lie in (0, 100], got {text p}"
  | .initialSetCount found dimension =>
    s!"log.initial_set has {found} intervals for a {dimension}-dimensional state"
  | .initialInterval i fault => s!"log.initial_set[{i}]: Configuration error: " ++ fault.message
  | .timeoutSign s => s!"sampling.timeout_secs must be positive, got {text s}"
  | .timeoutRange s => s!"sampling.timeout_secs is out of range, got {text s}"
  | .configuredBudget b => s!"bound.budget must be greater than 1, got {text b}"
  | .logDimension found model expected =>
    s!"log has {found} coordinates but model '{model}' has {expected}"
  | .logHorizon t horizon => s!"log timestamp t={t} is outside sampling.horizon {horizon}"

/-- What is wrong with a line of a written log. -/
inductive LineFault where
  /-- A fault stated in words by the caller. -/
  | stated (message : String)
  | noColon
  | noTime (found : String)
  | badTime (found : String)
  | brackets (opening closing : Nat)
  | notEnclosed
  | noComma (rest : String)
  | noOpening (rest : String)
  | unterminated
  | nested
  | boundCount (pair : String)
  | notNumeric (found : String)
  | notFinite (found : String)
  | interval (fault : Fault)
  | noIntervals
  | dimension (found expected : Nat)
  | lateStart (time : Nat)
  | unordered (time previous : Nat)
  | noEntries
deriving Repr

/-- The wording of a line fault. -/
def LineFault.message : LineFault → String
  | .stated m => m
  | .noColon => "missing ':' separator"
  | .noTime found => s!"expected 't=<int>', found '{found}'"
  | .badTime found => s!"invalid timestamp '{found}'"
  | .brackets opening closing => s!"mismatched brackets: {opening} '[' vs {closing} ']'"
  | .notEnclosed => "box must be enclosed in '[' ... ']'"
  | .noComma rest => s!"expected ',' between intervals, found '{rest}'"
  | .noOpening rest => s!"expected '[' to open an interval, found '{rest}'"
  | .unterminated => "unterminated interval"
  | .nested => "nested brackets inside an interval"
  | .boundCount pair => s!"interval must have two bounds, found '[{pair}]'"
  | .notNumeric found => s!"non-numeric bound '{found}'"
  | .notFinite found => s!"non-finite bound '{found}'"
  | .interval fault => "Configuration error: " ++ fault.message
  | .noIntervals => "box has no intervals"
  | .dimension found expected => s!"box has {found} coordinates, expected {expected}"
  | .lateStart t => s!"first entry must be at t=0, found t={t}"
  | .unordered t previous => s!"t={t} does not follow t={previous}"
  | .noEntries => "log contains no entries"

/-- A setting outside its range, by its path in the document and the rule that it breaks. -/
structure Breach where
  path : String
  rule : String
deriving Repr, DecidableEq

/-- Why a file cannot be read or written. -/
inductive FileFault where
  /-- A fault stated in words by the caller. -/
  | stated (message : String)
  | missing
  | exists
  | notFolder
  | isFolder
  | tooLong
  /-- A name with a null character in it. -/
  | nullInName
deriving Repr, DecidableEq

/-- The wording of a file fault, with the number that the operating system has for it. -/
def FileFault.message : FileFault → String
  | .stated m => m
  | .missing => "No such file or directory (os error 2)"
  | .exists => "File exists (os error 17)"
  | .notFolder => "Not a directory (os error 20)"
  | .isFolder => "Is a directory (os error 21)"
  | .tooLong => "File name too long (os error 36)"
  | .nullInName => "file name contained an unexpected NUL byte"

/-- The reasons why no verdict can be given. -/
inductive Error where
  /-- An unusable configuration. -/
  | config (fault : Fault)
  /-- A document that does not describe a configuration. -/
  | document
  /-- Settings outside their ranges. -/
  | validation (breaches : List Breach)
  /-- An unreadable line of a log, counted from one. -/
  | parse (line : Nat) (fault : LineFault)
  /-- A trajectory that diverged; handled by cutting the trajectory off. -/
  | divergence (location : String)
  /-- A failure of the model, which ends the run. -/
  | model (message : String)
  /-- A failed access to a file. -/
  | file (fault : FileFault)
  /-- A value without a written form, or a text that is none. -/
  | serialization (message : String)
  /-- More room asked for than a list can have. The program stops where this happens, so no caller
  ever handles it. -/
  | capacity
deriving Repr

/-- The wording of an error. -/
def Error.message : Error → String
  | .config fault => "Configuration error: " ++ fault.message
  | .document => "YAML parsing error: the document does not describe a configuration"
  | .validation breaches =>
    "Validation error: " ++ "\n".intercalate (breaches.map fun b => s!"{b.path}: {b.rule}")
  | .parse line fault => s!"Log parse error at line {line}: " ++ fault.message
  | .divergence location => s!"Divergence detected at {location}"
  | .model message => s!"Model failure: {message}"
  | .file fault => "I/O error: " ++ fault.message
  | .serialization message => s!"Serialization error: {message}"
  | .capacity => "capacity overflow"

/-- Whether an error stops everything before any sampling starts. -/
def Error.isLoad : Error → Bool
  | .config _ | .document | .validation _ | .parse _ _ => true
  | _ => false

end TrajectorySafety
