import TrajectorySafety.Safety.Evaluation
import TrajectorySafety.Number.Decimal

/-!
What a run found: the verdict and the counts behind it.
-/

namespace TrajectorySafety

/-- Why a run ended without a verdict. -/
inductive StopReason where
  | attemptsExhausted
  | cancelled
  | timedOut
deriving Repr, DecidableEq

def StopReason.text : StopReason → String
  | attemptsExhausted => "attempt budget exhausted"
  | cancelled => "cancelled"
  | timedOut => "timed out"

/-- Where the witness of a violation came from. -/
inductive WitnessSource where
  /-- A logged box, by its position in the log. -/
  | logEntry (index : Nat)
  /-- A sampled trajectory, by its batch and its position among the valid ones of the batch. -/
  | trajectory (batch index : Nat)
deriving Repr, DecidableEq

/-- The outcome of a run. -/
inductive Verdict where
  | safe
  | violated (violation : Violation) (source : WitnessSource)
  | inconclusive (reason : StopReason)
deriving Repr

namespace Verdict

def label : Verdict → String
  | safe => "SAFE"
  | violated .. => "UNSAFE"
  | inconclusive .. => "INCONCLUSIVE"

def text : Verdict → String
  | safe => "SAFE"
  | violated v _ => s!"UNSAFE ({v.text})"
  | inconclusive r => s!"INCONCLUSIVE ({r.text})"

def isSafe : Verdict → Bool
  | safe => true
  | _ => false

def isViolated : Verdict → Bool
  | violated .. => true
  | _ => false

/-- The violation behind a negative verdict. -/
def witness? : Verdict → Option Violation
  | violated v _ => some v
  | _ => none

end Verdict

/-- The verdict of a finished run with its counts and examples. -/
structure Report where
  verdict : Verdict
  strategy : String
  required : Nat
  elapsedSeconds : Float
  total : Nat
  valid : Nat
  batches : Nat
  diverged : Nat
  safeTrajectories : List Trajectory
  unsafeTrajectories : List Trajectory
  safeEntries : List LogEntry
  unsafeEntries : List LogEntry
deriving Repr

namespace Report

/-- The share of generated trajectories that agree with the log, in percent. -/
def validPercent (r : Report) : Float :=
  if r.total = 0 then 0 else 100 * Number.ofNat r.valid / Number.ofNat r.total

/-- The line that explains the verdict, if it needs one. -/
def explanation : Verdict → String
  | .safe => ""
  | .violated v _ => s!"Witness: {v.text}\n"
  | .inconclusive r => s!"Reason: {r.text}\n"

/-- The summary for readers. -/
def summary (r : Report) : String :=
  s!"Time Taken: {Number.fixed 4 r.elapsedSeconds} sec\n" ++
    s!"Safety: {r.verdict.label}\n" ++
    explanation r.verdict ++
    s!"Required Samples: {r.required} ({r.strategy})\n" ++
    s!"[Trajs] Safe, Unsafe: {r.safeTrajectories.length} {r.unsafeTrajectories.length}\n" ++
    s!"[Log] Safe, Unsafe: {r.safeEntries.length} {r.unsafeEntries.length}\n" ++
    s!"Total Trajectories Generated: {r.total} ; " ++
    s!"Valid Trajectories: {r.valid} ({Number.fixed 1 r.validPercent}%)\n" ++
    (if 0 < r.diverged then s!"Diverged Trajectories: {r.diverged}\n" else "")

end Report

end TrajectorySafety
