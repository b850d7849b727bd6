import TrajectorySafety.Log
import TrajectorySafety.Safety.Constraint

/-!
Where a trajectory or a log violates the constraints.

A trajectory is scanned time by time and, at each time, constraint by constraint; the first hit is
the violation. A logged box counts as a violation as soon as some point of it may be one, which the
relevant end of the interval decides.
-/

namespace TrajectorySafety

/-- What was seen at a violation. -/
inductive Observed where
  | value (value : Float)
  | interval (lo hi : Float)
deriving Repr

/-- A constraint that holds, or may hold, at a time. -/
structure Violation where
  time : Nat
  constraint : Constraint
  observed : Observed
deriving Repr

def Violation.text (v : Violation) : String :=
  let c := v.constraint
  match v.observed with
  | .value value =>
    s!"t={v.time}: x[{c.coordinate}] = {Number.text value} {c.op.symbol} {Number.text c.threshold}"
  | .interval lo hi =>
    s!"t={v.time}: x[{c.coordinate}] in [{Number.text lo}, {Number.text hi}] may be " ++
      s!"{c.op.symbol} {Number.text c.threshold}"

/-- The constraint at a state, if the state has its coordinate and the comparison holds there. -/
def Constraint.checkState (c : Constraint) (s : State) (time : Nat) : Option Violation :=
  match s.get? c.coordinate with
  | some value => if c.op.holds value c.threshold then some ⟨time, c, .value value⟩ else none
  | none => none

/-- The constraint at a logged box: the end of the interval that satisfies it most easily. -/
def Constraint.checkEntry (c : Constraint) (e : LogEntry) : Option Violation :=
  match e.region.interval? c.coordinate with
  | some i =>
    if c.op.holds (if c.op.usesUpper then i.hi else i.lo) c.threshold then
      some ⟨e.time, c, .interval i.lo i.hi⟩
    else none
  | none => none

/-- The first constraint that a state violates. -/
def checkState (constraints : List Constraint) (s : State) (time : Nat) : Option Violation :=
  constraints.findSome? fun c => c.checkState s time

/-- The first constraint that a logged box may violate. -/
def checkEntry (constraints : List Constraint) (e : LogEntry) : Option Violation :=
  constraints.findSome? fun c => c.checkEntry e

/-- The first violation among the states from a time on. -/
def violationFrom (constraints : List Constraint) : (time : Nat) → List State → Option Violation
  | _, [] => none
  | time, s :: rest =>
    match checkState constraints s time with
    | some v => some v
    | none => violationFrom constraints (time + 1) rest

/-- The earliest violation along a trajectory. -/
def firstViolation (constraints : List Constraint) (t : Trajectory) : Option Violation :=
  violationFrom constraints 0 t.states

/-- Whether a trajectory violates nothing. -/
def isSafe (constraints : List Constraint) (t : Trajectory) : Bool :=
  (firstViolation constraints t).isNone

/-- The first element with a finding, by position and finding. -/
def firstFinding {α β : Type} (find : α → Option β) : (i : Nat) → List α → Option (Nat × β)
  | _, [] => none
  | i, a :: rest =>
    match find a with
    | some b => some (i, b)
    | none => firstFinding find (i + 1) rest

/-- The first trajectory with a violation, by position and violation. -/
def firstUnsafe (constraints : List Constraint) (ts : List Trajectory) : Option (Nat × Violation) :=
  firstFinding (firstViolation constraints) 0 ts

/-- The safe and the unsafe trajectories, each in order. -/
def splitTrajectories (constraints : List Constraint) (ts : List Trajectory) :
    List Trajectory × List Trajectory :=
  ts.partition (isSafe constraints)

/-- Whether no point of a logged box can be a violation. -/
def isEntrySafe (constraints : List Constraint) (e : LogEntry) : Bool :=
  (checkEntry constraints e).isNone

/-- The first logged box that may violate a constraint, by position and violation. -/
def firstUnsafeEntry (constraints : List Constraint) (log : UncertaintyLog) :
    Option (Nat × Violation) :=
  firstFinding (checkEntry constraints) 0 log.entries

/-- The entries of a log by whether they may violate a constraint, and the first violation. -/
structure LogAudit where
  safe : List LogEntry := []
  unsafeEntries : List LogEntry := []
  first : Option (Nat × Violation) := none

/-- The audit of the entries from position `i` on, in one pass. -/
def LogAudit.scan (constraints : List Constraint) : (i : Nat) → List LogEntry → LogAudit
  | _, [] => {}
  | i, e :: rest =>
    let later := LogAudit.scan constraints (i + 1) rest
    match checkEntry constraints e with
    | some v => { later with unsafeEntries := e :: later.unsafeEntries, first := some (i, v) }
    | none => { later with safe := e :: later.safe }

/-- The audit of a log. -/
def auditLog (constraints : List Constraint) (log : UncertaintyLog) : LogAudit :=
  LogAudit.scan constraints 0 log.entries

end TrajectorySafety
