import TrajectorySafety.Log

/-!
Which trajectories agree with a log: those whose state at every logged time lies in the logged box.
Times that the log does not mention are not tested.
-/

namespace TrajectorySafety

/-- Why a trajectory does not agree with a log. -/
inductive Inconsistency where
  /-- The state at a logged time lies outside the box, first in this coordinate. -/
  | outside (time coordinate : Nat)
  /-- The trajectory ended before a logged time. -/
  | missing (time : Nat)
deriving Repr, DecidableEq

/-- How the state at the time of an entry, if there is one, misses the box of the entry. -/
def LogEntry.missedBy (e : LogEntry) : Option State → Option Inconsistency
  | none => some (.missing e.time)
  | some s => (e.region.firstOutside s).map (.outside e.time)

/-- How a trajectory misses the box of an entry. -/
def LogEntry.inconsistency? (e : LogEntry) (t : Trajectory) : Option Inconsistency :=
  e.missedBy (t.at? e.time)

namespace UncertaintyLog

/-- The first entry whose box a trajectory misses. The states are put in an array first, where they
are found by their time at once. -/
def inconsistency? (log : UncertaintyLog) (t : Trajectory) : Option Inconsistency :=
  let states := t.states.toArray
  log.entries.findSome? fun e => e.missedBy states[e.time]?

theorem inconsistency?_eq_findSome? (log : UncertaintyLog) (t : Trajectory) :
    log.inconsistency? t = log.entries.findSome? fun e => e.inconsistency? t := by
  simp [inconsistency?, LogEntry.inconsistency?, Trajectory.at?]

/-- Whether a trajectory agrees with the log. -/
def admits (log : UncertaintyLog) (t : Trajectory) : Bool := (log.inconsistency? t).isNone

/-- The trajectories that agree with the log and those that do not, each in order. -/
def split (log : UncertaintyLog) (ts : List Trajectory) : List Trajectory × List Trajectory :=
  ts.partition log.admits

end UncertaintyLog

end TrajectorySafety
