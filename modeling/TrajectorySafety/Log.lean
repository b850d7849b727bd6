import TrajectorySafety.Interval

/-!
Uncertainty logs: boxes observed at increasing times, the first of them at time 0.

`UncertaintyLog` holds entries in which `fault?` finds nothing wrong, so that every log that exists
is non-empty, starts at time 0, has increasing times and boxes of one positive dimension.
-/

namespace TrajectorySafety

/-- A box observed at a time. -/
structure LogEntry where
  region : Box
  time : Nat
deriving Repr

namespace LogEntry

/-- The first two neighbours whose times do not increase, as later and earlier time. -/
def firstUnordered : List LogEntry → Option (Nat × Nat)
  | a :: b :: rest =>
    if b.time ≤ a.time then some (b.time, a.time) else firstUnordered (b :: rest)
  | _ => none

/-- The first thing wrong with a sequence of entries. -/
def fault? : List LogEntry → Option Fault
  | [] => some .emptyLog
  | first :: rest =>
    let dimension := first.region.dimension
    if first.time ≠ 0 then some (.lateLog first.time)
    else if dimension = 0 then some .boxWithoutCoordinates
    else
      match firstUnordered (first :: rest) with
      | some (later, earlier) => some (.unorderedLog later earlier)
      | none =>
        match rest.find? fun e => e.region.dimension ≠ dimension with
        | some e => some (.mixedLog e.time e.region.dimension dimension)
        | none => none

end LogEntry

/-- A sequence of observations without a fault. -/
structure UncertaintyLog where
  entries : List LogEntry
  faultless : LogEntry.fault? entries = none

namespace UncertaintyLog

/-- The log of a sequence of entries, or what is wrong with them. -/
def ofEntries (entries : List LogEntry) : Except Fault UncertaintyLog :=
  match h : LogEntry.fault? entries with
  | some fault => .error fault
  | none => .ok ⟨entries, h⟩

theorem entries_ne_nil (log : UncertaintyLog) : log.entries ≠ [] := by
  intro h
  have := log.faultless
  rw [h] at this
  simp [LogEntry.fault?] at this

/-- The entry at time 0. -/
def first (log : UncertaintyLog) : LogEntry := log.entries.head log.entries_ne_nil

/-- The number of coordinates of every box. -/
def dimension (log : UncertaintyLog) : Nat := log.first.region.dimension

/-- The latest time. -/
def maxTime (log : UncertaintyLog) : Nat := (log.entries.getLast log.entries_ne_nil).time

def length (log : UncertaintyLog) : Nat := log.entries.length

end UncertaintyLog

end TrajectorySafety
