import TrajectorySafety.Proofs.Log.Comparison
import TrajectorySafety.Proofs.Splitting

/-!
A log that says more admits less.

A log narrows another one if each entry of the other holds, at the same time, a box of the first
(`Narrows`): entries may be added and boxes shrunk. Whatever the trajectories are like, the
narrowing log admits none that the other rejects, so its admitted part of a list is a sublist of
that of the other. The two scans stop at different entries and for different reasons; they are
compared through what a scan without a finding says (`admits_iff`).
-/

namespace TrajectorySafety

instance (i j : Interval) : Decidable (i.Inside j) :=
  inferInstanceAs (Decidable (j.lo ≤ i.lo ∧ i.hi ≤ j.hi))

instance (b c : Box) : Decidable (b.Inside c) :=
  inferInstanceAs (Decidable (List.Forall₂ Interval.Inside b.intervals c.intervals))

instance (e f : LogEntry) : Decidable (e.Inside f) :=
  inferInstanceAs (Decidable (e.time = f.time ∧ e.region.Inside f.region))

namespace UncertaintyLog

/-- Each entry of the wider log has an entry of this one at its time, whose box is of the same
dimension and lies in its box interval by interval. -/
def Narrows (log wider : UncertaintyLog) : Prop :=
  ∀ f ∈ wider.entries, ∃ e ∈ log.entries, e.Inside f

instance (log wider : UncertaintyLog) : Decidable (log.Narrows wider) :=
  inferInstanceAs (Decidable (∀ f ∈ wider.entries, ∃ e ∈ log.entries, e.Inside f))

theorem splitBy_split (log : UncertaintyLog) (ts : List Trajectory) :
    SplitBy log.admits (log.split ts).1 (log.split ts).2 ts :=
  splitBy_partition log.admits ts

/-- A narrowing log admits no trajectory that the wider one rejects. Both split a list of
trajectories without losing, repeating or moving any; what the narrowing log admits of it is a
sublist of what the wider one admits, and what the wider one rejects of what the other rejects. -/
theorem split_antitone {log wider : UncertaintyLog} (h : log.Narrows wider) :
    (∀ t, log.admits t = true → wider.admits t = true) ∧
    ∀ ts, SplitBy log.admits (log.split ts).1 (log.split ts).2 ts ∧
      SplitBy wider.admits (wider.split ts).1 (wider.split ts).2 ts ∧
      (log.split ts).1.Sublist (wider.split ts).1 ∧ (wider.split ts).1.Sublist ts ∧
      (wider.split ts).2.Sublist (log.split ts).2 := by
  have hadmits : ∀ t, log.admits t = true → wider.admits t = true := fun t => admits_of_inside h
  refine ⟨hadmits, fun ts => ?_⟩
  have hlog := log.splitBy_split ts
  have hwider := wider.splitBy_split ts
  obtain ⟨hadmitted, hrejected⟩ := hlog.sublist hwider hadmits
  exact ⟨hlog, hwider, hadmitted, hwider.interleaves.sublist_left, hrejected⟩

/-- Boxes at two times. -/
def looseLog : UncertaintyLog :=
  ⟨[⟨⟨[⟨0, 1⟩, ⟨0, 1⟩]⟩, 0⟩, ⟨⟨[⟨0.4, 0.6⟩, ⟨0.4, 0.6⟩]⟩, 2⟩], rfl⟩

/-- Smaller boxes at these times, and one at a time between them. -/
def tightLog : UncertaintyLog :=
  ⟨[⟨⟨[⟨0, 0.5⟩, ⟨0.5, 1⟩]⟩, 0⟩, ⟨⟨[⟨0, 1⟩, ⟨0, 1⟩]⟩, 1⟩, ⟨⟨[⟨0.4, 0.6⟩, ⟨0.5, 0.5⟩]⟩, 2⟩], rfl⟩

/-- Trajectories that agree with both logs, with the wider one only, end early, lose a coordinate
and come to a NaN. -/
def candidates : List Trajectory :=
  [.complete [⟨[0.5, 0.5]⟩, ⟨[1, 0]⟩, ⟨[0.6, 0.5]⟩],
    .complete [⟨[0.5, 0.5]⟩, ⟨[9, 9]⟩, ⟨[0.4, 0.5]⟩], ⟨[⟨[0.5, 0.5]⟩], 3⟩,
    .complete [⟨[0.5, 0.5]⟩, ⟨[1, 0]⟩, ⟨[0.5]⟩],
    .complete [⟨[0.5, 0.5]⟩, ⟨[1, 0]⟩, ⟨[0.5, 0 / 0]⟩]]

theorem split_candidates :
    tightLog.Narrows looseLog ∧ (tightLog.split candidates).1.length = 1 ∧
      (looseLog.split candidates).1.length = 2 ∧
      (tightLog.split candidates).1.Sublist (looseLog.split candidates).1 ∧
      (looseLog.split candidates).2.Sublist (tightLog.split candidates).2 := by
  have hnarrows : tightLog.Narrows looseLog := by decide +kernel
  obtain ⟨-, -, hadmitted, -, hrejected⟩ := (split_antitone hnarrows).2 candidates
  exact ⟨hnarrows, by decide +kernel, by decide +kernel, hadmitted, hrejected⟩

end UncertaintyLog

end TrajectorySafety
