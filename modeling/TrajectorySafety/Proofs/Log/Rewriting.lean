import TrajectorySafety.Proofs.Log.RoundTrip
import TrajectorySafety.Proofs.Number.Value

/-!
A log that was written and read is written again as before.

Reading what was written of a log moves every bound to the double nearest to its written decimal and
changes nothing else (`LogEntry.ReadBack`). The moved bounds are written by the same decimals, so
the log that is read has the text of the log that was written (`UncertaintyLog.text_of_reread`), and
from then on writing and reading give the same text and the same log.
-/

namespace TrajectorySafety

open Number (fixed_reread readBack_reread)

/-- What is read back of an interval: the bounds are read back, and they are still in order. -/
structure Interval.ReadBack (i j : Interval) : Prop where
  lo : Number.ReadBack boundPlaces i.lo j.lo
  hi : Number.ReadBack boundPlaces i.hi j.hi
  valid : j.Valid

/-- What is read back of an entry: its time and its intervals, one by one. -/
structure LogEntry.ReadBack (e f : LogEntry) : Prop where
  time : f.time = e.time
  intervals : List.Forall₂ Interval.ReadBack e.region.intervals f.region.intervals

theorem Interval.readBack_reread {i : Interval} (h : i.Valid) : i.ReadBack i.reread :=
  ⟨Number.readBack_reread (by decide) h.1, Number.readBack_reread (by decide) h.2.1, valid_reread h⟩

theorem LogEntry.readBack_reread {e : LogEntry} (h : ∀ i ∈ e.region.intervals, i.Valid) :
    e.ReadBack e.reread := by
  refine ⟨rfl, ?_⟩
  show List.Forall₂ Interval.ReadBack _ (e.region.intervals.map Interval.reread)
  rw [List.forall₂_map_right_iff, List.forall₂_same]
  exact fun i hi => Interval.readBack_reread (h i hi)

theorem Interval.line_reread {i : Interval} (h : i.Valid) : i.reread.line = i.line := by
  simp only [line, reread, fixed_reread _ h.1, fixed_reread _ h.2.1]

theorem LogEntry.line_reread {e : LogEntry} (h : ∀ i ∈ e.region.intervals, i.Valid) :
    e.reread.line = e.line := by
  have hlines : (e.region.intervals.map Interval.reread).map Interval.line =
      e.region.intervals.map Interval.line := by
    rw [List.map_map]
    exact List.map_congr_left fun i hi => Interval.line_reread (h i hi)
  simp only [line, reread, hlines]

namespace UncertaintyLog

/-- A log that was read back has the text of the log that was written. -/
theorem text_of_reread {log read : UncertaintyLog}
    (hvalid : ∀ e ∈ log.entries, ∀ i ∈ e.region.intervals, i.Valid)
    (h : read.entries = log.entries.map LogEntry.reread) : read.text = log.text := by
  unfold text
  rw [h, List.map_map]
  exact congrArg String.join (List.map_congr_left fun e he => LogEntry.line_reread (hvalid e he))

/-- Reading what was written of a log of proper intervals gives one log, whether or not its
dimension is asked for. It has the times and the dimension of the log that was written, its bounds
are those that are read back from the written decimals, and it is written as before; so reading that
text again changes nothing any more. Times are words. -/
theorem parse_text_settles {log : UncertaintyLog}
    (hvalid : ∀ e ∈ log.entries, ∀ i ∈ e.region.intervals, i.Valid)
    (htime : ∀ e ∈ log.entries, e.time ≤ Number.wordLimit) :
    ∃ read, parse log.text (some log.dimension) = .ok read ∧ parse log.text none = .ok read ∧
      read.length = log.length ∧
      read.entries.map LogEntry.time = log.entries.map LogEntry.time ∧
      read.dimension = log.dimension ∧
      List.Forall₂ LogEntry.ReadBack log.entries read.entries ∧
      read.text = log.text ∧
      parse read.text (some read.dimension) = .ok read ∧ parse read.text none = .ok read := by
  have hsome : ∀ d, some log.dimension = some d → d = log.dimension :=
    fun d hd => (Option.some.inj hd).symm
  have hnone : ∀ d, none = some d → d = log.dimension := fun d hd => by cases hd
  obtain ⟨read, hread, hentries⟩ := parse_text hvalid htime hsome
  obtain ⟨read', hread', hentries'⟩ := parse_text hvalid htime hnone
  obtain rfl : read' = read := ext_entries (hentries'.trans hentries.symm)
  obtain ⟨hdim, -⟩ := shape_of_reread hentries
  have htext := text_of_reread hvalid hentries
  refine ⟨read', hread, hread', ?_, ?_, hdim, ?_, htext, ?_, ?_⟩
  · rw [length, hentries, List.length_map]
    rfl
  · rw [hentries, List.map_map]
    rfl
  · rw [hentries, List.forall₂_map_right_iff, List.forall₂_same]
    exact fun e he => LogEntry.readBack_reread (hvalid e he)
  · rw [htext, hdim, hread]
  · rw [htext, hread']

/-- Bounds that are moved when they are written: one that is written as a negative zero, one between
two decimals of six places, one so large that neighbouring doubles are further apart than the
decimals, and the largest. -/
def roughLog : UncertaintyLog :=
  ⟨[⟨⟨[⟨-0.0000004, 0.1234565⟩, ⟨8589934592.1, 1.7976931348623157e308⟩]⟩, 0⟩,
    ⟨⟨[⟨0, 0⟩, ⟨-1.7976931348623157e308, 1⟩]⟩, 18446744073709551615⟩], rfl⟩

theorem parse_roughLog :
    (∀ e ∈ roughLog.entries, ∀ i ∈ e.region.intervals, i.Valid) ∧
      ∃ read, parse roughLog.text (some 2) = .ok read ∧ parse roughLog.text none = .ok read ∧
        List.Forall₂ LogEntry.ReadBack roughLog.entries read.entries ∧
        read.text = roughLog.text := by
  have hvalid : ∀ e ∈ roughLog.entries, ∀ i ∈ e.region.intervals, i.Valid := by decide +kernel
  obtain ⟨read, hsome, hnone, -, -, -, hback, htext, -⟩ :=
    parse_text_settles hvalid (by decide +kernel)
  exact ⟨hvalid, read, hsome, hnone, hback, htext⟩

end UncertaintyLog

end TrajectorySafety
