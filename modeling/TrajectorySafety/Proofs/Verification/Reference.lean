import TrajectorySafety.Proofs.Log.Recording
import TrajectorySafety.Proofs.Number.Arithmetic
import TrajectorySafety.Proofs.Verification.Agreement
import TrajectorySafety.Proofs.Verification.Reuse

/-!
A log never contradicts the trajectory that it was recorded from.

A box around a state contains it, although both ends are rounded: the lower end never lies above the
coordinate and the upper end never below (`Interval.contains_of_around`). So the reference
trajectory agrees with its own log (`admits_of_record`), and where it violates a constraint at a
logged time, the entry is flagged and every run over the log ends with it.
-/

namespace TrajectorySafety

open TrajectorySafety.Random

/-! ## Boxes around states -/

/-- The interval around a number contains it. Only a finite number has one. -/
theorem Interval.contains_of_around {center halfWidth : Float} {i : Interval}
    (h : around center halfWidth = .ok i) : i.contains center = true := by
  unfold around at h
  split at h
  · cases h
  next hnegative =>
    obtain ⟨rfl, hlo, -, -⟩ := (make_eq_ok_iff _ _ _).1 h
    obtain ⟨hcenter, hwidth⟩ := Number.isFinite_of_sub hlo
    have hnonneg : 0 ≤ halfWidth :=
      Number.le_of_not_lt (by decide) (Number.isNaN_of_isFinite hwidth) hnegative
    rw [contains_iff]
    exact ⟨Number.sub_le hcenter hwidth hnonneg, Number.le_add hcenter hwidth hnonneg⟩

namespace LogRecorder

variable {r : LogRecorder}

theorem contains_of_boxAround {k : Nat} {values : List Float} {is : List Interval}
    (h : r.boxAround k values = .ok is) {j : Nat} {i : Interval} {x : Float}
    (hi : is[j]? = some i) (hx : values[j]? = some x) : i.contains x = true := by
  induction values generalizing k is j with
  | nil => cases hx
  | cons v rest ih =>
    rw [boxAround, bind_eq_ok_iff] at h
    obtain ⟨around, haround, h⟩ := h
    obtain ⟨others, hothers, h⟩ := bind_eq_ok_iff.1 h
    cases h
    cases j with
    | zero =>
      cases hi
      cases hx
      exact Interval.contains_of_around haround
    | succ j => exact ih hothers hi hx

/-- The box of an observation contains the state. -/
theorem contains_of_observe {time : Nat} {s : State} {e : LogEntry}
    (h : r.observe time s = .ok e) : e.region.contains s = true := by
  have hdimension := (observe_eq_ok h).2.1
  obtain ⟨is, his, h⟩ := bind_eq_ok_iff.1 h
  cases h
  rw [Box.contains_iff]
  exact ⟨hdimension.symm, fun k i x hi hx => contains_of_boxAround his hi hx⟩

/-- A trajectory agrees with its own log. -/
theorem admits_of_record {t : Trajectory} {g : Generator} {log : UncertaintyLog}
    (h : (r.record t g).1 = .ok log) : log.admits t = true := by
  rw [UncertaintyLog.admits_iff]
  intro entry he
  obtain ⟨s, hs, hobserve⟩ := observed_of_record h entry he
  exact ⟨s, hs, contains_of_observe hobserve⟩

end LogRecorder

/-! ## Violations of the reference -/

theorem mem_unsafeEntries {cs : List Constraint} {log : UncertaintyLog} {entry : LogEntry} :
    entry ∈ (auditLog cs log).unsafeEntries ↔
      entry ∈ log.entries ∧ checkEntry cs entry ≠ none := by
  rw [auditLog, scan_eq, List.mem_filter, isEntrySafe, Bool.not_eq_true',
    Option.isNone_eq_false_iff, Option.isSome_iff_ne_none]

/-- A log never contradicts the trajectory that it was recorded from, whatever was drawn, whatever
the half-width and whatever is rounded. The trajectory agrees with the log, and every logged time is
one of its own. A constraint that it violates at a logged time flags the entry there. An engine that
accepts the log with a usable bound then reports a violation of the log and samples nothing. -/
theorem record_keeps_reference {r : LogRecorder} {t : Trajectory} {g : Generator}
    {log : UncertaintyLog} (hrecord : (r.record t g).1 = .ok log) :
    log.admits t = true ∧
    (∀ entry ∈ log.entries, ∃ s, t.at? entry.time = some s) ∧
    ∀ (cs : List Constraint) (position : Nat) (entry : LogEntry) (k : Nat) (x : Float),
      log.entries[position]? = some entry → ViolatedAt cs t entry.time k x →
      entry ∈ (auditLog cs log).unsafeEntries ∧
      ∀ (μ : Type) (config : Config) (model : StepModel μ) (e : Engine μ),
        Engine.make config model cs log = .ok e → config.bound.Usable →
        ∀ s, e.Reachable s → ∀ signals, ∃ report index v,
          (e.run signals s).result = .ok report ∧ e.Unsampled report ∧
          report.verdict = .violated v (.logEntry index) ∧ index ≤ position := by
  have hadmits := LogRecorder.admits_of_record hrecord
  refine ⟨hadmits, ?_, ?_⟩
  · intro entry he
    obtain ⟨s, hs, -⟩ := LogRecorder.observed_of_record hrecord entry he
    exact ⟨s, hs⟩
  · intro cs position entry k x hposition hviolated
    have he := List.mem_of_getElem? hposition
    have hflagged := flagged_of_violatedAt hadmits he hviolated
    refine ⟨mem_unsafeEntries.2 ⟨he, hflagged⟩, ?_⟩
    intro μ config model e hmake hbound s hs signals
    obtain ⟨rfl, -, rfl, rfl, hb, -⟩ := Engine.make_eq_ok hmake
    exact Engine.run_of_flagged_entry (hb ▸ hbound) hs signals hposition hflagged

/-- A trajectory that leaves the safe set in its second state. -/
def leaving : Trajectory := .complete [⟨[0.1]⟩, ⟨[1.3]⟩]

/-- Of a half-width of 0.2 around 0.1 and 1.3 both ends are rounded. -/
theorem record_keeps_leaving :
    ∃ log e report index v,
      ((LogRecorder.mk 100 (.uniform 0.2)).record leaving (.ofSeed 3)).1 = .ok log ∧
      log.admits leaving = true ∧
      Engine.make (Engine.walkConfig 1) (.affine Engine.walk) [⟨0, .ge, 1.25⟩] log = .ok e ∧
      (e.run (fun _ => {}) { memory := () }).result = .ok report ∧
      report.verdict = .violated v (.logEntry index) ∧ index ≤ 1 := by
  obtain ⟨log, hrecord, hlog⟩ : ∃ log,
      ((LogRecorder.mk 100 (.uniform 0.2)).record leaving (.ofSeed 3)).1 = .ok log ∧
        (log.entries[1]?.any (·.time == 1) && log.dimension == 1 && decide (log.maxTime < 4)) =
          true := exists_ok_of_any (by decide +kernel)
  simp only [Bool.and_eq_true, beq_iff_eq, decide_eq_true_eq, Option.any_eq_true] at hlog
  obtain ⟨⟨⟨entry, hentry, htime⟩, hdimension⟩, hmax⟩ := hlog
  have hcs : validateConstraints [⟨0, .ge, 1.25⟩] log.dimension = .ok () :=
    (validateConstraints_eq_ok_iff _ _).2 ⟨by simp, by simp [hdimension]; decide⟩
  obtain ⟨e, hmake⟩ : ∃ e, Engine.make (Engine.walkConfig 1) (.affine Engine.walk)
      [⟨0, .ge, 1.25⟩] log = .ok e :=
    ⟨_, Engine.make_ok (fun d hd => (Option.some.inj hd).symm.trans hdimension.symm) hcs hmax
      (by decide)⟩
  have hviolated : ViolatedAt [⟨0, .ge, 1.25⟩] leaving entry.time 0 1.3 := by
    rw [htime]
    exact ⟨⟨[1.3]⟩, ⟨0, .ge, 1.25⟩, rfl, rfl, rfl, by decide⟩
  obtain ⟨hadmits, -, hviolations⟩ := record_keeps_reference hrecord
  obtain ⟨-, hruns⟩ := hviolations _ 1 entry 0 1.3 hentry hviolated
  obtain ⟨report, index, v, hrun, -, hverdict, hindex⟩ := hruns Unit _ _ e hmake
    ⟨by decide, by decide, by decide, by decide⟩ _ (.fresh () false) (fun _ => {})
  exact ⟨log, e, report, index, v, hrecord, hadmits, hmake, hrun, hverdict, hindex⟩

end TrajectorySafety
