import TrajectorySafety.Proofs.Safety.Exactness
import TrajectorySafety.Proofs.Verification.Witness

/-!
The check of the log and the sampling never contradict each other.

The check of a logged box misses nothing: if some state in the box violates a constraint, then the
box is flagged. Sampled trajectories count only where they lie in the logged boxes, and nothing is
sampled after a box was flagged. So a sampled violation is at a time that the log does not mention
(`time_of_found`), and a log without gaps leaves no room for one. Nothing is asked of the bounds of
the boxes, which may be NaN or in the wrong order.
-/

namespace TrajectorySafety

open TrajectorySafety.Random

/-! ## Flagged boxes -/

/-- A trajectory that agrees with a log and violates something at a logged time has its entry
flagged. -/
theorem flagged_of_violatedAt {cs : List Constraint} {log : UncertaintyLog} {t : Trajectory}
    {entry : LogEntry} {k : Nat} {x : Float} (ha : log.admits t = true)
    (he : entry ∈ log.entries) (hv : ViolatedAt cs t entry.time k x) :
    checkEntry cs entry ≠ none := by
  obtain ⟨s, c, hs, hc, hx⟩ := hv
  obtain ⟨s', hs', hin⟩ := (log.admits_iff t).1 ha entry he
  obtain rfl : s = s' := Option.some.inj (hs.symm.trans hs')
  rw [ne_eq, checkEntry_list_eq_none_iff]
  exact fun hnone => hnone c (List.mem_of_getElem? hc) (Constraint.flags_of_violatedBy hin hx)

/-- Where no entry is flagged, a trajectory that agrees with the log violates nothing at a logged
time. -/
theorem unlogged_of_violatedAt {cs : List Constraint} {log : UncertaintyLog} {t : Trajectory}
    {time k : Nat} {x : Float} (hlog : ∀ entry ∈ log.entries, checkEntry cs entry = none)
    (ha : log.admits t = true) (hv : ViolatedAt cs t time k x) :
    ∀ entry ∈ log.entries, entry.time ≠ time := by
  rintro entry he rfl
  exact flagged_of_violatedAt ha he hv (hlog entry he)

/-! ## Sampled violations -/

namespace Engine

variable {μ : Type}

/-- A sampled violation lies before the horizon and at no time of the log. -/
theorem time_of_found {e : Engine μ} {required index : Nat} {v : Violation} {earlier : List Batch}
    {last : Batch} (hfirst : (auditLog e.constraints e.log).first = none)
    (hist : e.History required (earlier ++ [last])) (clean : ∀ b ∈ earlier, e.Clean b)
    (hfound : firstUnsafe e.constraints (e.validOf last) = some (index, v)) :
    v.time < e.sampling.horizon ∧ ∀ entry ∈ e.log.entries, entry.time ≠ v.time := by
  have hw := sampleWitness_of_found required hfirst clean hfound
  obtain ⟨t, ht, ⟨k, x, -, -, hviolated, -⟩, -⟩ := hw.violating
  obtain ⟨hmem, hadmits⟩ := List.mem_filter.1 (List.mem_of_getElem? ht)
  refine ⟨?_, unlogged_of_violatedAt hw.log_unflagged hadmits hviolated⟩
  have hproduced := produced_of_history e.model.keeps_trivial (fun _ => trivial) hist
    (List.mem_flatMap.2 ⟨last, by simp, hmem⟩)
  obtain ⟨s, c, hs, -, -⟩ := hviolated
  have hlt : v.time < t.length := (List.getElem?_eq_some_iff.1 hs).1
  exact Nat.lt_of_lt_of_le hlt hproduced.length_le

/-- A sampled violation is at a time that the log does not mention, time 0 among them, whatever the
model does. So a run over a log that mentions every time below the horizon ends safe, inconclusive,
or with a violation of the log itself. -/
theorem unlogged_of_sampled_violation {e : Engine μ} {signals : Nat → Signals} {s : Status μ}
    {r : Report} (hrun : (e.run signals s).result = .ok r) :
    (∀ v batch index, r.verdict = .violated v (.trajectory batch index) →
      v.time ≠ 0 ∧ ∀ entry ∈ e.log.entries, entry.time ≠ v.time) ∧
    ((∀ t < e.sampling.horizon, ∃ entry ∈ e.log.entries, entry.time = t) →
      (∃ v index, r.verdict = .violated v (.logEntry index)) ∨ r.verdict = .safe ∨
        ∃ reason, r.verdict = .inconclusive reason) := by
  obtain ⟨required, -, hreported⟩ := run_reported hrun
  generalize e.batches signals s = bs at hreported
  cases hreported with
  | flagged index v hfirst => exact ⟨fun _ _ _ h => (by cases h), fun _ => .inl ⟨v, index, rfl⟩⟩
  | safe => exact ⟨fun _ _ _ h => (by cases h), fun _ => .inr (.inl rfl)⟩
  | stopped _ reason => exact ⟨fun _ _ _ h => (by cases h), fun _ => .inr (.inr ⟨reason, rfl⟩)⟩
  | found earlier last index v hfirst hist clean hfound =>
    obtain ⟨hlt, hunlogged⟩ := time_of_found hfirst hist clean hfound
    constructor
    · rintro v' batch index' h
      cases h
      have hzero := hunlogged _ e.log.first_mem
      rw [e.log.first_time] at hzero
      exact ⟨hzero.symm, hunlogged⟩
    · intro hall
      obtain ⟨entry, he, htime⟩ := hall v.time hlt
      exact absurd htime (hunlogged entry he)

/-- The walk, seen in the unit interval at every time before the horizon. -/
def denseLog : UncertaintyLog :=
  ⟨[⟨⟨[⟨0, 1⟩]⟩, 0⟩, ⟨⟨[⟨0, 1⟩]⟩, 1⟩, ⟨⟨[⟨0, 1⟩]⟩, 2⟩, ⟨⟨[⟨0, 1⟩]⟩, 3⟩], rfl⟩

/-- A sampled violation at a time between those of the log; and a run of the same walk over a log
without gaps, which samples and does not end with a sampled violation. -/
theorem walk_unlogged_violation :
    (∃ v r, ((walkEngine 18 1.25).run (fun _ => {}) { memory := () }).result = .ok r ∧
      r.verdict = .violated v (.trajectory 1 1) ∧ v.time ≠ 0 ∧
      ∀ entry ∈ walkLog.entries, entry.time ≠ v.time) ∧
    ∃ e r, make (walkConfig 18) (.affine walk) [⟨0, .ge, 1.25⟩] denseLog = .ok e ∧
      (∀ t < e.sampling.horizon, ∃ entry ∈ e.log.entries, entry.time = t) ∧
      (e.run (fun _ => {}) { memory := () }).result = .ok r ∧ 0 < r.batches ∧
      ((∃ v index, r.verdict = .violated v (.logEntry index)) ∨ r.verdict = .safe ∨
        ∃ reason, r.verdict = .inconclusive reason) := by
  constructor
  · obtain ⟨r, hrun, hfrom⟩ : ∃ r,
        ((walkEngine 18 1.25).run (fun _ => {}) { memory := () }).result = .ok r ∧
          r.verdict.isFrom (.trajectory 1 1) = true := exists_ok_of_any (by decide +kernel)
    obtain ⟨v, hv⟩ := Verdict.eq_violated_of_isFrom hfrom
    exact ⟨v, r, hrun, hv, (unlogged_of_sampled_violation hrun).1 v 1 1 hv⟩
  · obtain ⟨e, he, hruns⟩ : ∃ e,
        make (walkConfig 18) (.affine walk) [⟨0, .ge, 1.25⟩] denseLog = .ok e ∧
          ((e.run (fun _ => {}) { memory := () }).result.toOption.any fun r =>
            decide (0 < r.batches)) = true := exists_ok_of_any (by decide +kernel)
    obtain ⟨r, hrun, hbatches⟩ := exists_ok_of_any hruns
    obtain ⟨-, -, hlog, -, -, hsampling, -⟩ := make_eq_ok he
    have hdense : ∀ t < e.sampling.horizon, ∃ entry ∈ e.log.entries, entry.time = t := by
      rw [hlog, hsampling]
      show ∀ t < 4, _
      decide
    exact ⟨e, r, he, hdense, hrun, of_decide_eq_true hbatches,
      (unlogged_of_sampled_violation hrun).2 hdense⟩

end Engine

end TrajectorySafety
