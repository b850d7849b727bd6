import TrajectorySafety.Proofs.Verification.Setup

/-!
An unsafe verdict carries the first genuine witness.

The witness is either the first flagged entry of the log, and then nothing was sampled
(`LogWitness`), or the earliest violation of the first violating trajectory that was sampled, and
then nothing before it was flagged or violated (`SampleWitness`). The verdict, the counts and the
kept trajectories come from separate scans; `witness_of_unsafe_verdict` says that they agree.
-/

namespace TrajectorySafety

/-- The evidence behind an unsafe verdict from the log: the first flagged entry, the first
constraint that flags it, and no samples. -/
structure LogWitness (cs : List Constraint) (log : UncertaintyLog) (index : Nat) (v : Violation)
    (r : Report) : Prop where
  first : FirstAt (checkEntry cs) log.entries index v
  violation_eq : ∃ (entry : LogEntry) (k : Nat) (c : Constraint) (i : Interval),
    log.entries[index]? = some entry ∧ cs[k]? = some c ∧
    entry.region.interval? c.coordinate = some i ∧
    c.op.holds (if c.op.usesUpper then i.hi else i.lo) c.threshold = true ∧
    v = ⟨entry.time, c, .interval i.lo i.hi⟩ ∧
    ∀ j < k, ∀ c' : Constraint, cs[j]? = some c' → ¬ c'.Flags entry
  no_samples : r.total = 0 ∧ r.valid = 0 ∧ r.batches = 0 ∧ r.diverged = 0
  no_examples : r.safeTrajectories = [] ∧ r.unsafeTrajectories = []

/-- The evidence behind an unsafe verdict from the last batch, by the batches before it: nothing is
flagged in the log or violated in an earlier batch, and the violation is the earliest one of the
first violating trajectory, which is kept. -/
structure SampleWitness (cs : List Constraint) (log : UncertaintyLog) (earlier : List Batch)
    (last : Batch) (index : Nat) (v : Violation) (r : Report) : Prop where
  log_unflagged : ∀ entry ∈ log.entries, checkEntry cs entry = none
  batches_eq : r.batches = earlier.length + 1
  earlier_safe : ∀ b ∈ earlier, ∀ t ∈ b.trajectories, log.admits t = true →
    ∀ time k x, ¬ ViolatedAt cs t time k x
  before_safe : ∀ j < index, ∀ t, (last.trajectories.filter log.admits)[j]? = some t →
    ∀ time k x, ¬ ViolatedAt cs t time k x
  violating : ∃ t, (last.trajectories.filter log.admits)[index]? = some t ∧ Earliest cs t v ∧
    r.unsafeTrajectories.head? = some t
  valid_eq : r.valid = (earlier.flatMap Batch.trajectories).countP log.admits

namespace Engine

variable {μ : Type}

theorem logWitness_of_first {e : Engine μ} {required index : Nat} {v : Violation}
    (h : (auditLog e.constraints e.log).first = some (index, v)) :
    LogWitness e.constraints e.log index v (e.report required (auditLog e.constraints e.log) {}
      (.violated v (.logEntry index))) := by
  have hfirst := (auditLog_first_eq_some_iff _ _ _ _).1 h
  obtain ⟨⟨entry, hentry, hcheck⟩, -⟩ := id hfirst
  obtain ⟨k, c, i, hc, hi, hh, hv, hbefore⟩ := (checkEntry_list_eq_some_iff _ _ _).1 hcheck
  exact {
    first := hfirst
    violation_eq := ⟨entry, k, c, i, hentry, hc, hi, hh, hv, hbefore⟩
    no_samples := ⟨rfl, rfl, rfl, rfl⟩
    no_examples := ⟨rfl, rfl⟩ }

/-- The first of the kept violating trajectories is the witness, even if none were to be kept. -/
theorem head?_unsafeTrajectories_violating {e : Engine μ} {t : Tally} {b : Batch} {index : Nat}
    {v : Violation} (h : FirstAt (firstViolation e.constraints) (e.validOf b) index v) :
    (e.violating t b).unsafeTrajectories.head? = (e.validOf b)[index]? := by
  have htake : (e.violating t b).unsafeTrajectories =
      (splitTrajectories e.constraints (e.validOf b)).2.take (max e.sampling.retain 1) := rfl
  rw [htake, List.head?_take, if_neg (by omega), head?_unsafe h]

theorem sampleWitness_of_found {e : Engine μ} (required : Nat) {index : Nat} {v : Violation}
    {earlier : List Batch} {last : Batch}
    (hfirst : (auditLog e.constraints e.log).first = none) (clean : ∀ b ∈ earlier, e.Clean b)
    (hfound : firstUnsafe e.constraints (e.validOf last) = some (index, v)) :
    SampleWitness e.constraints e.log earlier last index v
      (e.report required (auditLog e.constraints e.log) (e.violating (e.tallyAfter earlier) last)
        (.violated v (.trajectory earlier.length index))) := by
  obtain ⟨i, hi, hat⟩ := (firstFinding_eq_some_iff _ _ _ _ _).1 hfound
  obtain rfl : index = i := by omega
  have hhead := head?_unsafeTrajectories_violating (t := e.tallyAfter earlier) hat
  obtain ⟨⟨t, ht, hviolation⟩, hbefore⟩ := hat
  exact {
    log_unflagged := (auditLog_first_eq_none_iff _ _).1 hfirst
    batches_eq := congrArg (· + 1) (e.batches_tallyAfter earlier)
    earlier_safe := fun b hb t ht ha =>
      (firstViolation_eq_none_iff _ _).1 (clean b hb t ht ha)
    before_safe := fun j hj t ht => (firstViolation_eq_none_iff _ _).1 (hbefore j hj t ht)
    violating := ⟨t, ht, (firstViolation_eq_some_iff _ _ _).1 hviolation, hhead.trans ht⟩
    valid_eq := e.valid_tallyAfter earlier }

/-- An unsafe verdict carries the first genuine witness, whatever the engine, its model and what
comes from outside. -/
theorem witness_of_unsafe_verdict {e : Engine μ} {signals : Nat → Signals} {s : Status μ}
    {r : Report} {v : Violation} {source : WitnessSource}
    (hrun : (e.run signals s).result = .ok r) (hverdict : r.verdict = .violated v source) :
    match source with
    | .logEntry index => LogWitness e.constraints e.log index v r
    | .trajectory batch index => ∃ earlier last, e.batches signals s = earlier ++ [last] ∧
        batch = earlier.length ∧ SampleWitness e.constraints e.log earlier last index v r := by
  obtain ⟨required, -, hreported⟩ := run_reported hrun
  generalize e.batches signals s = bs at hreported
  cases hreported with
  | safe => cases hverdict
  | stopped => cases hverdict
  | flagged index v hfirst =>
    cases hverdict
    exact logWitness_of_first hfirst
  | found earlier last index v hfirst hist clean hfound =>
    cases hverdict
    exact ⟨earlier, last, rfl, rfl, sampleWitness_of_found required hfirst clean hfound⟩

theorem walk_witnesses :
    (∃ v r, ((walkEngine 18 1.25).run (fun _ => {}) { memory := () }).result = .ok r ∧
      r.verdict = .violated v (.trajectory 1 1) ∧ ∃ earlier last,
        (walkEngine 18 1.25).batches (fun _ => {}) { memory := () } = earlier ++ [last] ∧
          1 = earlier.length ∧ SampleWitness [⟨0, .ge, 1.25⟩] walkLog earlier last 1 v r) ∧
    ∃ v r, ((walkEngine 18 0.75).run (fun _ => {}) { memory := () }).result = .ok r ∧
      r.verdict = .violated v (.logEntry 0) ∧ LogWitness [⟨0, .ge, 0.75⟩] walkLog 0 v r := by
  constructor
  · obtain ⟨r, hrun, hfrom⟩ : ∃ r,
        ((walkEngine 18 1.25).run (fun _ => {}) { memory := () }).result = .ok r ∧
          r.verdict.isFrom (.trajectory 1 1) = true := exists_ok_of_any (by decide +kernel)
    obtain ⟨v, hv⟩ := Verdict.eq_violated_of_isFrom hfrom
    exact ⟨v, r, hrun, hv, witness_of_unsafe_verdict hrun hv⟩
  · obtain ⟨r, hrun, hfrom⟩ : ∃ r,
        ((walkEngine 18 0.75).run (fun _ => {}) { memory := () }).result = .ok r ∧
          r.verdict.isFrom (.logEntry 0) = true := exists_ok_of_any (by decide +kernel)
    obtain ⟨v, hv⟩ := Verdict.eq_violated_of_isFrom hfrom
    exact ⟨v, r, hrun, hv, witness_of_unsafe_verdict hrun hv⟩

end Engine

end TrajectorySafety
