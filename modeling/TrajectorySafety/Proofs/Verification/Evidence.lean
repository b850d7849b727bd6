import TrajectorySafety.Proofs.Verification.Accounting

/-!
Asking for more evidence never hides a violation.

Two runs of a steady model that differ in the bound draw the same batches, and the number of samples
that is needed enters a decision by one test only: whether there are enough valid trajectories. So
after `k` batches the run that needs fewer is safe, or both decide the same (`decision_of_le`), and
the first decision of the run that needs more is that of the other one unless the latter is safe
(`first_of_le`). What a run has counted when it is safe is the start of what any longer run counts
(`tallyAt_before`), and so are the counts in the reports.
-/

namespace TrajectorySafety

/-- The counts of a run and those of a later point of it: counts only grow, and examples are added
at the end. -/
structure Tally.Before (t t' : Tally) : Prop where
  batches_le : t.batches ≤ t'.batches
  total_le : t.total ≤ t'.total
  valid_le : t.valid ≤ t'.valid
  safeTrajectories_prefix : t.safeTrajectories.toList <+: t'.safeTrajectories.toList

namespace Engine

variable {μ : Type}

/-- The same engine with another bound. -/
def bounded (e : Engine μ) (b : BoundConfig) : Engine μ := { e with bound := b }

/-- The number of samples is all of the bound that a decision depends on. -/
theorem decision_bounded (e : Engine μ) (b : BoundConfig) (memory : μ) (required k : Nat)
    (found : Signals) :
    (e.bounded b).decision memory required k found = e.decision memory required k found := rfl

section
variable {e : Engine μ} {memory : μ} {required more k k' : Nat}

/-! ## Decisions -/

/-- Where fewer samples are needed, the run is safe, or both decide the same. -/
theorem decision_of_le (h : required ≤ more) (memory : μ) (k : Nat) (found : Signals) :
    e.decision memory required k found = some (.ok (.safe, e.tallyAt memory k)) ∨
      e.decision memory more k found = e.decision memory required k found := by
  by_cases enough : required ≤ (e.tallyAt memory k).valid
  · exact .inl (decision_of_decided (.safe enough))
  · have hshort : ¬ more ≤ (e.tallyAt memory k).valid := by omega
    right
    unfold decision
    simp only [enough, hshort, if_false]

/-- Where nothing is decided with fewer samples needed, nothing is decided with more. -/
theorem undecided_of_le (h : required ≤ more) {found : Signals}
    (hnone : e.decision memory required k found = none) :
    e.decision memory more k found = none := by
  obtain hsafe | heq := decision_of_le h memory k found
  · rw [hnone] at hsafe
    cases hsafe
  · rw [heq, hnone]

/-- The first decision with more samples needed is the first one with fewer, unless that one is
safe; then it comes no earlier. -/
theorem first_of_le (h : required ≤ more) {d d' : Except Error (Verdict × Tally)}
    (hd : e.decision memory required k {} = some d ∧
      ∀ j < k, e.decision memory required j {} = none)
    (hd' : e.decision memory more k' {} = some d' ∧ ∀ j < k', e.decision memory more j {} = none) :
    k ≤ k' ∧ (d = .ok (.safe, e.tallyAt memory k) ∨ (k' = k ∧ d' = d)) := by
  have hle : k ≤ k' := by
    by_contra hlt
    have hnone := undecided_of_le h (hd.2 k' (by omega))
    rw [hd'.1] at hnone
    cases hnone
  refine ⟨hle, ?_⟩
  obtain hsafe | heq := decision_of_le h memory k {}
  · exact .inl (Option.some.inj (hd.1.symm.trans hsafe))
  · have hge : k' ≤ k := by
      by_contra hlt
      have hnone := hd'.2 k (by omega)
      rw [heq, hd.1] at hnone
      cases hnone
    obtain rfl : k' = k := by omega
    exact .inr ⟨rfl, Option.some.inj (hd'.1.symm.trans (heq.trans hd.1))⟩

/-! ## Counts -/

theorem firstBatches_prefix (e : Engine μ) (memory : μ) (h : k ≤ k') :
    e.firstBatches memory k <+: e.firstBatches memory k' := by
  have hrange : List.range k <+: List.range k' := by
    have htake := List.take_prefix k (List.range k')
    rwa [List.take_range, Nat.min_eq_left h] at htake
  exact hrange.filterMap _

theorem tallyAfter_before {bs bs' : List Batch} (h : bs <+: bs') :
    (e.tallyAfter bs).Before (e.tallyAfter bs') := by
  obtain ⟨later, rfl⟩ := h
  refine ⟨?_, ?_, ?_, ?_⟩
  · rw [batches_tallyAfter, batches_tallyAfter, List.length_append]
    exact Nat.le_add_right _ _
  · have hmul := Nat.mul_le_mul_right e.sampling.batchSize
      (Nat.le_add_right bs.length later.length)
    rw [total_tallyAfter, total_tallyAfter, List.length_append]
    omega
  · rw [valid_tallyAfter, valid_tallyAfter, List.flatMap_append, List.countP_append]
    exact Nat.le_add_right _ _
  · rw [safeTrajectories_tallyAfter, safeTrajectories_tallyAfter, List.flatMap_append]
    exact (List.prefix_append _ _).take _

theorem tallyAt_before (e : Engine μ) (memory : μ) (h : k ≤ k') :
    (e.tallyAt memory k).Before (e.tallyAt memory k') :=
  tallyAfter_before (e.firstBatches_prefix memory h)

/-- A safe verdict comes with the counts after the batches that it took. -/
theorem Decided.tally_of_safe {found : Signals} {t : Tally}
    (h : e.Decided memory required k found (.ok (.safe, t))) : t = e.tallyAt memory k := by
  cases h with
  | safe enough => rfl

end

/-! ## Runs -/

/-- Two engines over a log without flags, with the same steady model, that differ in the bound only.
If the run that needs fewer samples ends with a violation or inconclusive, the other run ends with
the same report, but for the bound. If the run that needs more samples is safe, so is the other one,
and its counts and examples are those that the longer run started with. -/
theorem run_of_more_evidence {e : Engine μ} {b : BoundConfig} {required more : Nat}
    (hrequired : e.bound.strategy.rule e.bound.budget e.bound.confidence = .ok required)
    (hmore : b.strategy.rule b.budget b.confidence = .ok more) (hle : required ≤ more)
    (hsteady : e.model.Steady)
    (hlog : ∀ entry ∈ e.log.entries, checkEntry e.constraints entry = none)
    {s s' : Status μ} (hs : e.Reachable s) (hs' : (e.bounded b).Reachable s')
    {signals signals' : Nat → Signals} (hquiet : e.Undisturbed signals s)
    (hquiet' : (e.bounded b).Undisturbed signals' s') :
    (∀ r, (e.run signals s).result = .ok r → r.verdict ≠ .safe →
      ((e.bounded b).run signals' s').result =
        .ok { r with strategy := b.strategy.name, required := more }) ∧
    ∀ r', ((e.bounded b).run signals' s').result = .ok r' → r'.verdict = .safe →
      ∃ r, (e.run signals s).result = .ok r ∧ r.verdict = .safe ∧ r.batches ≤ r'.batches ∧
        r.total ≤ r'.total ∧ r.valid ≤ r'.valid ∧
        r.safeTrajectories <+: r'.safeTrajectories := by
  have hfirst := (auditLog_first_eq_none_iff _ _).2 hlog
  have hanswer : e.answer s = .ok required := (answer_of_reachable hs).1.trans hrequired
  have hanswer' : (e.bounded b).answer s' = .ok more := (answer_of_reachable hs').1.trans hmore
  obtain ⟨k, d, hd, hresult⟩ := run_firstDecision hsteady s.memory signals hanswer hfirst
  obtain ⟨k', d', hd', hresult'⟩ :=
    run_firstDecision (e := e.bounded b) hsteady s.memory signals' hanswer' hfirst
  have hdecided' := hd'.quiet hquiet'
  simp only [decision_bounded] at hdecided'
  obtain ⟨hk, hsafe | ⟨rfl, rfl⟩⟩ := first_of_le hle (hd.quiet hquiet) hdecided'
  · -- the run that needs fewer samples is safe after `k` batches
    subst hsafe
    constructor
    · intro r hr hne
      rw [hresult] at hr
      cases hr
      exact absurd rfl hne
    · intro r' hr' hverdict
      rw [hresult'] at hr'
      obtain ⟨verdict, t, rfl, rfl⟩ := resultOf_eq_ok hr'
      obtain rfl : verdict = .safe := hverdict
      obtain rfl := (decided_of_decision hdecided'.1).tally_of_safe
      have hbefore := e.tallyAt_before s.memory hk
      exact ⟨_, hresult, rfl, hbefore.batches_le, hbefore.total_le, hbefore.valid_le,
        hbefore.safeTrajectories_prefix⟩
  · constructor
    · intro r hr _
      rw [hresult] at hr
      obtain ⟨verdict, t, rfl, rfl⟩ := resultOf_eq_ok hr
      exact hresult'
    · intro r' hr' hverdict
      rw [hresult'] at hr'
      obtain ⟨verdict, t, rfl, rfl⟩ := resultOf_eq_ok hr'
      exact ⟨_, hresult, hverdict, Nat.le_refl _, Nat.le_refl _, Nat.le_refl _, List.prefix_rfl⟩

/-- A walk that leaves its range in the second batch is caught there with fifteen samples to go as
it is with six; and one that is safe after nine samples was safe after six. -/
theorem walk_with_more_evidence :
    (∃ r, ((walkEngine 18 1.25).run (fun _ => {}) { memory := () }).result = .ok r ∧
      r.verdict.isFrom (.trajectory 1 1) = true ∧ r.required = 6 ∧
      (((walkEngine 18 1.25).bounded { budget := 64, confidence := 0.75 }).run (fun _ => {})
        { memory := () }).result = .ok { r with strategy := "jeffreys", required := 15 }) ∧
    ∃ r r', ((walkEngine 1 1.25).run (fun _ => {}) { memory := () }).result = .ok r ∧
      (((walkEngine 1 1.25).bounded { budget := 512, confidence := 0.5 }).run (fun _ => {})
        { memory := () }).result = .ok r' ∧
      r.verdict = .safe ∧ r'.verdict = .safe ∧ r'.required = 9 ∧ r'.total = 14 ∧
      r.total ≤ r'.total ∧ r.valid ≤ r'.valid ∧ r.safeTrajectories <+: r'.safeTrajectories := by
  have hrule : ∀ seed, (walkEngine seed 1.25).bound.strategy.rule
      (walkEngine seed 1.25).bound.budget (walkEngine seed 1.25).bound.confidence = .ok 6 := by
    intro seed
    obtain ⟨k, hk, heq⟩ : ∃ k, SampleRule.jeffreys 64 0.5 = .ok k ∧ (k == 6) = true :=
      exists_ok_of_any (by decide +kernel)
    rw [beq_iff_eq.1 heq] at hk
    exact hk
  have hcancels : (StepModel.affine walk).NeverCancels :=
    ⟨fun _ _ _ => rfl, StepModel.cancels_oneByOne fun _ _ _ => rfl⟩
  have hlog : ∀ entry ∈ walkLog.entries, checkEntry [⟨0, .ge, 1.25⟩] entry = none :=
    (auditLog_first_eq_none_iff _ _).1 (Option.isNone_iff_eq_none.1 (by decide +kernel))
  constructor
  · obtain ⟨more, hmore, hfifteen⟩ : ∃ k, SampleRule.jeffreys 64 0.75 = .ok k ∧ (k == 15) = true :=
      exists_ok_of_any (by decide +kernel)
    obtain rfl := beq_iff_eq.1 hfifteen
    obtain ⟨r, hrun, hr⟩ : ∃ r, ((walkEngine 18 1.25).run (fun _ => {}) { memory := () }).result =
        .ok r ∧ (r.verdict.isFrom (.trajectory 1 1) && r.required == 6) = true :=
      exists_ok_of_any (by decide +kernel)
    rw [Bool.and_eq_true, beq_iff_eq] at hr
    have hne : r.verdict ≠ .safe := by
      intro hsafe
      rw [hsafe] at hr
      cases hr.1
    obtain ⟨hsame, -⟩ := run_of_more_evidence
      (b := { budget := 64, confidence := 0.75 }) (hrule 18) hmore (by decide)
      (StepModel.steady_of_subsingleton _) hlog (.fresh () false) (.fresh () false)
      (undisturbed_of_neverCancels hcancels rfl fun _ => rfl)
      (undisturbed_of_neverCancels hcancels rfl fun _ => rfl)
    exact ⟨r, hrun, hr.1, hr.2, hsame r hrun hne⟩
  · obtain ⟨more, hmore, hnine⟩ : ∃ k, SampleRule.jeffreys 512 0.5 = .ok k ∧ (k == 9) = true :=
      exists_ok_of_any (by decide +kernel)
    obtain rfl := beq_iff_eq.1 hnine
    obtain ⟨r', hrun', hr'⟩ : ∃ r', (((walkEngine 1 1.25).bounded { budget := 512, confidence := 0.5
        }).run (fun _ => {}) { memory := () }).result = .ok r' ∧
        (r'.verdict.isSafe && r'.required == 9 && r'.total == 14) = true :=
      exists_ok_of_any (by decide +kernel)
    simp only [Bool.and_eq_true, beq_iff_eq] at hr'
    have hsafe' := Verdict.eq_safe_of_isSafe hr'.1.1
    obtain ⟨-, hstart⟩ := run_of_more_evidence
      (b := { budget := 512, confidence := 0.5 }) (hrule 1) hmore (by decide)
      (StepModel.steady_of_subsingleton _) hlog (.fresh () false) (.fresh () false)
      (undisturbed_of_neverCancels hcancels rfl fun _ => rfl)
      (undisturbed_of_neverCancels hcancels rfl fun _ => rfl)
    obtain ⟨r, hrun, hsafe, -, htotal, hvalid, hexamples⟩ := hstart r' hrun' hsafe'
    exact ⟨r, r', hrun, hrun', hsafe, hsafe', hr'.1.2, hr'.2, htotal, hvalid, hexamples⟩

end Engine

end TrajectorySafety
