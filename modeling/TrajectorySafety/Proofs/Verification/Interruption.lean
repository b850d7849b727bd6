import TrajectorySafety.Proofs.Verification.Decision

/-!
Interrupting a run cuts it between two batches and changes nothing else.

A run of a steady model is compared with a run that is stopped after `n` batches: by the cancel
flag, by the clock, or by a smaller number of attempts (`Engine.StopsAfter`). Up to that point both
take the same decisions, because both draw the same batches. So if the undisturbed run decides
within its first `n` batches, the other one ends with the same report, and otherwise it ends
inconclusive with the counts that the undisturbed run had after `n` batches (`run_of_stopsAfter`).
-/

namespace TrajectorySafety

namespace Engine

variable {μ : Type}

/-! ## Other limits -/

/-- The same engine with other limits on attempts and time. -/
def within (e : Engine μ) (maxAttempts : Nat) (timeoutSeconds : Option Float) : Engine μ :=
  { e with sampling := { e.sampling with maxAttempts, timeoutSeconds } }

/-- Two limits on attempts that allow for the same total after each of the first `n` batches. -/
def SameTotals (e : Engine μ) (n maxAttempts : Nat) : Prop :=
  ∀ j ≤ n, min (j * e.sampling.batchSize) maxAttempts =
    min (j * e.sampling.batchSize) e.sampling.maxAttempts

theorem sameTotals_of_le {e : Engine μ} {n : Nat}
    (h : n * e.sampling.batchSize ≤ e.sampling.maxAttempts) :
    e.SameTotals n (n * e.sampling.batchSize) := by
  intro j hj
  have hle := Nat.mul_le_mul_right e.sampling.batchSize hj
  omega

section
variable {e : Engine μ} {n maxAttempts : Nat} {timeoutSeconds : Option Float}

theorem countAt_within (h : e.SameTotals n maxAttempts) {j : Nat} (hj : j < n) :
    (e.within maxAttempts timeoutSeconds).countAt j = e.countAt j := by
  have hnow := h j (by omega)
  have hnext := h (j + 1) hj
  rw [Nat.succ_mul] at hnext
  simp only [countAt, within]
  omega

theorem batchCount_within (h : e.SameTotals n maxAttempts) {bs : List Batch} (hbs : bs.length < n) :
    (e.within maxAttempts timeoutSeconds).batchCount (e.tallyAfter bs) =
      e.batchCount (e.tallyAfter bs) := by
  have hnow := h bs.length (by omega)
  have hnext := h (bs.length + 1) hbs
  rw [Nat.succ_mul] at hnext
  simp only [batchCount, within, e.total_tallyAfter bs]
  omega

theorem tallyAfter_within (h : e.SameTotals n maxAttempts) {bs : List Batch}
    (hbs : bs.length ≤ n) :
    (e.within maxAttempts timeoutSeconds).tallyAfter bs = e.tallyAfter bs := by
  induction bs using List.reverseRecOn with
  | nil => rfl
  | append_singleton bs b ih =>
    rw [List.length_append, List.length_singleton] at hbs
    rw [tallyAfter_concat, tallyAfter_concat, ih (by omega)]
    simp only [counted, seen, batchCount_within h hbs]
    rfl

theorem batchAt_within (h : e.SameTotals n maxAttempts) (memory : μ) {j : Nat} (hj : j < n) :
    (e.within maxAttempts timeoutSeconds).batchAt memory j = e.batchAt memory j := by
  unfold batchAt
  rw [countAt_within h hj]
  rfl

theorem length_firstBatches_le (e : Engine μ) (memory : μ) (k : Nat) :
    (e.firstBatches memory k).length ≤ k := by
  have hle := List.length_filterMap_le (fun i => (e.batchAt memory i).toOption) (List.range k)
  rwa [List.length_range] at hle

theorem tallyAt_within (h : e.SameTotals n maxAttempts) (memory : μ) {j : Nat} (hj : j ≤ n) :
    (e.within maxAttempts timeoutSeconds).tallyAt memory j = e.tallyAt memory j := by
  have hbatches : (e.within maxAttempts timeoutSeconds).firstBatches memory j =
      e.firstBatches memory j := by
    unfold firstBatches
    refine List.filterMap_congr fun i hi => ?_
    rw [batchAt_within h memory (Nat.lt_of_lt_of_le (List.mem_range.1 hi) hj)]
  have hlength := e.length_firstBatches_le memory j
  unfold tallyAt
  rw [hbatches, tallyAfter_within h (by omega)]

/-- Where a batch is still to come, both limits leave room for it or neither does. -/
theorem stopReason?_within (h : e.SameTotals n maxAttempts) (memory : μ) {j : Nat} (hj : j < n)
    (cancelled late : Bool) :
    (e.within maxAttempts timeoutSeconds).stopReason? (e.tallyAt memory j) cancelled late =
      e.stopReason? (e.tallyAt memory j) cancelled late := by
  have hlength := e.length_firstBatches_le memory j
  have htotal := e.total_tallyAfter (e.firstBatches memory j)
  have hnow := h (e.firstBatches memory j).length (by omega)
  have hnext := h ((e.firstBatches memory j).length + 1) (by omega)
  have hpos := e.batch_pos
  rw [Nat.succ_mul] at hnext
  have hiff : maxAttempts ≤ (e.tallyAt memory j).total ↔
      e.sampling.maxAttempts ≤ (e.tallyAt memory j).total := by
    unfold tallyAt
    omega
  simp only [stopReason?, within, hiff]

/-- Up to a point where both limits allow for the same totals, the same is decided. -/
theorem decision_within (h : e.SameTotals n maxAttempts) (memory : μ) (required : Nat) {j : Nat}
    (hj : j < n) (found : Signals) :
    (e.within maxAttempts timeoutSeconds).decision memory required j found =
      e.decision memory required j found := by
  have hlength := e.length_firstBatches_le memory j
  have hcount : (e.within maxAttempts timeoutSeconds).batchCount (e.tallyAt memory j) =
      e.batchCount (e.tallyAt memory j) := batchCount_within h (by omega)
  unfold decision
  simp only [tallyAt_within h memory (Nat.le_of_lt hj), stopReason?_within h memory hj,
    batchAt_within h memory hj, violating, seen, hcount]
  rfl

end

/-! ## Stopped runs -/

/-- The ways to stop a run after `n` batches and not before, by the reason, the engine that runs and
what this run finds between its batches: the cancel flag went up since the run last looked, the
time limit has passed, or there were only so many attempts. -/
inductive StopsAfter (e : Engine μ) (n : Nat) :
    StopReason → Engine μ → (Nat → Option Signals) → Prop
  | cancelled {polls : Nat → Option Signals} (quiet : ∀ k < n, ∀ x, polls k = some x → x = {})
      (raised : ∀ x, polls n = some x → x.cancelled = true) :
    StopsAfter e n .cancelled e polls
  | timedOut (timeoutSeconds : Option Float) {polls : Nat → Option Signals}
      (quiet : ∀ k < n, ∀ x, polls k = some x → x = {})
      (passed : ∀ x, polls n = some x → x = { late := true }) :
    StopsAfter e n .timedOut (e.within e.sampling.maxAttempts timeoutSeconds) polls
  | attempts {polls : Nat → Option Signals}
      (h : n * e.sampling.batchSize ≤ e.sampling.maxAttempts)
      (quiet : ∀ k x, polls k = some x → x = {}) :
    StopsAfter e n .attemptsExhausted
      (e.within (n * e.sampling.batchSize) e.sampling.timeoutSeconds) polls

/-- A stopped engine differs in its limits only, and before the stop they allow for the same. -/
theorem StopsAfter.within {e e' : Engine μ} {n : Nat} {reason : StopReason}
    {polls : Nat → Option Signals} (h : e.StopsAfter n reason e' polls) :
    ∃ maxAttempts timeoutSeconds, e' = e.within maxAttempts timeoutSeconds ∧
      e.SameTotals n maxAttempts ∧ ∀ k < n, ∀ x, polls k = some x → x = {} := by
  cases h with
  | cancelled quiet raised => exact ⟨_, e.sampling.timeoutSeconds, rfl, fun _ _ => rfl, quiet⟩
  | timedOut timeoutSeconds quiet passed => exact ⟨_, _, rfl, fun _ _ => rfl, quiet⟩
  | attempts hle quiet => exact ⟨_, _, rfl, sameTotals_of_le hle, fun k _ => quiet k⟩

/-- After its `n` batches a stopped run has its reason to stop. -/
theorem StopsAfter.stopReason? {e e' : Engine μ} {n : Nat} {reason : StopReason}
    {polls : Nat → Option Signals} (h : e.StopsAfter n reason e' polls) {memory : μ} {x : Signals}
    (hx : polls n = some x) (hlength : (e'.firstBatches memory n).length = n) :
    e'.stopReason? (e'.tallyAt memory n) x.cancelled x.late = some reason := by
  cases h with
  | cancelled quiet raised =>
    simp only [Engine.stopReason?, raised x hx, if_true]
  | timedOut timeoutSeconds quiet passed =>
    rw [passed x hx]
    rfl
  | attempts hle quiet =>
    have htotal := (e.within (n * e.sampling.batchSize) e.sampling.timeoutSeconds).total_tallyAfter
      ((e.within (n * e.sampling.batchSize) e.sampling.timeoutSeconds).firstBatches memory n)
    rw [hlength] at htotal
    rw [quiet n x hx, tallyAt, Engine.stopReason?, htotal]
    simp [Engine.within]

/-- Before the stop both runs decide the same. -/
theorem StopsAfter.firstDecision_eq {e e' : Engine μ} {n : Nat} {reason : StopReason}
    {polls polls' : Nat → Option Signals} (hstop : e.StopsAfter n reason e' polls')
    (hquiet : ∀ k x, polls k = some x → x = {}) {memory : μ} {required k k' : Nat}
    {d d' : Except Error (Verdict × Tally)} (h : e.FirstDecision memory required polls k d)
    (h' : e'.FirstDecision memory required polls' k' d') (hk : k < n) : k' = k ∧ d' = d := by
  obtain ⟨maxAttempts, timeoutSeconds, rfl, hsame, hquiet'⟩ := hstop.within
  obtain ⟨⟨x, hx, hd⟩, hbefore⟩ := h
  obtain ⟨⟨x', hx', hd'⟩, hbefore'⟩ := h'
  obtain rfl := hquiet k x hx
  rcases Nat.lt_trichotomy k' k with hlt | rfl | hgt
  · obtain ⟨y, hy, hnone⟩ := hbefore k' hlt
    obtain rfl := hquiet k' y hy
    obtain rfl := hquiet' k' (by omega) x' hx'
    rw [decision_within hsame memory required (by omega), hnone] at hd'
    cases hd'
  · obtain rfl := hquiet' k' hk x' hx'
    rw [decision_within hsame memory required hk, hd] at hd'
    exact ⟨rfl, (Option.some.inj hd').symm⟩
  · obtain ⟨y, hy, hnone⟩ := hbefore' k hgt
    obtain rfl := hquiet' k hk y hy
    rw [decision_within hsame memory required hk, hd] at hnone
    cases hnone

/-- If the undisturbed run has decided nothing before the stop, the other one decides there. -/
theorem StopsAfter.firstDecision_cut {e e' : Engine μ} {n : Nat} {reason : StopReason}
    {polls polls' : Nat → Option Signals} (hstop : e.StopsAfter n reason e' polls')
    (hquiet : ∀ k x, polls k = some x → x = {}) {memory : μ} {required k k' : Nat}
    {d d' : Except Error (Verdict × Tally)} (h : e.FirstDecision memory required polls k d)
    (h' : e'.FirstDecision memory required polls' k' d') (hk : n ≤ k)
    (hlength : ∀ x, polls' n = some x → (e'.firstBatches memory n).length = n) :
    k' = n ∧ (d' = .ok (.safe, e.tallyAt memory n) ∧ required ≤ (e.tallyAt memory n).valid ∨
      d' = .ok (.inconclusive reason, e.tallyAt memory n) ∧
        (e.tallyAt memory n).valid < required) := by
  obtain ⟨maxAttempts, timeoutSeconds, he, hsame, hquiet'⟩ := hstop.within
  have htally : e'.tallyAt memory n = e.tallyAt memory n := by
    rw [he, tallyAt_within hsame memory (Nat.le_refl n)]
  obtain ⟨⟨x', hx', hd'⟩, hbefore'⟩ := h'
  have hle : n ≤ k' := by
    by_contra hlt
    obtain ⟨y, hy, hnone⟩ := h.before k' (by omega)
    obtain rfl := hquiet k' y hy
    obtain rfl := hquiet' k' (by omega) x' hx'
    rw [he, decision_within hsame memory required (by omega), hnone] at hd'
    cases hd'
  have hge : k' ≤ n := by
    by_contra hlt
    obtain ⟨y, hy, hnone⟩ := hbefore' n (by omega)
    have hgo := (undecided hnone).2.1
    rw [hstop.stopReason? hy (hlength y hy)] at hgo
    cases hgo
  obtain rfl : k' = n := by omega
  have hreason := hstop.stopReason? hx' (hlength x' hx')
  refine ⟨rfl, ?_⟩
  cases decided_of_decision hd' with
  | safe enough => exact .inl (by rw [← htally]; exact ⟨rfl, enough⟩)
  | stopped why short hwhy =>
    obtain rfl := Option.some.inj (hreason.symm.trans hwhy)
    exact .inr (by rw [← htally]; exact ⟨rfl, short⟩)
  | failed err short hgo hb =>
    rw [hreason] at hgo
    cases hgo
  | violated b index v short hgo hb hf =>
    rw [hreason] at hgo
    cases hgo

/-- What the stopped run decides, by what the undisturbed run decides and how many batches that
takes. -/
theorem StopsAfter.decides {e e' : Engine μ} {n : Nat} {reason : StopReason}
    {polls polls' : Nat → Option Signals} (hstop : e.StopsAfter n reason e' polls')
    (hquiet : ∀ k x, polls k = some x → x = {}) {memory : μ} {required k k' : Nat}
    {verdict : Verdict} {t : Tally} {d' : Except Error (Verdict × Tally)}
    (h : e.FirstDecision memory required polls k (.ok (verdict, t)))
    (h' : e'.FirstDecision memory required polls' k' d')
    (hlength : (e.firstBatches memory k).length = k)
    (hlength' : ∀ x, polls' n = some x → (e'.firstBatches memory n).length = n)
    (hn : n ≤ t.batches) :
    (n = t.batches → (∀ why, verdict ≠ .inconclusive why) → d' = .ok (verdict, t)) ∧
      (n < t.batches ∨ (∃ why, verdict = .inconclusive why) →
        n ≤ k ∧ d' = .ok (.inconclusive reason, e.tallyAt memory n)) := by
  obtain ⟨x, hx, hdecision⟩ := h.decided
  have hdecided := decided_of_decision hdecision
  have hbatches := hdecided.batches_eq hlength
  by_cases hk : k < n
  · obtain ⟨-, rfl⟩ := hstop.firstDecision_eq hquiet h h' hk
    refine ⟨fun _ _ => rfl, ?_⟩
    -- only a violation in batch `k` takes more than `k` batches
    rintro (hlt | ⟨why, rfl⟩)
    · omega
    · obtain ⟨heq, -⟩ | ⟨-, hviolated⟩ := hbatches
      · omega
      · cases hviolated
  · obtain ⟨-, ⟨rfl, enough⟩ | ⟨rfl, short⟩⟩ :=
      hstop.firstDecision_cut hquiet h h' (Nat.not_lt.1 hk) hlength'
    · obtain rfl : n = k := by
        by_contra hne
        obtain ⟨y, -, hnone⟩ := h.before n (by omega)
        have hshort := (undecided hnone).1
        omega
      cases hdecided with
      | safe _ =>
        refine ⟨fun _ _ => rfl, ?_⟩
        rintro (hlt | ⟨why, hwhy⟩)
        · obtain ⟨heq, -⟩ | ⟨-, hviolated⟩ := hbatches
          · omega
          · cases hviolated
        · cases hwhy
      | stopped why hshort _ => omega
      | violated b index v hshort _ _ _ => omega
    · refine ⟨?_, fun _ => ⟨Nat.not_lt.1 hk, rfl⟩⟩
      intro heq hverdict
      -- after `n` batches the undisturbed run would be safe, with too few valid trajectories
      obtain ⟨hk', hviolated⟩ | ⟨hk', -⟩ := hbatches
      · obtain rfl : n = k := by omega
        cases hdecided with
        | safe enough => omega
        | stopped why _ _ => exact absurd rfl (hverdict why)
        | violated b index v _ _ _ _ => cases hviolated
      · omega

/-- A report that is inconclusive for the given reason, with the counts and examples that the run
of an engine had after `n` batches. -/
structure CutAfter (e : Engine μ) (signals : Nat → Signals) (s : Status μ) (n : Nat)
    (reason : StopReason) (r : Report) : Prop where
  verdict_eq : r.verdict = .inconclusive reason
  batches_eq : r.batches = n
  counts_eq : ∃ q, e.after signals s n = some q ∧ r.total = q.tally.total ∧
    r.valid = q.tally.valid ∧ r.diverged = q.tally.diverged ∧
    r.safeTrajectories = q.tally.safeTrajectories.toList ∧ r.unsafeTrajectories = []

/-- Interrupting a run of a steady model over a log without flags cuts it after a batch. Whatever
stops the run, a verdict that is reached by then stands with the whole report, and otherwise the
report has the counts of the undisturbed run after that batch. -/
theorem run_of_stopsAfter {e e' : Engine μ} (hsteady : e.model.Steady)
    (hlog : ∀ entry ∈ e.log.entries, checkEntry e.constraints entry = none)
    {s s' : Status μ} (hs : e.Reachable s) (hs' : e'.Reachable s')
    {signals signals' : Nat → Signals} (hquiet : e.Undisturbed signals s)
    {r : Report} (hrun : (e.run signals s).result = .ok r)
    {n : Nat} (hn : n ≤ r.batches) {reason : StopReason}
    (hstop : e.StopsAfter n reason e' (e'.polls signals' s')) :
    ∃ r', (e'.run signals' s').result = .ok r' ∧
      (n = r.batches → (∀ why, r.verdict ≠ .inconclusive why) → r' = r) ∧
      (n < r.batches ∨ (∃ why, r.verdict = .inconclusive why) →
        e.CutAfter signals s n reason r') := by
  have hfirst := (auditLog_first_eq_none_iff _ _).2 hlog
  obtain ⟨required, hanswer, -⟩ := run_reported hrun
  obtain ⟨maxAttempts, timeoutSeconds, he, -, -⟩ := hstop.within
  have hsteady' : e'.model.Steady := by rw [he]; exact hsteady
  have hfirst' : (auditLog e'.constraints e'.log).first = none := by rw [he]; exact hfirst
  have hanswer' : e'.answer s' = .ok required := by
    rw [answer_eq_of_reachable (by rw [he]; rfl) hs hs', hanswer]
  have hsameResult : ∀ p, e'.resultOf required (.ok p) = e.resultOf required (.ok p) := by
    intro p
    rw [he]
    rfl
  have hlength : ∀ x, e'.polls signals' s' n = some x →
      (e'.firstBatches s.memory n).length = n := by
    intro x hx
    obtain ⟨q, hq⟩ := exists_after_of_polls hx
    exact (standing_of_after hsteady' s.memory hanswer' hq).length_eq
  obtain ⟨k, d, hd, hresult⟩ := run_firstDecision hsteady s.memory signals hanswer hfirst
  obtain ⟨k', d', hd', hresult'⟩ := run_firstDecision hsteady' s.memory signals' hanswer' hfirst'
  rw [hresult] at hrun
  obtain ⟨verdict, t, rfl, rfl⟩ := resultOf_eq_ok hrun
  obtain ⟨x, hx, -⟩ := hd.decided
  obtain ⟨q, hq⟩ := exists_after_of_polls hx
  obtain ⟨hsame, hcut⟩ := hstop.decides hquiet hd hd'
    (standing_of_after hsteady s.memory hanswer hq).length_eq hlength hn
  rw [hresult']
  by_cases hlate : n < t.batches ∨ ∃ why, verdict = .inconclusive why
  · obtain ⟨hnk, rfl⟩ := hcut hlate
    refine ⟨_, hsameResult _, ?_, fun _ => ?_⟩
    · intro heq hverdict
      obtain hlt | ⟨why, hwhy⟩ := hlate
      · exact absurd heq (Nat.ne_of_lt hlt)
      · exact absurd hwhy (hverdict why)
    · obtain ⟨p, hp⟩ := exists_after_of_le hq hnk
      have hstanding := standing_of_after hsteady s.memory hanswer hp
      refine ⟨rfl, ?_, p, hp, ?_⟩
      · exact hstanding.tally_eq ▸ hstanding.batches_eq
      · rw [hstanding.tally_eq]
        exact ⟨rfl, rfl, rfl, rfl, e.unsafeTrajectories_tallyAfter _⟩
  · rw [not_or, not_exists] at hlate
    obtain rfl := hsame (Nat.le_antisymm hn (Nat.not_lt.1 hlate.1)) hlate.2
    have hnot := not_or.2 ⟨hlate.1, not_exists.2 hlate.2⟩
    exact ⟨_, hsameResult _, fun _ _ => rfl, fun h => absurd h hnot⟩

theorem stopsAfter_of_raised {e : Engine μ} {n : Nat} {polls : Nat → Option Signals}
    (quiet : ∀ k < n, polls k = some {}) (raised : polls n = some { cancelled := true }) :
    e.StopsAfter n .cancelled e polls := by
  refine .cancelled (fun k hk x hx => ?_) (fun x hx => ?_)
  · exact (Option.some.inj ((quiet k hk).symm.trans hx)).symm
  · rw [← Option.some.inj (raised.symm.trans hx)]

/-- A model that never moves, and raises the cancel flag when its countdown ends. -/
def alarm : StepModel Nat :=
  .ofNext "alarm" none fun s g left => ⟨.ok (.next s), g, left - 1, left == 1⟩

/-- The settings of the walk, for the model that never moves. -/
def alarmEngine : Engine Nat :=
  ⟨alarm, {}, walkLog, [⟨0, .ge, 1.25⟩], (walkConfig 1).bound, (walkConfig 1).sampling, 1,
    (walkEngine 1 1.25).log_fits, (walkEngine 1 1.25).batch_pos⟩

/-- A flag that goes up in the second of three batches cuts the run there, and one that goes up in
the third changes nothing. -/
theorem alarm_cuts :
    ∃ r, (alarmEngine.run (fun _ => {}) { memory := 0 }).result = .ok r ∧
      r.verdict = .safe ∧ r.batches = 3 ∧
      (∃ r', (alarmEngine.run (fun _ => {}) { memory := 7 }).result = .ok r' ∧
        alarmEngine.CutAfter (fun _ => {}) { memory := 0 } 2 .cancelled r') ∧
      (alarmEngine.run (fun _ => {}) { memory := 14 }).result = .ok r := by
  obtain ⟨r, hrun, hr⟩ : ∃ r, (alarmEngine.run (fun _ => {}) { memory := 0 }).result = .ok r ∧
      (r.verdict.isSafe && r.batches == 3) = true := exists_ok_of_any (by decide +kernel)
  rw [Bool.and_eq_true, beq_iff_eq] at hr
  have hsafe : r.verdict = .safe := Verdict.eq_safe_of_isSafe hr.1
  have hsteady : alarmEngine.model.Steady :=
    StepModel.steady_ofNext _ _ fun _ _ _ _ => ⟨rfl, rfl⟩
  have hlog : ∀ entry ∈ alarmEngine.log.entries,
      checkEntry alarmEngine.constraints entry = none :=
    (auditLog_first_eq_none_iff _ _).1 (Option.isNone_iff_eq_none.1 (by decide +kernel))
  have hquiet : alarmEngine.Undisturbed (fun _ => {}) { memory := 0 } :=
    undisturbed_of_polls (n := 4) (by decide +kernel) (by decide +kernel)
  -- with 7 calls left the flag goes up in the second batch, with 14 in the third, which decides
  have hcut : alarmEngine.StopsAfter 2 .cancelled alarmEngine
      (alarmEngine.polls (fun _ => {}) { memory := 7 }) :=
    stopsAfter_of_raised (by decide +kernel) (by decide +kernel)
  have hlate : alarmEngine.StopsAfter 3 .cancelled alarmEngine
      (alarmEngine.polls (fun _ => {}) { memory := 14 }) :=
    stopsAfter_of_raised (by decide +kernel) (by decide +kernel)
  obtain ⟨r', hrun', -, hcounts⟩ := run_of_stopsAfter hsteady hlog (.fresh 0 false)
    (.fresh 7 false) hquiet hrun (by omega) hcut
  obtain ⟨r'', hrun'', hsame, -⟩ := run_of_stopsAfter hsteady hlog (.fresh 0 false)
    (.fresh 14 false) hquiet hrun (by omega) hlate
  obtain rfl := hsame hr.2.symm (by simp [hsafe])
  exact ⟨r'', hrun, hsafe, hr.2, ⟨r', hrun', hcounts (.inl (by omega))⟩, hrun''⟩

end Engine

end TrajectorySafety
