import TrajectorySafety.Proofs.Simulation.Steady
import TrajectorySafety.Proofs.Verification.Setup

/-!
A run of a steady model ends with the first decision that can be taken.

`Engine.after` is where a run stands after a number of batches, and `Engine.polls` what it finds
there when it looks whether to go on. For a steady model, batch number `k` is the same in every run:
it is drawn with the child of the master generator that has this number (`Engine.batchAt`). So what
can be decided after `k` batches is a function of `k` and of what the run finds there
(`Engine.decision`), and the result of a run is the first decision (`run_firstDecision`). Two runs
are then compared number by number, without looking at their steps.
-/

namespace TrajectorySafety

open TrajectorySafety.Random

namespace Engine

variable {μ : Type}

/-! ## Where a run stands -/

/-- Where a run stands after `k` batches, if it gets that far. -/
def after (e : Engine μ) (signals : Nat → Signals) (s : Status μ) : Nat → Option (Pending μ)
  | 0 => (e.begin s).getRight?
  | k + 1 => (e.after signals s k).bind fun q => (e.advance q (signals q.tally.batches)).getRight?

/-- What a run finds between two batches when it looks whether to go on: the cancel flag, which its
model may have raised too, and the clock. -/
def poll (q : Pending μ) (signals : Signals) : Signals :=
  ⟨q.world.cancelled || signals.cancelled, signals.late⟩

/-- What a run finds after `k` batches, if it gets that far. -/
def polls (e : Engine μ) (signals : Nat → Signals) (s : Status μ) (k : Nat) : Option Signals :=
  (e.after signals s k).map fun q => poll q (signals q.tally.batches)

/-- A run that finds no flag raised and is never late. -/
def Undisturbed (e : Engine μ) (signals : Nat → Signals) (s : Status μ) : Prop :=
  ∀ k x, e.polls signals s k = some x → x = {}

theorem after_zero {e : Engine μ} {signals : Nat → Signals} {s : Status μ} {p : Pending μ} :
    e.after signals s 0 = some p ↔ e.begin s = .inr p :=
  Sum.getRight?_eq_some_iff

theorem after_succ {e : Engine μ} {signals : Nat → Signals} {s : Status μ} {k : Nat}
    {q' : Pending μ} :
    e.after signals s (k + 1) = some q' ↔
      ∃ q, e.after signals s k = some q ∧ e.advance q (signals q.tally.batches) = .inr q' := by
  simp only [after, Option.bind_eq_some_iff, Sum.getRight?_eq_some_iff]

/-- What holds at the start of the sampling and is kept by every step holds wherever a run stands.
-/
theorem after_induction {e : Engine μ} {signals : Nat → Signals} {s : Status μ}
    {motive : Nat → Pending μ → Prop}
    (hstart : ∀ required events, e.answer s = .ok required →
      motive 0 (e.started s required events))
    (hstep : ∀ k q q', motive k q → e.advance q (signals q.tally.batches) = .inr q' →
      motive (k + 1) q')
    {k : Nat} {q : Pending μ} (h : e.after signals s k = some q) : motive k q := by
  induction k generalizing q with
  | zero =>
    have hopen := e.begin_opening s
    rw [after_zero.1 h] at hopen
    cases hopen with
    | started required events ha hfirst => exact hstart required events ha
  | succ k ih =>
    obtain ⟨p, hp, hadvance⟩ := after_succ.1 h
    exact hstep k p q (ih hp) hadvance

theorem exists_after_of_polls {e : Engine μ} {signals : Nat → Signals} {s : Status μ} {k : Nat}
    {x : Signals} (h : e.polls signals s k = some x) : ∃ q, e.after signals s k = some q := by
  obtain ⟨q, hq, -⟩ := Option.map_eq_some_iff.1 h
  exact ⟨q, hq⟩

/-- A run that gets to a point has come past all points before it. -/
theorem exists_after_of_le {e : Engine μ} {signals : Nat → Signals} {s : Status μ} {j k : Nat}
    {q : Pending μ} (h : e.after signals s k = some q) (hj : j ≤ k) :
    ∃ p, e.after signals s j = some p := by
  induction k generalizing q with
  | zero =>
    obtain rfl : j = 0 := by omega
    exact ⟨q, h⟩
  | succ k ih =>
    by_cases heq : j = k + 1
    · exact ⟨q, heq ▸ h⟩
    · obtain ⟨p, hp, -⟩ := after_succ.1 h
      exact ih hp (by omega)

/-- Whether a run is undisturbed shows at the points that it gets to. -/
theorem undisturbed_of_polls {e : Engine μ} {signals : Nat → Signals} {s : Status μ} {n : Nat}
    (hquiet : ∀ k < n, e.polls signals s k = some {}) (hend : e.polls signals s n = none) :
    e.Undisturbed signals s := by
  intro k x hx
  by_cases hk : k < n
  · exact (Option.some.inj ((hquiet k hk).symm.trans hx)).symm
  · obtain ⟨q, hq⟩ := exists_after_of_polls hx
    obtain ⟨p, hp⟩ := exists_after_of_le hq (Nat.not_lt.1 hk)
    rw [polls, hp] at hend
    cases hend

/-- The cancel flag of a run stays down if it was down at the start, nobody raises it and the model
never asks for it. -/
theorem cancelled_of_after {e : Engine μ} {signals : Nat → Signals} {s : Status μ} {k : Nat}
    {q : Pending μ} (hm : e.model.NeverCancels) (hs : s.cancelled = false)
    (hsignals : ∀ k, signals k = {}) (h : e.after signals s k = some q) :
    q.world.cancelled = false := by
  refine after_induction (motive := fun _ q => q.world.cancelled = false) ?_ ?_ h
  · intro required events _
    exact hs
  · intro k p p' ih hadvance
    have hmove := e.advance_move p (signals p.tally.batches)
    rw [hadvance] at hmove
    cases hmove with
    | counted b w events hr hstop hb hf =>
      have hflag := e.simulator.calm_batch hm _ _ _ b w hb
      simp only [batchWorld, ih, hsignals, Bool.or_false] at hflag
      exact hflag

/-- Without signals from outside, a run of a model that never asks to cancel is undisturbed. -/
theorem undisturbed_of_neverCancels {e : Engine μ} {signals : Nat → Signals} {s : Status μ}
    (hm : e.model.NeverCancels) (hs : s.cancelled = false) (hsignals : ∀ k, signals k = {}) :
    e.Undisturbed signals s := by
  intro k x hx
  obtain ⟨q, hq, rfl⟩ := Option.map_eq_some_iff.1 hx
  simp only [poll, hsignals, cancelled_of_after hm hs hsignals hq, Bool.or_false]

theorem after_of_reaches {e : Engine μ} {signals : Nat → Signals} {s : Status μ} {p q : Pending μ}
    {bs : List Batch} (hp : e.begin s = .inr p) (h : e.Reaches signals p bs q) :
    e.after signals s bs.length = some q := by
  induction h with
  | start => exact after_zero.2 hp
  | @step bs q q' b _ hd ha ih =>
    rw [List.length_append, List.length_singleton]
    exact after_succ.2 ⟨q, ih, ha⟩

/-- A run that starts to sample ends with the step from some point. -/
theorem run_after {e : Engine μ} {s : Status μ} {p : Pending μ} (signals : Nat → Signals)
    (hp : e.begin s = .inr p) :
    ∃ k q, e.after signals s k = some q ∧
      e.advance q (signals q.tally.batches) = .inl (e.run signals s) := by
  obtain ⟨bs, q, hreach, hend, -⟩ := e.drive_reaches signals p
  have hrun : e.run signals s = e.drive signals p := by
    unfold run
    rw [hp]
  exact ⟨bs.length, q, after_of_reaches hp hreach, hrun ▸ hend⟩

/-- A run that needs `required` samples and flags nothing in the log starts to sample. -/
theorem begin_of_unflagged {e : Engine μ} {s : Status μ} {required : Nat}
    (ha : e.answer s = .ok required) (hfirst : (auditLog e.constraints e.log).first = none) :
    ∃ events, e.begin s = .inr (e.started s required events) := by
  have hopen := e.begin_opening s
  generalize e.begin s = start at hopen
  cases hopen with
  | refused fault h =>
    rw [ha] at h
    cases h
  | flagged k index v w h hflag =>
    rw [hfirst] at hflag
    cases hflag
  | started k events h hnone =>
    obtain rfl := Except.ok.inj (ha.symm.trans h)
    exact ⟨events, rfl⟩

/-- However two engines with the same bound were used before, they ask for as many samples. -/
theorem answer_eq_of_reachable {e e' : Engine μ} {s s' : Status μ} (hbound : e'.bound = e.bound)
    (hs : e.Reachable s) (hs' : e'.Reachable s') : e'.answer s' = e.answer s := by
  rw [(answer_of_reachable hs).1, (answer_of_reachable hs').1, hbound]

/-! ## The batches of a steady model -/

/-- How many trajectories batch number `k` has. -/
def countAt (e : Engine μ) (k : Nat) : Nat :=
  min e.sampling.batchSize (e.sampling.maxAttempts - k * e.sampling.batchSize)

/-- Batch number `k`, drawn by itself. -/
def batchAt (e : Engine μ) (memory : μ) (k : Nat) : Except Error Batch :=
  ((e.simulator.batch e.log.first.region (e.countAt k)).shown
    ⟨.child e.seed (.ofNat k), memory, false, #[]⟩).1

/-- The batches with a number below `k`. -/
def firstBatches (e : Engine μ) (memory : μ) (k : Nat) : List Batch :=
  (List.range k).filterMap fun i => (e.batchAt memory i).toOption

/-- The counts after the batches with a number below `k`, if nothing is violated in them. -/
def tallyAt (e : Engine μ) (memory : μ) (k : Nat) : Tally :=
  e.tallyAfter (e.firstBatches memory k)

theorem batchCount_tallyAfter (e : Engine μ) (bs : List Batch) :
    e.batchCount (e.tallyAfter bs) = e.countAt bs.length := by
  unfold batchCount countAt
  rw [total_tallyAfter]
  omega

theorem firstBatches_succ {e : Engine μ} {memory : μ} {k : Nat} {b : Batch}
    (h : e.batchAt memory k = .ok b) :
    e.firstBatches memory (k + 1) = e.firstBatches memory k ++ [b] := by
  unfold firstBatches
  rw [List.range_succ, List.filterMap_append]
  simp [h, Except.toOption]

/-- What is known of a run that stands after `k` batches. The batches it has drawn are the first
ones, and its master generator has handed out as many children. -/
structure Standing (e : Engine μ) (memory : μ) (required k : Nat) (q : Pending μ) : Prop where
  required_eq : q.required = required
  audit_eq : q.audit = auditLog e.constraints e.log
  master_eq : q.master = ⟨e.seed, .ofNat k, .ofSeed e.seed⟩
  tally_eq : q.tally = e.tallyAt memory k
  length_eq : (e.firstBatches memory k).length = k

theorem Standing.batches_eq {e : Engine μ} {memory : μ} {required k : Nat} {q : Pending μ}
    (h : e.Standing memory required k q) : q.tally.batches = k := by
  rw [h.tally_eq, tallyAt, batches_tallyAfter, h.length_eq]

/-- The batch that a run draws next is the batch with its number. -/
theorem Standing.shown_batch {e : Engine μ} {memory : μ} {required k : Nat} {q : Pending μ}
    (hsteady : e.model.Steady) (h : e.Standing memory required k q) (signals : Signals) :
    ((e.simulator.batch e.log.first.region (e.batchCount q.tally)).shown
      (batchWorld q signals)).1 = e.batchAt memory k := by
  have hcount : e.batchCount q.tally = e.countAt k := by
    rw [h.tally_eq, tallyAt, batchCount_tallyAfter, h.length_eq]
  have hgen : (batchWorld q signals).generator = .child e.seed (.ofNat k) := by
    simp only [batchWorld, h.master_eq, Generator.fork]
  have hreplay := e.simulator.replays_batch hsteady e.log.first.region (e.countAt k)
    (batchWorld q signals) ⟨.child e.seed (.ofNat k), memory, false, #[]⟩ hgen
  rw [hcount, hreplay, batchAt]

theorem standing_started (e : Engine μ) (s : Status μ) (memory : μ) (required : Nat)
    (events : Array Event) : e.Standing memory required 0 (e.started s required events) :=
  ⟨rfl, rfl, rfl, rfl, rfl⟩

theorem Standing.advance {e : Engine μ} {memory : μ} {required k : Nat} {q q' : Pending μ}
    {signals : Signals} (hsteady : e.model.Steady) (h : e.Standing memory required k q)
    (ha : e.advance q signals = .inr q') : e.Standing memory required (k + 1) q' := by
  have hmove := e.advance_move q signals
  rw [ha] at hmove
  cases hmove with
  | counted b w events hr hs hb hf =>
    have hbatch : e.batchAt memory k = .ok b := by
      rw [← h.shown_batch hsteady signals, Sim.shown_of_ok hb]
    have hbatches := firstBatches_succ hbatch
    refine ⟨h.required_eq, h.audit_eq, ?_, ?_, ?_⟩
    · simp only [h.master_eq, Generator.fork, UInt64.ofNat_add]
      rfl
    · rw [tallyAt, hbatches, tallyAfter_concat, h.tally_eq, tallyAt]
    · rw [hbatches, List.length_append, h.length_eq, List.length_singleton]

/-- Wherever a run stands, it has drawn the first batches. -/
theorem standing_of_after {e : Engine μ} {signals : Nat → Signals} {s : Status μ} {required k : Nat}
    {q : Pending μ} (hsteady : e.model.Steady) (memory : μ) (hanswer : e.answer s = .ok required)
    (h : e.after signals s k = some q) : e.Standing memory required k q := by
  refine after_induction (motive := e.Standing memory required) ?_ ?_ h
  · intro required' events ha
    obtain rfl := Except.ok.inj (hanswer.symm.trans ha)
    exact e.standing_started s memory required events
  · intro k p p' hstanding hadvance
    exact hstanding.advance hsteady hadvance

/-! ## Decisions -/

/-- What a run that needs `required` samples decides after `k` batches, given what it finds there:
a verdict with its counts, the failure of the model, or nothing yet. -/
def decision (e : Engine μ) (memory : μ) (required k : Nat) (found : Signals) :
    Option (Except Error (Verdict × Tally)) :=
  let t := e.tallyAt memory k
  if required ≤ t.valid then some (.ok (.safe, t))
  else
    match e.stopReason? t found.cancelled found.late with
    | some reason => some (.ok (.inconclusive reason, t))
    | none =>
      match e.batchAt memory k with
      | .error err => some (.error err)
      | .ok b =>
        match firstUnsafe e.constraints (e.validOf b) with
        | some (index, v) => some (.ok (.violated v (.trajectory k index), e.violating t b))
        | none => none

/-- The decisions that can be taken after `k` batches, with what each of them rests on. -/
inductive Decided (e : Engine μ) (memory : μ) (required k : Nat) (found : Signals) :
    Except Error (Verdict × Tally) → Prop
  | safe (enough : required ≤ (e.tallyAt memory k).valid) :
    Decided e memory required k found (.ok (.safe, e.tallyAt memory k))
  | stopped (reason : StopReason) (short : (e.tallyAt memory k).valid < required)
      (hstop : e.stopReason? (e.tallyAt memory k) found.cancelled found.late = some reason) :
    Decided e memory required k found (.ok (.inconclusive reason, e.tallyAt memory k))
  | failed (err : Error) (short : (e.tallyAt memory k).valid < required)
      (hgo : e.stopReason? (e.tallyAt memory k) found.cancelled found.late = none)
      (hb : e.batchAt memory k = .error err) :
    Decided e memory required k found (.error err)
  | violated (b : Batch) (index : Nat) (v : Violation)
      (short : (e.tallyAt memory k).valid < required)
      (hgo : e.stopReason? (e.tallyAt memory k) found.cancelled found.late = none)
      (hb : e.batchAt memory k = .ok b)
      (hf : firstUnsafe e.constraints (e.validOf b) = some (index, v)) :
    Decided e memory required k found
      (.ok (.violated v (.trajectory k index), e.violating (e.tallyAt memory k) b))

theorem decision_of_decided {e : Engine μ} {memory : μ} {required k : Nat} {found : Signals}
    {d : Except Error (Verdict × Tally)} (h : e.Decided memory required k found d) :
    e.decision memory required k found = some d := by
  unfold decision
  cases h with
  | safe enough => simp only [enough, if_true]
  | stopped reason short hstop => simp only [Nat.not_le.2 short, if_false, hstop]
  | failed err short hgo hb => simp only [Nat.not_le.2 short, if_false, hgo, hb]
  | violated b index v short hgo hb hf => simp only [Nat.not_le.2 short, if_false, hgo, hb, hf]

/-- Nothing is decided where samples are missing, nothing stops the run, and the next batch has no
violation. -/
theorem decision_eq_none {e : Engine μ} {memory : μ} {required k : Nat} {found : Signals}
    {b : Batch} (short : (e.tallyAt memory k).valid < required)
    (hgo : e.stopReason? (e.tallyAt memory k) found.cancelled found.late = none)
    (hb : e.batchAt memory k = .ok b) (hf : firstUnsafe e.constraints (e.validOf b) = none) :
    e.decision memory required k found = none := by
  unfold decision
  simp only [Nat.not_le.2 short, if_false, hgo, hb, hf]

/-- Either something is decided after `k` batches, or a batch without a violation follows. -/
theorem decision_cases (e : Engine μ) (memory : μ) (required k : Nat) (found : Signals) :
    (∃ d, e.Decided memory required k found d) ∨
    ((e.tallyAt memory k).valid < required ∧
      e.stopReason? (e.tallyAt memory k) found.cancelled found.late = none ∧
      ∃ b, e.batchAt memory k = .ok b ∧ firstUnsafe e.constraints (e.validOf b) = none) := by
  by_cases enough : required ≤ (e.tallyAt memory k).valid
  · exact .inl ⟨_, .safe enough⟩
  have short := Nat.not_le.1 enough
  cases hstop : e.stopReason? (e.tallyAt memory k) found.cancelled found.late with
  | some reason => exact .inl ⟨_, .stopped reason short hstop⟩
  | none =>
    cases hb : e.batchAt memory k with
    | error err => exact .inl ⟨_, .failed err short hstop hb⟩
    | ok b =>
      cases hf : firstUnsafe e.constraints (e.validOf b) with
      | some first => exact .inl ⟨_, .violated b first.1 first.2 short hstop hb hf⟩
      | none => exact .inr ⟨short, rfl, b, rfl, hf⟩

theorem decided_of_decision {e : Engine μ} {memory : μ} {required k : Nat} {found : Signals}
    {d : Except Error (Verdict × Tally)} (h : e.decision memory required k found = some d) :
    e.Decided memory required k found d := by
  obtain ⟨d', hd'⟩ | ⟨short, hgo, b, hb, hf⟩ := e.decision_cases memory required k found
  · have heq : d' = d := Option.some.inj ((decision_of_decided hd').symm.trans h)
    exact heq ▸ hd'
  · rw [decision_eq_none short hgo hb hf] at h
    cases h

/-- Where nothing is decided, samples are missing, nothing stops the run, and the next batch has no
violation. -/
theorem undecided {e : Engine μ} {memory : μ} {required k : Nat} {found : Signals}
    (h : e.decision memory required k found = none) :
    (e.tallyAt memory k).valid < required ∧
      e.stopReason? (e.tallyAt memory k) found.cancelled found.late = none ∧
      ∃ b, e.batchAt memory k = .ok b ∧ firstUnsafe e.constraints (e.validOf b) = none := by
  obtain ⟨d, hd⟩ | hundecided := e.decision_cases memory required k found
  · rw [decision_of_decided hd] at h
    cases h
  · exact hundecided

/-- The result of a run that ends with a decision. -/
def resultOf (e : Engine μ) (required : Nat) : Except Error (Verdict × Tally) → Except Error Report
  | .ok (verdict, t) => .ok (e.report required (auditLog e.constraints e.log) t verdict)
  | .error err => .error err

theorem resultOf_eq_ok {e : Engine μ} {required : Nat} {d : Except Error (Verdict × Tally)}
    {r : Report} (h : e.resultOf required d = .ok r) :
    ∃ verdict t, d = .ok (verdict, t) ∧
      r = e.report required (auditLog e.constraints e.log) t verdict := by
  cases d with
  | error err => cases h
  | ok p => exact ⟨p.1, p.2, rfl, (Except.ok.inj h).symm⟩

/-- A violation ends a run within a batch, every other verdict between two of them. -/
theorem Decided.batches_eq {e : Engine μ} {memory : μ} {required k : Nat} {found : Signals}
    {verdict : Verdict} {t : Tally} (h : e.Decided memory required k found (.ok (verdict, t)))
    (hlength : (e.firstBatches memory k).length = k) :
    (t.batches = k ∧ verdict.isViolated = false) ∨
      (t.batches = k + 1 ∧ verdict.isViolated = true) := by
  have hk : (e.tallyAt memory k).batches = k := by
    rw [tallyAt, batches_tallyAfter, hlength]
  cases h with
  | safe enough => exact .inl ⟨hk, rfl⟩
  | stopped reason short hstop => exact .inl ⟨hk, rfl⟩
  | violated b index v short hgo hb hf => exact .inr ⟨congrArg (· + 1) hk, rfl⟩

/-- A step goes on as long as nothing is decided, and ends the run with the decision. -/
theorem Standing.advance_decision {e : Engine μ} {memory : μ} {required k : Nat} {q : Pending μ}
    (hsteady : e.model.Steady) (h : e.Standing memory required k q) (signals : Signals) :
    (e.decision memory required k (poll q signals) = none ∧
      ∃ q', e.advance q signals = .inr q') ∨
    ∃ d outcome, e.decision memory required k (poll q signals) = some d ∧
      e.advance q signals = .inl outcome ∧ outcome.result = e.resultOf required d := by
  have hmove := e.advance_move q signals
  have hbatch := h.shown_batch hsteady signals
  generalize e.advance q signals = next at hmove
  have hbatches := h.batches_eq
  obtain ⟨rfl, haudit, -, htally, -⟩ := h
  cases hmove with
  | enough hr =>
    rw [htally] at hr
    refine .inr ⟨_, _, decision_of_decided (.safe hr), rfl, ?_⟩
    rw [haudit, htally]
    rfl
  | stopped reason w hr hs hm hc =>
    rw [htally] at hr hs
    refine .inr ⟨_, _, decision_of_decided (.stopped reason hr hs), rfl, ?_⟩
    rw [haudit, htally]
    rfl
  | failed err w hr hs hb =>
    rw [Sim.shown_of_error hb] at hbatch
    rw [htally] at hr hs
    exact .inr ⟨_, _, decision_of_decided (.failed err hr hs hbatch.symm), rfl, rfl⟩
  | found b w events index v hr hs hb hf =>
    rw [Sim.shown_of_ok hb] at hbatch
    rw [htally] at hr hs
    refine .inr ⟨_, _, decision_of_decided (.violated b index v hr hs hbatch.symm hf), rfl, ?_⟩
    rw [haudit, hbatches, htally]
    rfl
  | counted b w events hr hs hb hf =>
    rw [Sim.shown_of_ok hb] at hbatch
    rw [htally] at hr hs
    exact .inl ⟨decision_eq_none hr hs hbatch.symm hf, _, rfl⟩

/-- The first decision of a run: `d`, after `k` batches. -/
structure FirstDecision (e : Engine μ) (memory : μ) (required : Nat)
    (polls : Nat → Option Signals) (k : Nat) (d : Except Error (Verdict × Tally)) : Prop where
  decided : ∃ x, polls k = some x ∧ e.decision memory required k x = some d
  before : ∀ j < k, ∃ x, polls j = some x ∧ e.decision memory required j x = none

/-- A run of a steady model over a log without flags ends with its first decision. -/
theorem run_firstDecision {e : Engine μ} {s : Status μ} {required : Nat}
    (hsteady : e.model.Steady) (memory : μ) (signals : Nat → Signals)
    (hanswer : e.answer s = .ok required)
    (hfirst : (auditLog e.constraints e.log).first = none) :
    ∃ k d, e.FirstDecision memory required (e.polls signals s) k d ∧
      (e.run signals s).result = e.resultOf required d := by
  obtain ⟨events, hbegin⟩ := begin_of_unflagged hanswer hfirst
  obtain ⟨k, q, hq, hend⟩ := run_after signals hbegin
  have hdecision := fun {j : Nat} {p : Pending μ} (hp : e.after signals s j = some p) =>
    (standing_of_after hsteady memory hanswer hp).advance_decision hsteady
      (signals p.tally.batches)
  obtain ⟨-, q', hnext⟩ | ⟨d, outcome, hd, hadvance, hresult⟩ := hdecision hq
  · rw [hend] at hnext
    cases hnext
  · obtain rfl : outcome = e.run signals s := Sum.inl.inj (hadvance.symm.trans hend)
    refine ⟨k, d, ⟨⟨_, congrArg _ hq, hd⟩, ?_⟩, hresult⟩
    intro j hj
    obtain ⟨p', hp'⟩ := exists_after_of_le hq hj
    obtain ⟨p, hp, hnext⟩ := after_succ.1 hp'
    obtain ⟨hnone, -⟩ | ⟨d', outcome', -, hstop, -⟩ := hdecision hp
    · exact ⟨_, congrArg _ hp, hnone⟩
    · rw [hnext] at hstop
      cases hstop

/-- In an undisturbed run the first decision is the first one that nothing outside enters into. -/
theorem FirstDecision.quiet {e : Engine μ} {memory : μ} {required : Nat}
    {polls : Nat → Option Signals} {k : Nat} {d : Except Error (Verdict × Tally)}
    (h : e.FirstDecision memory required polls k d)
    (hquiet : ∀ k x, polls k = some x → x = {}) :
    e.decision memory required k {} = some d ∧
      ∀ j < k, e.decision memory required j {} = none := by
  obtain ⟨⟨x, hx, hd⟩, hbefore⟩ := h
  refine ⟨hquiet k x hx ▸ hd, fun j hj => ?_⟩
  obtain ⟨y, hy, hnone⟩ := hbefore j hj
  exact hquiet j y hy ▸ hnone

/-- The results that a run of a steady model can have. -/
inductive Ending (e : Engine μ) (memory : μ) (s : Status μ) (polls : Nat → Option Signals) :
    Except Error Report → Prop
  | refused (fault : Fault) (h : e.answer s = .error fault) :
    Ending e memory s polls (.error (.config fault))
  | flagged (required index : Nat) (v : Violation) (h : e.answer s = .ok required)
      (hfirst : (auditLog e.constraints e.log).first = some (index, v)) :
    Ending e memory s polls (.ok (e.report required (auditLog e.constraints e.log) {}
      (.violated v (.logEntry index))))
  | decided (required k : Nat) (d : Except Error (Verdict × Tally)) (h : e.answer s = .ok required)
      (hfirst : (auditLog e.constraints e.log).first = none)
      (hd : e.FirstDecision memory required polls k d) :
    Ending e memory s polls (e.resultOf required d)

theorem run_ending {e : Engine μ} (hsteady : e.model.Steady) (memory : μ)
    (signals : Nat → Signals) (s : Status μ) :
    e.Ending memory s (e.polls signals s) (e.run signals s).result := by
  have hcourse := e.run_course signals s
  generalize hrun : e.run signals s = outcome at hcourse
  generalize e.batches signals s = drawn at hcourse
  cases hcourse with
  | refused fault h => exact .refused fault h
  | flagged required index v w h hfirst => exact .flagged required index v h hfirst
  | sampled required events bs q outcome h hfirst hreach hend =>
    obtain ⟨k, d, hd, hresult⟩ := run_firstDecision hsteady memory signals h hfirst
    rw [← hrun, hresult]
    exact .decided required k d h hfirst hd

end Engine

end TrajectorySafety
