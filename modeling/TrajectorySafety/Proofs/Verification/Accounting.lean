import Mathlib.Algebra.Order.Floor.Div
import TrajectorySafety.Proofs.Verification.Decision
import TrajectorySafety.Proofs.Verification.Retention

/-!
The books of a run.

Every count of a run is a count of trajectories: the total is the number of all trajectories of its
batches, and the valid and the diverged ones are found among them (`length_of_history`,
`valid_tallyAfter`, `diverged_of_history`). So no count exceeds the budget of attempts, the number
of batches is bounded by the budget (`length_le_of_history`), and no count that a step computes
leaves the range of the budget (`fits_of_after`). The safe examples are the first ones that could be
kept (`safeTrajectories_tallyAfter`). `account_of_run` puts this together for the report of a run.
-/

namespace TrajectorySafety

open TrajectorySafety.Random

/-- A trajectory that agrees with a log lasts until the end of the log. -/
theorem UncertaintyLog.maxTime_lt_of_admits {log : UncertaintyLog} {t : Trajectory}
    (h : log.admits t = true) : log.maxTime < t.length := by
  have hlast := List.getLast_mem log.entries_ne_nil
  obtain ⟨s, hs, -⟩ := (log.admits_iff t).1 h _ hlast
  exact (List.getElem?_eq_some_iff.1 hs).1

/-- Room that is left after the first trajectories were kept goes to the ones that follow. -/
theorem Tally.toList_keepSafe {t : Tally} {room : Nat} {kept : List Trajectory}
    (h : t.safeTrajectories.toList = kept.take room) (ts : List Trajectory) :
    (t.keepSafe ts room).safeTrajectories.toList = (kept ++ ts).take room := by
  have hsize : t.safeTrajectories.size = min room kept.length := by
    rw [← Array.length_toList, h, List.length_take]
  have hroom : room - t.safeTrajectories.size = room - kept.length := by omega
  rw [keepSafe, Array.toList_appendList, h, hroom, List.take_append]

namespace Engine

variable {μ : Type} {e : Engine μ} {required : Nat} {bs : List Batch}

/-! ## Counting the trajectories of a history -/

theorem history_of_concat {b : Batch} (h : e.History required (bs ++ [b])) :
    e.History required bs ∧ e.DrawnAfter required bs b :=
  ⟨fun earlier c hp => h earlier c (hp.trans (List.prefix_append bs [b])), h bs b List.prefix_rfl⟩

theorem DrawnAfter.length_eq {b : Batch} (h : e.DrawnAfter required bs b) :
    b.trajectories.length = e.batchCount (e.tallyAfter bs) := by
  obtain ⟨w, w', hdrawn⟩ := h.drawn
  have hbatch := e.simulator.ends_batch e.model.keeps_trivial e.log.first.region
    (e.batchCount (e.tallyAfter bs)) (.inr trivial) (fun _ => trivial) w
  rw [hdrawn] at hbatch
  exact hbatch.1

/-- The total of a run is the number of trajectories in its batches. -/
theorem length_of_history (h : e.History required bs) :
    (bs.flatMap Batch.trajectories).length = (e.tallyAfter bs).total := by
  induction bs using List.reverseRecOn with
  | nil => rfl
  | append_singleton bs b ih =>
    obtain ⟨hhist, hdrawn⟩ := history_of_concat h
    have hc : (e.counted (e.tallyAfter bs) b).total =
        (e.tallyAfter bs).total + e.batchCount (e.tallyAfter bs) := rfl
    rw [tallyAfter_concat, hc, ← ih hhist, ← hdrawn.length_eq, List.flatMap_append,
      List.length_append, List.flatMap_singleton]

theorem diverged_tallyAfter (e : Engine μ) (bs : List Batch) :
    (e.tallyAfter bs).diverged =
      (bs.flatMap Batch.trajectories).countP Trajectory.isTruncated := by
  induction bs using List.reverseRecOn with
  | nil => rfl
  | append_singleton bs b ih =>
    have hc : (e.counted (e.tallyAfter bs) b).diverged =
        (e.tallyAfter bs).diverged + b.diverged := rfl
    rw [tallyAfter_concat, hc, ih, Batch.diverged, List.flatMap_append, List.countP_append,
      List.flatMap_singleton]

theorem isTruncated_of_history (h : e.History required bs) {t : Trajectory}
    (ht : t ∈ bs.flatMap Batch.trajectories) :
    t.isTruncated = decide (t.length < e.sampling.horizon) := by
  have hproduced := produced_of_history e.model.keeps_trivial (fun _ => trivial) h ht
  rw [Trajectory.isTruncated, hproduced.horizon]
  rfl

/-- The diverged trajectories of a run are those that are shorter than the horizon. -/
theorem diverged_of_history (h : e.History required bs) :
    (e.tallyAfter bs).diverged =
      (bs.flatMap Batch.trajectories).countP fun t => decide (t.length < e.sampling.horizon) := by
  rw [diverged_tallyAfter]
  refine List.countP_congr fun t ht => ?_
  rw [isTruncated_of_history h ht]

theorem valid_le_total (h : e.History required bs) :
    (e.tallyAfter bs).valid ≤ (e.tallyAfter bs).total := by
  rw [valid_tallyAfter, ← length_of_history h]
  exact List.countP_le_length

theorem diverged_le_total (h : e.History required bs) :
    (e.tallyAfter bs).diverged ≤ (e.tallyAfter bs).total := by
  rw [diverged_tallyAfter, ← length_of_history h]
  exact List.countP_le_length

/-- If the log lasts until the horizon, no valid trajectory has diverged. -/
theorem valid_add_diverged_le_total (h : e.History required bs)
    (hlast : e.log.maxTime = e.sampling.horizon - 1) :
    (e.tallyAfter bs).valid + (e.tallyAfter bs).diverged ≤ (e.tallyAfter bs).total := by
  have hwhole : ∀ t ∈ bs.flatMap Batch.trajectories,
      t.isTruncated = true → decide ¬ e.log.admits t = true := by
    intro t ht htruncated
    rw [isTruncated_of_history h ht, decide_eq_true_eq] at htruncated
    rw [decide_eq_true_eq]
    intro hadmits
    have hlt := UncertaintyLog.maxTime_lt_of_admits hadmits
    omega
  rw [valid_tallyAfter, diverged_tallyAfter, ← length_of_history h,
    List.length_eq_countP_add_countP e.log.admits]
  exact Nat.add_le_add_left (List.countP_mono_left hwhole) _

/-- The budget bounds the number of batches. -/
theorem length_le_of_history (h : e.History required bs) :
    bs.length ≤ e.sampling.maxAttempts ⌈/⌉ e.sampling.batchSize := by
  cases bs using List.reverseRecOn with
  | nil => exact Nat.zero_le _
  | append_singleton bs b =>
    have hleft := (history_of_concat h).2.attempts
    rw [total_tallyAfter] at hleft
    have hlt : e.sampling.batchSize * bs.length < e.sampling.maxAttempts := by
      rw [Nat.mul_comm]
      omega
    rw [List.length_append, List.length_singleton]
    exact (lt_iff_lt_of_le_iff_le (ceilDiv_le_iff_le_mul e.batch_pos)).2 hlt

theorem safeTrajectories_tallyAfter (e : Engine μ) (bs : List Batch) :
    (e.tallyAfter bs).safeTrajectories.toList =
      (bs.flatMap e.validOf).take e.sampling.retain := by
  induction bs using List.reverseRecOn with
  | nil => simp [tallyAfter]
  | append_singleton bs b ih =>
    rw [tallyAfter_concat, List.flatMap_append, List.flatMap_singleton]
    exact Tally.toList_keepSafe ih _

/-! ## The counts of a step -/

/-- No count that a step with the batch `b` computes takes more than 64 bits, and no subtraction
that it makes goes below zero. -/
structure Fits (e : Engine μ) (q : Pending μ) (b : Batch) : Prop where
  attempts_left : q.tally.total ≤ e.sampling.maxAttempts
  room_left : q.tally.safeTrajectories.size ≤ e.sampling.retain
  total_lt : q.tally.total + e.batchCount q.tally < 2 ^ 64
  batches_lt : q.tally.batches + 1 < 2 ^ 64
  diverged_lt : q.tally.diverged + b.diverged < 2 ^ 64
  valid_lt : q.tally.valid + (e.validOf b).length < 2 ^ 64
  stream_lt : q.master.stream.toNat + 1 < 2 ^ 64

theorem of_draw? {p : Pending μ} {signals : Signals} {b : Batch} (h : e.draw? p signals = some b) :
    p.tally.valid < p.required ∧
      e.stopReason? p.tally (p.world.cancelled || signals.cancelled) signals.late = none ∧
      ∃ w, e.simulator.batch e.log.first.region (e.batchCount p.tally) (batchWorld p signals) =
        .ok b w := by
  unfold draw? at h
  split at h
  · cases h
  · next hshort =>
    split at h
    · cases h
    · next hstop =>
      split at h
      · next b' w hb =>
        cases h
        exact ⟨Nat.not_le.1 hshort, hstop, w, hb⟩
      · cases h

theorem reaches_of_after {signals : Nat → Signals} {s : Status μ} {k : Nat} {q : Pending μ}
    (h : e.after signals s k = some q) :
    ∃ required events bs, e.Reaches signals (e.started s required events) bs q := by
  refine after_induction (motive := fun _ q => ∃ required events bs,
    e.Reaches signals (e.started s required events) bs q) ?_ ?_ h
  · intro required events _
    exact ⟨required, events, [], .start⟩
  · rintro k p p' ⟨required, events, bs, hreach⟩ hadvance
    obtain ⟨b, hb⟩ := draw?_of_advance hadvance
    exact ⟨required, events, bs ++ [b], hreach.step hb hadvance⟩

theorem Reaches.stream_eq {signals : Nat → Signals} {p q : Pending μ}
    (h : e.Reaches signals p bs q) : q.master.stream = p.master.stream + .ofNat bs.length := by
  induction h with
  | start => simp
  | @step bs q q' b _ hd ha ih =>
    have hmove := e.advance_move q (signals q.tally.batches)
    rw [ha] at hmove
    cases hmove with
    | counted c w events hr hs hb hf =>
      simp only [Generator.fork, ih, List.length_append, List.length_singleton, UInt64.ofNat_add,
        UInt64.add_assoc]
      rfl

/-- The number of batches, and with it the number of the next stream, is less than the budget of
attempts as long as attempts are left. -/
theorem length_lt_of_attempts (h : (e.tallyAfter bs).total < e.sampling.maxAttempts) :
    bs.length < e.sampling.maxAttempts := by
  rw [total_tallyAfter] at h
  have hle : bs.length ≤ bs.length * e.sampling.batchSize := Nat.le_mul_of_pos_right _ e.batch_pos
  omega

theorem fits_of_after {signals : Nat → Signals} {s : Status μ} {k : Nat} {q : Pending μ} {b : Batch}
    (hmax : e.sampling.maxAttempts < 2 ^ 64) (h : e.after signals s k = some q)
    (hd : e.draw? q (signals q.tally.batches) = some b) : e.Fits q b := by
  obtain ⟨required, events, bs, hreach⟩ := reaches_of_after h
  obtain ⟨hreq, -, htally, hhist, -⟩ := hreach.history rfl
  obtain ⟨hshort, hstop, w, hbatch⟩ := of_draw? hd
  rw [htally] at hshort hstop hbatch
  rw [hreq] at hshort
  obtain ⟨-, -, hleft⟩ := stopReason?_eq_none_iff.1 hstop
  have hlength := length_lt_of_attempts hleft
  -- what the step computes are the counts after one more batch, which count trajectories
  have hnext := history_concat hhist ⟨hshort, hleft, _, w, hbatch⟩
  have hvalid := valid_le_total hnext
  have hdiverged := diverged_le_total hnext
  have htotal := e.total_tallyAfter (bs ++ [b])
  rw [tallyAfter_concat] at hvalid hdiverged htotal
  replace htotal : (e.tallyAfter bs).total + e.batchCount (e.tallyAfter bs) =
      min ((bs ++ [b]).length * e.sampling.batchSize) e.sampling.maxAttempts := htotal
  replace hvalid : (e.tallyAfter bs).valid + (e.validOf b).length ≤
      (e.tallyAfter bs).total + e.batchCount (e.tallyAfter bs) := hvalid
  replace hdiverged : (e.tallyAfter bs).diverged + b.diverged ≤
      (e.tallyAfter bs).total + e.batchCount (e.tallyAfter bs) := hdiverged
  have hstream : q.master.stream.toNat = bs.length := by
    rw [hreach.stream_eq]
    simp only [started, Generator.ofSeed, UInt64.zero_add, UInt64.toNat_ofNat']
    omega
  have hsize : (e.tallyAfter bs).safeTrajectories.size ≤ e.sampling.retain := by
    rw [← Array.length_toList, safeTrajectories_tallyAfter]
    exact List.length_take_le _ _
  have hbatches : q.tally.batches = bs.length := by rw [htally, batches_tallyAfter]
  rw [← htally] at hleft htotal hvalid hdiverged hsize
  exact ⟨Nat.le_of_lt hleft, hsize, by omega, by omega, by omega, by omega, by omega⟩

/-! ## The account of a run -/

/-- The trajectories that a run can keep as safe examples, in the order in which they were drawn:
the valid ones of the batches that it counted and, if it ended with a violation, the safe ones among
the valid ones of the last batch. -/
def examples (e : Engine μ) (verdict : Verdict) (bs : List Batch) : List Trajectory :=
  if verdict.isViolated then
    bs.dropLast.flatMap e.validOf ++
      (bs.getLast?.toList.flatMap e.validOf).filter (isSafe e.constraints)
  else bs.flatMap e.validOf

/-- A report that accounts for the batches of its run, the last one included. -/
structure Account (e : Engine μ) (bs : List Batch) (r : Report) : Prop where
  batches_eq : r.batches = bs.length
  batches_le : r.batches ≤ e.sampling.maxAttempts ⌈/⌉ e.sampling.batchSize
  total_eq : r.total = min (r.batches * e.sampling.batchSize) e.sampling.maxAttempts
  valid_le : r.valid ≤ r.total
  diverged_le : r.diverged ≤ r.total
  diverged_eq : r.diverged =
    (bs.flatMap Batch.trajectories).countP fun t => decide (t.length < e.sampling.horizon)
  disjoint : e.log.maxTime = e.sampling.horizon - 1 → r.valid + r.diverged ≤ r.total
  exhausted : r.verdict = .inconclusive .attemptsExhausted →
    r.total = e.sampling.maxAttempts ∧ r.valid < r.required
  safe_eq : r.safeTrajectories = (e.examples r.verdict bs).take e.sampling.retain
  unsafe_le : r.unsafeTrajectories.length ≤ max 1 e.sampling.retain

section
variable {r : Report}

theorem Reported.history (h : e.Reported required bs r) : e.History required bs := by
  cases h with
  | flagged index v hfirst => exact e.history_nil required
  | safe bs hfirst hist clean enough => exact hist
  | stopped bs reason cancelled late hfirst hist clean short hstop => exact hist
  | found bs b index v hfirst hist clean hfound => exact hist

/-- The counts of a report are those after all of its batches, but the valid trajectories of a last
batch with a violation are not counted. -/
theorem Reported.counts (h : e.Reported required bs r) :
    r.total = (e.tallyAfter bs).total ∧ r.batches = (e.tallyAfter bs).batches ∧
      r.diverged = (e.tallyAfter bs).diverged ∧ r.valid ≤ (e.tallyAfter bs).valid := by
  cases h with
  | flagged index v hfirst => exact ⟨rfl, rfl, rfl, Nat.le_refl _⟩
  | safe bs hfirst hist clean enough => exact ⟨rfl, rfl, rfl, Nat.le_refl _⟩
  | stopped bs reason cancelled late hfirst hist clean short hstop =>
    exact ⟨rfl, rfl, rfl, Nat.le_refl _⟩
  | found bs b index v hfirst hist clean hfound =>
    rw [tallyAfter_concat]
    exact ⟨rfl, rfl, rfl, Nat.le_add_right _ _⟩

/-- A run that stops for want of attempts has spent all of them. -/
theorem spent_of_stopReason? {t : Tally} {cancelled late : Bool}
    (h : e.stopReason? t cancelled late = some .attemptsExhausted) :
    e.sampling.maxAttempts ≤ t.total := by
  unfold stopReason? at h
  cases cancelled <;> cases late <;> simp at h
  exact h

theorem Reported.exhausted (h : e.Reported required bs r)
    (hr : r.verdict = .inconclusive .attemptsExhausted) :
    r.total = e.sampling.maxAttempts ∧ r.valid < r.required := by
  cases h with
  | flagged index v hfirst => cases hr
  | safe bs hfirst hist clean enough => cases hr
  | found bs b index v hfirst hist clean hfound => cases hr
  | stopped bs reason cancelled late hfirst hist clean short hstop =>
    obtain rfl : reason = .attemptsExhausted := Verdict.inconclusive.inj hr
    refine ⟨?_, short⟩
    have hspent := spent_of_stopReason? hstop
    have htotal := e.total_tallyAfter bs
    have hle : (e.tallyAfter bs).total ≤ e.sampling.maxAttempts := by omega
    exact Nat.le_antisymm hle hspent

theorem Reported.safe_eq (h : e.Reported required bs r) :
    r.safeTrajectories = (e.examples r.verdict bs).take e.sampling.retain := by
  cases h with
  | flagged index v hfirst => simp [report, examples]
  | safe bs hfirst hist clean enough => exact e.safeTrajectories_tallyAfter bs
  | stopped bs reason cancelled late hfirst hist clean short hstop =>
    exact e.safeTrajectories_tallyAfter bs
  | found bs b index v hfirst hist clean hfound =>
    have hkept := Tally.toList_keepSafe (t := e.seen (e.tallyAfter bs) b)
      (e.safeTrajectories_tallyAfter bs) (splitTrajectories e.constraints (e.validOf b)).1
    have hsplit : (splitTrajectories e.constraints (e.validOf b)).1 =
        (e.validOf b).filter (isSafe e.constraints) := by
      rw [splitTrajectories, List.partition_eq_filter_filter]
    refine hkept.trans ?_
    rw [hsplit]
    simp [report, examples, Verdict.isViolated]

theorem Reported.unsafe_le (h : e.Reported required bs r) :
    r.unsafeTrajectories.length ≤ max 1 e.sampling.retain := by
  cases h with
  | flagged index v hfirst => simp [report]
  | safe bs hfirst hist clean enough => simp [report, unsafeTrajectories_tallyAfter]
  | stopped bs reason cancelled late hfirst hist clean short hstop =>
    simp [report, unsafeTrajectories_tallyAfter]
  | found bs b index v hfirst hist clean hfound =>
    rw [Nat.max_comm]
    exact List.length_take_le _ _

theorem Reported.account (h : e.Reported required bs r) : e.Account bs r := by
  have hhist := h.history
  obtain ⟨htotal, hbatches, hdiverged, hvalid⟩ := h.counts
  rw [batches_tallyAfter] at hbatches
  have hvalid' := valid_le_total hhist
  have hdiverged' := diverged_le_total hhist
  constructor
  · exact hbatches
  · rw [hbatches]
    exact length_le_of_history hhist
  · rw [htotal, hbatches, total_tallyAfter]
  · omega
  · omega
  · rw [hdiverged, diverged_of_history hhist]
  · intro hlast
    have hsum := valid_add_diverged_le_total hhist hlast
    omega
  · exact h.exhausted
  · exact h.safe_eq
  · exact h.unsafe_le

end

/-- The account of a run that ends with a report, for every model. The report accounts for its
batches; no count and no subtraction on the way leaves 64 bits; and the number of examples to keep
changes nothing but the examples. -/
theorem account_of_run {signals : Nat → Signals} {s : Status μ} {r : Report}
    (hmax : e.sampling.maxAttempts < 2 ^ 64) (hrun : (e.run signals s).result = .ok r) :
    e.Account (e.batches signals s) r ∧
    (∀ k q b, e.after signals s k = some q → e.draw? q (signals q.tally.batches) = some b →
      e.Fits q b) ∧
    ∀ n, ∃ r', ((e.retaining n).run signals s).result = .ok r' ∧ r'.bare = r.bare := by
  obtain ⟨required, -, hreported⟩ := run_reported hrun
  refine ⟨hreported.account, fun k q b hq hb => fits_of_after hmax hq hb, fun n => ?_⟩
  have hbare : ((e.retaining n).run signals s).result.map Report.bare =
      (e.run signals s).result.map Report.bare :=
    congrArg Outcome.result (e.run_retaining n signals s)
  rw [hrun] at hbare
  cases hrun' : ((e.retaining n).run signals s).result with
  | error err =>
    rw [hrun'] at hbare
    cases hbare
  | ok r' =>
    rw [hrun'] at hbare
    exact ⟨r', rfl, Except.ok.inj hbare⟩

/-- A walk that leaves its range in the second batch, after two valid trajectories and beside a
third one that is safe; all three are kept. -/
theorem walk_account :
    ∃ r, (((walkEngine 18 1.25).retaining 3).run (fun _ => {}) { memory := () }).result = .ok r ∧
      r.verdict.isFrom (.trajectory 1 1) = true ∧ r.valid = 2 ∧ r.safeTrajectories.length = 3 ∧
      ((walkEngine 18 1.25).retaining 3).Account
        (((walkEngine 18 1.25).retaining 3).batches (fun _ => {}) { memory := () }) r ∧
      ∃ r', ((walkEngine 18 1.25).run (fun _ => {}) { memory := () }).result = .ok r' ∧
        r'.bare = r.bare := by
  obtain ⟨r, hrun, hr⟩ :
      ∃ r, (((walkEngine 18 1.25).retaining 3).run (fun _ => {}) { memory := () }).result = .ok r ∧
        (r.verdict.isFrom (.trajectory 1 1) && r.valid == 2 && r.safeTrajectories.length == 3) =
          true := exists_ok_of_any (by decide +kernel)
  simp only [Bool.and_eq_true, beq_iff_eq] at hr
  obtain ⟨⟨hfrom, hvalid⟩, hlength⟩ := hr
  obtain ⟨haccount, -, hretain⟩ := account_of_run (by decide) hrun
  exact ⟨r, hrun, hfrom, hvalid, hlength, haccount, hretain 0⟩

end Engine

end TrajectorySafety
