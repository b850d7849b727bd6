import Mathlib.Data.List.Induction
import TrajectorySafety.Proofs.Log.Boxes
import TrajectorySafety.Proofs.Safety.Scan
import TrajectorySafety.Proofs.Simulation.Batch
import TrajectorySafety.Verification

/-!
Runs as sequences of batches.

`Engine.Move` says once what a step between two batches can do, and `advance_move` that every step
is one of these. `Engine.batches` lists the batches that a run draws, `Engine.Reaches` follows a run
batch by batch, and `Engine.Course` says what a whole run can do (`run_course`). What a run has
counted depends on its batches alone (`Reaches.history`). So the report of a run is determined by
its batches and by how it ended (`Engine.Reported`, `run_reported`), and statements about reports
need not look at steps again.
-/

namespace TrajectorySafety

open TrajectorySafety.Random

namespace Engine

variable {μ : Type}

/-! ## The start -/

/-- The answer to how many samples a run needs. -/
def answer (e : Engine μ) (s : Status μ) : Except Fault Nat :=
  (s.cache.required e.bound.strategy.rule e.bound.budget e.bound.confidence).1

/-- The cache after a run has asked how many samples it needs. -/
def asked (e : Engine μ) (s : Status μ) : BoundCache :=
  (s.cache.required e.bound.strategy.rule e.bound.budget e.bound.confidence).2

/-- What the start of a run can do. -/
inductive Opening (e : Engine μ) (s : Status μ) : Outcome μ ⊕ Pending μ → Prop
  | refused (fault : Fault) (h : e.answer s = .error fault) :
    Opening e s (.inl ⟨.error (.config fault), { s with phase := .init, cache := e.asked s }, #[]⟩)
  | flagged (required index : Nat) (v : Violation) (w : World μ) (h : e.answer s = .ok required)
      (hfirst : (auditLog e.constraints e.log).first = some (index, v))
      (hm : w.memory = s.memory) (hc : w.cancelled = s.cancelled) :
    Opening e s (.inl (e.conclude required (auditLog e.constraints e.log) (e.asked s)
      (.violated v (.logEntry index)) {} w))
  | started (required : Nat) (events : Array Event) (h : e.answer s = .ok required)
      (hfirst : (auditLog e.constraints e.log).first = none) :
    Opening e s (.inr ⟨required, auditLog e.constraints e.log, {}, .ofSeed e.seed, e.asked s,
      ⟨.ofSeed e.seed, s.memory, s.cancelled, events⟩⟩)

theorem begin_opening (e : Engine μ) (s : Status μ) : e.Opening s (e.begin s) := by
  cases ha : e.answer s with
  | error fault =>
    have hbegin : e.begin s =
        .inl ⟨.error (.config fault), { s with phase := .init, cache := e.asked s }, #[]⟩ := by
      unfold answer at ha
      simp only [begin, ha, asked]
    rw [hbegin]
    exact .refused fault ha
  | ok required =>
    have ha' := ha
    unfold answer at ha'
    cases hfirst : (auditLog e.constraints e.log).first with
    | none =>
      simp only [begin, ha', hfirst]
      exact .started required _ ha hfirst
    | some found =>
      simp only [begin, ha', hfirst]
      exact .flagged required found.1 found.2 _ ha hfirst rfl rfl

/-! ## One step -/

/-- The trajectories of a batch that agree with the log, in order. -/
def validOf (e : Engine μ) (b : Batch) : List Trajectory := b.trajectories.filter e.log.admits

/-- The world in which the next batch is drawn. -/
def batchWorld (p : Pending μ) (signals : Signals) : World μ :=
  { p.world with
    generator := p.master.fork.1
    cancelled := p.world.cancelled || signals.cancelled }

/-- The counts after a batch, before its valid trajectories are checked. -/
def seen (e : Engine μ) (t : Tally) (b : Batch) : Tally :=
  { t with
    total := t.total + e.batchCount t
    batches := t.batches + 1
    diverged := t.diverged + b.diverged }

/-- The counts after a batch in which nothing is violated. -/
def counted (e : Engine μ) (t : Tally) (b : Batch) : Tally :=
  { e.seen t b with valid := t.valid + (e.validOf b).length }.keepSafe (e.validOf b)
    e.sampling.retain

/-- The counts after a batch with a violation, which ends the run. -/
def violating (e : Engine μ) (t : Tally) (b : Batch) : Tally :=
  let parts := splitTrajectories e.constraints (e.validOf b)
  { (e.seen t b).keepSafe parts.1 e.sampling.retain with
    unsafeTrajectories := parts.2.take (max e.sampling.retain 1) }

/-- What a step between two batches can do. -/
inductive Move (e : Engine μ) (p : Pending μ) (signals : Signals) :
    Outcome μ ⊕ Pending μ → Prop
  | enough (h : p.required ≤ p.tally.valid) :
    Move e p signals (.inl (e.conclude p.required p.audit p.cache .safe p.tally p.world))
  | stopped (reason : StopReason) (w : World μ) (h : p.tally.valid < p.required)
      (hs : e.stopReason? p.tally (p.world.cancelled || signals.cancelled) signals.late =
        some reason) (hm : w.memory = p.world.memory)
      (hc : w.cancelled = (p.world.cancelled || signals.cancelled)) :
    Move e p signals
      (.inl (e.conclude p.required p.audit p.cache (.inconclusive reason) p.tally w))
  | failed (err : Error) (w : World μ) (h : p.tally.valid < p.required)
      (hs : e.stopReason? p.tally (p.world.cancelled || signals.cancelled) signals.late = none)
      (hb : e.simulator.batch e.log.first.region (e.batchCount p.tally) (batchWorld p signals) =
        .error err w) :
    Move e p signals (.inl ⟨.error err, ⟨w.memory, w.cancelled, .sampling, p.cache⟩, w.events⟩)
  | found (b : Batch) (w : World μ) (events : Array Event) (index : Nat) (v : Violation)
      (h : p.tally.valid < p.required)
      (hs : e.stopReason? p.tally (p.world.cancelled || signals.cancelled) signals.late = none)
      (hb : e.simulator.batch e.log.first.region (e.batchCount p.tally) (batchWorld p signals) =
        .ok b w)
      (hf : firstUnsafe e.constraints (e.validOf b) = some (index, v)) :
    Move e p signals (.inl (e.conclude p.required p.audit p.cache
      (.violated v (.trajectory p.tally.batches index)) (e.violating p.tally b)
      { w with events }))
  | counted (b : Batch) (w : World μ) (events : Array Event) (h : p.tally.valid < p.required)
      (hs : e.stopReason? p.tally (p.world.cancelled || signals.cancelled) signals.late = none)
      (hb : e.simulator.batch e.log.first.region (e.batchCount p.tally) (batchWorld p signals) =
        .ok b w)
      (hf : firstUnsafe e.constraints (e.validOf b) = none) :
    Move e p signals (.inr ⟨p.required, p.audit, e.counted p.tally b, p.master.fork.2, p.cache,
      { w with events }⟩)

theorem judge_some {e : Engine μ} {t : Tally} {b : Batch} {index : Nat} {v : Violation}
    (h : firstUnsafe e.constraints (e.validOf b) = some (index, v)) :
    e.judge t b (e.validOf b) =
      .stop (.violated v (.trajectory t.batches index)) (e.violating t b) := by
  simp only [judge, h]
  rfl

theorem judge_none {e : Engine μ} {t : Tally} {b : Batch}
    (h : firstUnsafe e.constraints (e.validOf b) = none) :
    e.judge t b (e.validOf b) = .next (e.counted t b) := by
  simp only [judge, h]
  rfl

theorem announce_apply (turn : Turn) (w : World μ) :
    ∃ events, turn.announce w = .ok () { w with events } := by
  unfold Turn.announce
  split
  · exact ⟨_, rfl⟩
  · exact ⟨w.events, rfl⟩

theorem sampleBatch_ok {e : Engine μ} {t : Tally} {g : Generator} {w w' : World μ} {b : Batch}
    (hb : e.simulator.batch e.log.first.region (e.batchCount t) { w with generator := g } =
      .ok b w') :
    ∃ events, e.sampleBatch t g w = .ok (e.judge t b (e.validOf b)) { w' with events } := by
  simp only [sampleBatch, Sim.bind_apply, Sim.modify_apply, hb, Sim.get_apply, Sim.note_apply,
    UncertaintyLog.split_fst]
  obtain ⟨events, ha⟩ := announce_apply (e.judge t b (e.validOf b)) _
  exact ⟨events, by erw [ha]; rfl⟩

theorem sampleBatch_error {e : Engine μ} {t : Tally} {g : Generator} {w w' : World μ} {err : Error}
    (hb : e.simulator.batch e.log.first.region (e.batchCount t) { w with generator := g } =
      .error err w') : e.sampleBatch t g w = .error err w' := by
  simp only [sampleBatch, Sim.bind_apply, Sim.modify_apply, hb]

/-- A step that has no reason to stop samples its batch in the world of the batch. -/
theorem turn_eq_sampleBatch {e : Engine μ} {p : Pending μ} {signals : Signals}
    (h : p.tally.valid < p.required)
    (hs : e.stopReason? p.tally (p.world.cancelled || signals.cancelled) signals.late = none) :
    e.turn p.required p.tally signals p.master.fork.1 p.world =
      e.sampleBatch p.tally p.master.fork.1
        { p.world with cancelled := p.world.cancelled || signals.cancelled } := by
  simp only [turn, Nat.not_le.2 h, if_false, Sim.bind_apply, Sim.modify_apply, Sim.get_apply, hs]

theorem advance_move (e : Engine μ) (p : Pending μ) (signals : Signals) :
    e.Move p signals (e.advance p signals) := by
  by_cases hr : p.required ≤ p.tally.valid
  · have ht : e.turn p.required p.tally signals p.master.fork.1 p.world =
        .ok (.stop .safe p.tally) p.world := by
      simp only [turn, hr, if_true, Sim.pure_apply]
    simp only [advance, ht]
    exact .enough hr
  · have h : p.tally.valid < p.required := Nat.not_le.1 hr
    cases hs : e.stopReason? p.tally (p.world.cancelled || signals.cancelled) signals.late with
    | some reason =>
      simp only [advance, turn, hr, if_false, Sim.bind_apply, Sim.modify_apply, Sim.get_apply, hs,
        Sim.note_apply, Sim.pure_apply]
      exact .stopped reason _ h hs rfl rfl
    | none =>
      have ht := turn_eq_sampleBatch h hs
      cases hb : e.simulator.batch e.log.first.region (e.batchCount p.tally)
          (batchWorld p signals) with
      | error err w =>
        have hsample := ht.trans (sampleBatch_error hb)
        simp only [advance, hsample]
        exact .failed err w h hs hb
      | ok b w =>
        obtain ⟨events, hsample⟩ := sampleBatch_ok (w := { p.world with
          cancelled := p.world.cancelled || signals.cancelled }) hb
        rw [← ht] at hsample
        cases hf : firstUnsafe e.constraints (e.validOf b) with
        | some found =>
          obtain ⟨index, v⟩ := found
          rw [judge_some hf] at hsample
          simp only [advance, hsample]
          exact .found b w events index v h hs hb hf
        | none =>
          rw [judge_none hf] at hsample
          simp only [advance, hsample]
          exact .counted b w events h hs hb hf

/-! ## The batches of a run -/

/-- The batch that a run draws next, unless it ends here or the model fails. -/
def draw? (e : Engine μ) (p : Pending μ) (signals : Signals) : Option Batch :=
  if p.required ≤ p.tally.valid then none
  else
    match e.stopReason? p.tally (p.world.cancelled || signals.cancelled) signals.late with
    | some _ => none
    | none =>
      match e.simulator.batch e.log.first.region (e.batchCount p.tally) (batchWorld p signals) with
      | .ok b _ => some b
      | .error _ _ => none

/-- The batches that a run draws from a point between two batches on. -/
def batchesFrom (e : Engine μ) (signals : Nat → Signals) (p : Pending μ) : List Batch :=
  (e.draw? p (signals p.tally.batches)).toList ++
    match h : e.advance p (signals p.tally.batches) with
    | .inl _ => []
    | .inr p' =>
      have := advance_next h
      e.batchesFrom signals p'
termination_by e.sampling.maxAttempts - p.tally.total

/-- The batches that a run draws. -/
def batches (e : Engine μ) (signals : Nat → Signals) (s : Status μ) : List Batch :=
  match e.begin s with
  | .inl _ => []
  | .inr p => e.batchesFrom signals p

theorem draw?_of_batch {e : Engine μ} {p : Pending μ} {signals : Signals} {b : Batch} {w : World μ}
    (h : p.tally.valid < p.required)
    (hs : e.stopReason? p.tally (p.world.cancelled || signals.cancelled) signals.late = none)
    (hb : e.simulator.batch e.log.first.region (e.batchCount p.tally) (batchWorld p signals) =
      .ok b w) : e.draw? p signals = some b := by
  simp only [draw?, Nat.not_le.2 h, if_false, hs, hb]

/-- A run between two batches that has drawn the given batches since it stood at `p`. -/
inductive Reaches (e : Engine μ) (signals : Nat → Signals) (p : Pending μ) :
    List Batch → Pending μ → Prop
  | start : Reaches e signals p [] p
  | step {bs : List Batch} {q q' : Pending μ} {b : Batch} (h : Reaches e signals p bs q)
      (hd : e.draw? q (signals q.tally.batches) = some b)
      (ha : e.advance q (signals q.tally.batches) = .inr q') :
    Reaches e signals p (bs ++ [b]) q'

theorem Reaches.prepend {e : Engine μ} {signals : Nat → Signals} {p p' q : Pending μ} {b : Batch}
    {bs : List Batch} (hd : e.draw? p (signals p.tally.batches) = some b)
    (ha : e.advance p (signals p.tally.batches) = .inr p') (h : e.Reaches signals p' bs q) :
    e.Reaches signals p (b :: bs) q := by
  induction h with
  | start => exact .step .start hd ha
  | step _ hd' ha' ih => exact .step ih hd' ha'

theorem draw?_of_advance {e : Engine μ} {p p' : Pending μ} {signals : Signals}
    (h : e.advance p signals = .inr p') : ∃ b, e.draw? p signals = some b := by
  have hm := e.advance_move p signals
  rw [h] at hm
  cases hm with
  | counted b w events hr hs hb hf => exact ⟨b, draw?_of_batch hr hs hb⟩

/-- A run comes to a point where the next step is its last. -/
theorem drive_reaches (e : Engine μ) (signals : Nat → Signals) (p : Pending μ) :
    ∃ bs q, e.Reaches signals p bs q ∧
      e.advance q (signals q.tally.batches) = .inl (e.drive signals p) ∧
      e.batchesFrom signals p = bs ++ (e.draw? q (signals q.tally.batches)).toList := by
  fun_induction drive e signals p with
  | case1 p outcome h =>
    refine ⟨[], p, .start, h, ?_⟩
    rw [batchesFrom]
    split
    · simp
    · next h' => rw [h] at h'; cases h'
  | case2 p p' h _ ih =>
    obtain ⟨bs, q, hreach, hend, hbs⟩ := ih
    obtain ⟨b, hb⟩ := draw?_of_advance h
    refine ⟨b :: bs, q, hreach.prepend hb h, hend, ?_⟩
    rw [batchesFrom]
    split
    · next h' => rw [h] at h'; cases h'
    · next q' h' =>
      rw [h] at h'
      cases h'
      simp [hb, hbs]

/-- A run that is about to sample. -/
def started (e : Engine μ) (s : Status μ) (required : Nat) (events : Array Event) : Pending μ :=
  ⟨required, auditLog e.constraints e.log, {}, .ofSeed e.seed, e.asked s,
    ⟨.ofSeed e.seed, s.memory, s.cancelled, events⟩⟩

/-- The courses that a run can take, by the batches that it draws and its outcome: it ends at the
start, or it samples until a step ends it. -/
inductive Course (e : Engine μ) (signals : Nat → Signals) (s : Status μ) :
    List Batch → Outcome μ → Prop
  | refused (fault : Fault) (h : e.answer s = .error fault) :
    Course e signals s []
      ⟨.error (.config fault), { s with phase := .init, cache := e.asked s }, #[]⟩
  | flagged (required index : Nat) (v : Violation) (w : World μ) (h : e.answer s = .ok required)
      (hfirst : (auditLog e.constraints e.log).first = some (index, v)) :
    Course e signals s [] (e.conclude required (auditLog e.constraints e.log) (e.asked s)
      (.violated v (.logEntry index)) {} w)
  | sampled (required : Nat) (events : Array Event) (bs : List Batch) (q : Pending μ)
      (outcome : Outcome μ) (h : e.answer s = .ok required)
      (hfirst : (auditLog e.constraints e.log).first = none)
      (hreach : e.Reaches signals (e.started s required events) bs q)
      (hend : e.Move q (signals q.tally.batches) (.inl outcome)) :
    Course e signals s (bs ++ (e.draw? q (signals q.tally.batches)).toList) outcome

theorem run_course (e : Engine μ) (signals : Nat → Signals) (s : Status μ) :
    e.Course signals s (e.batches signals s) (e.run signals s) := by
  have hopen := e.begin_opening s
  unfold run batches
  generalize e.begin s = start at hopen
  cases hopen with
  | refused fault ha => exact .refused fault ha
  | flagged required index v w ha hfirst => exact .flagged required index v w ha hfirst
  | started required events ha hfirst =>
    obtain ⟨bs, q, hreach, hend, hbs⟩ := e.drive_reaches signals (e.started s required events)
    have hmove := e.advance_move q (signals q.tally.batches)
    rw [hend] at hmove
    simp only
    unfold started at hbs hmove
    rw [hbs]
    exact .sampled required events bs q _ ha hfirst hreach hmove

/-! ## What a run has counted -/

/-- The counts after batches in which nothing is violated. -/
def tallyAfter (e : Engine μ) (bs : List Batch) : Tally := bs.foldl e.counted {}

/-- No trajectory of a batch that agrees with the log violates a constraint. -/
def Clean (e : Engine μ) (b : Batch) : Prop :=
  ∀ t ∈ b.trajectories, e.log.admits t = true → firstViolation e.constraints t = none

/-- A batch that was drawn after earlier ones, while samples were still missing and attempts were
left. -/
structure DrawnAfter (e : Engine μ) (required : Nat) (earlier : List Batch) (b : Batch) :
    Prop where
  needed : (e.tallyAfter earlier).valid < required
  attempts : (e.tallyAfter earlier).total < e.sampling.maxAttempts
  drawn : ∃ w w', e.simulator.batch e.log.first.region (e.batchCount (e.tallyAfter earlier)) w =
    .ok b w'

/-- Batches that were drawn one after the other. -/
def History (e : Engine μ) (required : Nat) (bs : List Batch) : Prop :=
  ∀ earlier b, earlier ++ [b] <+: bs → e.DrawnAfter required earlier b

theorem tallyAfter_concat (e : Engine μ) (bs : List Batch) (b : Batch) :
    e.tallyAfter (bs ++ [b]) = e.counted (e.tallyAfter bs) b := by
  simp [tallyAfter]

theorem batches_tallyAfter (e : Engine μ) (bs : List Batch) :
    (e.tallyAfter bs).batches = bs.length := by
  induction bs using List.reverseRecOn with
  | nil => rfl
  | append_singleton bs b ih =>
    rw [tallyAfter_concat, List.length_append, List.length_singleton, ← ih]
    rfl

theorem unsafeTrajectories_tallyAfter (e : Engine μ) (bs : List Batch) :
    (e.tallyAfter bs).unsafeTrajectories = [] := by
  induction bs using List.reverseRecOn with
  | nil => rfl
  | append_singleton bs b ih =>
    rw [tallyAfter_concat]
    exact ih

theorem valid_tallyAfter (e : Engine μ) (bs : List Batch) :
    (e.tallyAfter bs).valid = (bs.flatMap Batch.trajectories).countP e.log.admits := by
  induction bs using List.reverseRecOn with
  | nil => rfl
  | append_singleton bs b ih =>
    have hc : (e.counted (e.tallyAfter bs) b).valid =
        (e.tallyAfter bs).valid + (e.validOf b).length := rfl
    rw [tallyAfter_concat, hc, ih, validOf, ← List.countP_eq_length_filter, List.flatMap_append,
      List.countP_append, List.flatMap_singleton]

theorem total_tallyAfter (e : Engine μ) (bs : List Batch) :
    (e.tallyAfter bs).total =
      min (bs.length * e.sampling.batchSize) e.sampling.maxAttempts := by
  induction bs using List.reverseRecOn with
  | nil => simp [tallyAfter]
  | append_singleton bs b ih =>
    have hc : (e.counted (e.tallyAfter bs) b).total =
        (e.tallyAfter bs).total + e.batchCount (e.tallyAfter bs) := rfl
    rw [tallyAfter_concat, hc, batchCount, ih, List.length_append, List.length_singleton,
      Nat.succ_mul]
    omega

theorem history_nil (e : Engine μ) (required : Nat) : e.History required [] := by
  intro earlier b h
  simp at h

theorem history_concat {e : Engine μ} {required : Nat} {bs : List Batch} {b : Batch}
    (h : e.History required bs) (hb : e.DrawnAfter required bs b) :
    e.History required (bs ++ [b]) := by
  intro earlier c hp
  rcases List.prefix_concat_iff.1 hp with heq | hp
  · obtain ⟨rfl, hc⟩ := List.append_inj' heq rfl
    cases hc
    exact hb
  · exact h earlier c hp

theorem clean_iff (e : Engine μ) (b : Batch) :
    firstUnsafe e.constraints (e.validOf b) = none ↔ e.Clean b := by
  unfold firstUnsafe Clean validOf
  rw [firstFinding_eq_none_iff]
  simp only [List.mem_filter, and_imp]

/-- Every trajectory of a history is as the simulator makes them. -/
theorem produced_of_history {e : Engine μ} {required : Nat} {bs : List Batch}
    {P : State → Prop} (hm : e.model.Keeps True P)
    (hP : ∀ g : Generator, P (g.sampleBox e.log.first.region).1) (h : e.History required bs)
    {t : Trajectory} (ht : t ∈ bs.flatMap Batch.trajectories) : e.simulator.Produced P t := by
  obtain ⟨b, hb, htb⟩ := List.mem_flatMap.1 ht
  obtain ⟨earlier, later, rfl⟩ := List.append_of_mem hb
  obtain ⟨-, -, w, w', hdrawn⟩ := h earlier b ⟨later, by simp⟩
  have hbatch := e.simulator.ends_batch hm e.log.first.region
    (e.batchCount (e.tallyAfter earlier)) (.inr trivial) hP w
  rw [hdrawn] at hbatch
  exact hbatch.2 t htb

theorem stopReason?_eq_none_iff {e : Engine μ} {t : Tally} {cancelled late : Bool} :
    e.stopReason? t cancelled late = none ↔
      cancelled = false ∧ late = false ∧ t.total < e.sampling.maxAttempts := by
  unfold stopReason?
  cases cancelled <;> cases late <;> simp

/-- What a run has counted, and what is known of its batches, when it stands between two of them. -/
theorem Reaches.history {e : Engine μ} {signals : Nat → Signals} {p q : Pending μ}
    {bs : List Batch} (h : e.Reaches signals p bs q) (hp : p.tally = {}) :
    q.required = p.required ∧ q.audit = p.audit ∧ q.tally = e.tallyAfter bs ∧
      e.History p.required bs ∧ ∀ b ∈ bs, e.Clean b := by
  induction h with
  | start => exact ⟨rfl, rfl, hp, e.history_nil _, by simp⟩
  | @step bs q q' b _ hd ha ih =>
    obtain ⟨hreq, haudit, htally, hhist, hclean⟩ := ih
    have hm := e.advance_move q (signals q.tally.batches)
    rw [ha] at hm
    cases hm with
    | counted c w events hr hs hb hf =>
      obtain rfl : c = b := Option.some.inj ((draw?_of_batch hr hs hb).symm.trans hd)
      have hdrawn : e.DrawnAfter p.required bs c := by
        rw [htally] at hr hs hb
        rw [hreq] at hr
        exact ⟨hr, (stopReason?_eq_none_iff.1 hs).2.2, _, _, hb⟩
      refine ⟨hreq, haudit, ?_, history_concat hhist hdrawn, ?_⟩
      · rw [tallyAfter_concat, ← htally]
      · intro c' hc'
        rcases List.mem_append.1 hc' with hc' | hc'
        · exact hclean c' hc'
        · rw [List.mem_singleton.1 hc']
          exact (clean_iff e c).1 hf

/-! ## Reports -/

/-- The reports that a run which needs `required` samples can end with, by the batches that it drew:
a flagged entry of the log, or after sampling enough valid trajectories, a reason to stop, or a
violation in the last batch. -/
inductive Reported (e : Engine μ) (required : Nat) : List Batch → Report → Prop
  | flagged (index : Nat) (v : Violation)
      (hfirst : (auditLog e.constraints e.log).first = some (index, v)) :
    Reported e required []
      (e.report required (auditLog e.constraints e.log) {} (.violated v (.logEntry index)))
  | safe (bs : List Batch) (hfirst : (auditLog e.constraints e.log).first = none)
      (hist : e.History required bs) (clean : ∀ b ∈ bs, e.Clean b)
      (enough : required ≤ (e.tallyAfter bs).valid) :
    Reported e required bs
      (e.report required (auditLog e.constraints e.log) (e.tallyAfter bs) .safe)
  | stopped (bs : List Batch) (reason : StopReason) (cancelled late : Bool)
      (hfirst : (auditLog e.constraints e.log).first = none)
      (hist : e.History required bs) (clean : ∀ b ∈ bs, e.Clean b)
      (short : (e.tallyAfter bs).valid < required)
      (hstop : e.stopReason? (e.tallyAfter bs) cancelled late = some reason) :
    Reported e required bs
      (e.report required (auditLog e.constraints e.log) (e.tallyAfter bs) (.inconclusive reason))
  | found (bs : List Batch) (b : Batch) (index : Nat) (v : Violation)
      (hfirst : (auditLog e.constraints e.log).first = none)
      (hist : e.History required (bs ++ [b])) (clean : ∀ b ∈ bs, e.Clean b)
      (hfound : firstUnsafe e.constraints (e.validOf b) = some (index, v)) :
    Reported e required (bs ++ [b])
      (e.report required (auditLog e.constraints e.log) (e.violating (e.tallyAfter bs) b)
        (.violated v (.trajectory bs.length index)))

/-- Every report of a run is one that its batches allow. -/
theorem run_reported {e : Engine μ} {signals : Nat → Signals} {s : Status μ} {r : Report}
    (h : (e.run signals s).result = .ok r) :
    ∃ required, e.answer s = .ok required ∧ e.Reported required (e.batches signals s) r := by
  have hcourse := e.run_course signals s
  generalize e.run signals s = outcome at h hcourse
  generalize e.batches signals s = drawn at hcourse
  cases hcourse with
  | refused => cases h
  | flagged required index v w ha hfirst =>
    cases h
    exact ⟨required, ha, .flagged index v hfirst⟩
  | sampled required events bs q outcome ha hfirst hreach hmove =>
    refine ⟨required, ha, ?_⟩
    obtain ⟨hreq, haudit, htally, hhist, hclean⟩ := hreach.history rfl
    replace hreq : q.required = required := hreq
    replace haudit : q.audit = auditLog e.constraints e.log := haudit
    cases hmove with
    | enough hr =>
      cases h
      have hd : e.draw? q (signals q.tally.batches) = none := by simp [draw?, hr]
      rw [hd, Option.toList_none, List.append_nil, haudit, htally, hreq]
      rw [htally, hreq] at hr
      exact .safe bs hfirst hhist hclean hr
    | stopped reason w hr hs hmem hc =>
      cases h
      have hd : e.draw? q (signals q.tally.batches) = none := by
        simp [draw?, Nat.not_le.2 hr, hs]
      rw [hd, Option.toList_none, List.append_nil, haudit, htally, hreq]
      rw [htally] at hr hs
      rw [hreq] at hr
      exact .stopped bs reason _ _ hfirst hhist hclean hr hs
    | failed err w hr hs hb => cases h
    | found b w events index v hr hs hb hf =>
      cases h
      rw [draw?_of_batch hr hs hb, Option.toList_some, haudit, htally, hreq, batches_tallyAfter]
      rw [htally] at hr hs hb
      rw [hreq] at hr
      exact .found bs b index v hfirst
        (history_concat hhist ⟨hr, (stopReason?_eq_none_iff.1 hs).2.2, _, _, hb⟩) hclean hf

end Engine

end TrajectorySafety
