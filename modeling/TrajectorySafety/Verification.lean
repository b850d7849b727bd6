import TrajectorySafety.Config
import TrajectorySafety.Safety.Evaluation
import TrajectorySafety.Simulation
import TrajectorySafety.Validity
import TrajectorySafety.Verification.Report

/-!
Verification by sampling.

A run computes the number `K` of samples that it needs, checks every logged box, and then samples
batches of trajectories that start in the first logged box. Of each batch it keeps the trajectories
that agree with the log and checks them before they are counted. It ends with a violation, with `K`
valid trajectories and none, or early: cancelled, out of time or out of attempts. Whether to end is
decided between batches only.

`Engine.begin`, `Engine.advance` and `Engine.drive` are the run as a machine that takes one batch a
step, so that whoever holds a clock can step it; `Engine.run` is the whole run under given signals.
-/

namespace TrajectorySafety

open TrajectorySafety.Random

/-- Where a run stands. -/
inductive Phase where
  | init
  | logCheck
  | sampling
  | safe
  | violated
  | inconclusive
deriving Repr, DecidableEq

namespace Phase

/-- The phase that a verdict leaves behind. -/
def ofVerdict : Verdict → Phase
  | .safe => safe
  | .violated .. => violated
  | .inconclusive .. => inconclusive

/-- Whether a run has ended with a verdict. -/
def isTerminal : Phase → Bool
  | safe | violated | inconclusive => true
  | _ => false

end Phase

/-- What comes from outside between two batches. -/
structure Signals where
  /-- Somebody asked to cancel the run. -/
  cancelled : Bool := false
  /-- The time limit has passed. -/
  late : Bool := false
deriving Repr, DecidableEq

/-- The counts of a run and the examples that it keeps. -/
structure Tally where
  total : Nat := 0
  valid : Nat := 0
  batches : Nat := 0
  diverged : Nat := 0
  safeTrajectories : Array Trajectory := #[]
  unsafeTrajectories : List Trajectory := []
deriving Repr

/-- Keeps further safe examples as far as there is room. -/
def Tally.keepSafe (t : Tally) (ts : List Trajectory) (room : Nat) : Tally :=
  { t with
    safeTrajectories := t.safeTrajectories ++ ts.take (room - t.safeTrajectories.size) }

/-- A verification that fits together: the log has the dimension of the model and ends before the
horizon, and a batch is not empty. -/
structure Engine (μ : Type) where
  model : StepModel μ
  guard : Guard
  log : UncertaintyLog
  constraints : List Constraint
  bound : BoundConfig
  sampling : SamplingConfig
  seed : UInt64
  log_fits : log.maxTime < sampling.horizon
  batch_pos : 0 < sampling.batchSize

/-- What an engine keeps from run to run. -/
structure Status (μ : Type) where
  memory : μ
  cancelled : Bool := false
  phase : Phase := .init
  cache : BoundCache := {}

/-- The end of a run: a report or an error, what the engine keeps, and the diagnostics. -/
structure Outcome (μ : Type) where
  result : Except Error Report
  status : Status μ
  events : Array Event

/-- A run between two batches. -/
structure Pending (μ : Type) where
  required : Nat
  audit : LogAudit
  tally : Tally
  /-- The generator that hands out one child for each batch. -/
  master : Generator
  cache : BoundCache
  world : World μ

/-- What a batch leads to. -/
inductive Turn where
  | stop (verdict : Verdict) (tally : Tally)
  | next (tally : Tally)
deriving Repr

/-- Notes a violation in a sampled trajectory. -/
def Turn.announce {μ : Type} : Turn → Sim μ Unit
  | .stop (.violated v (.trajectory batch index)) _ => Sim.note (.sampleViolates v.text batch index)
  | _ => pure ()

namespace Engine

variable {μ : Type}

/-- An engine for a model and constraints, if the log fits them. -/
def make (config : Config) (model : StepModel μ) (constraints : List Constraint)
    (log : UncertaintyLog) : Except Fault (Engine μ) := do
  match model.dimension.filter (· ≠ log.dimension) with
  | some expected => throw (.logDimension log.dimension model.name expected)
  | none => pure ()
  validateConstraints constraints log.dimension
  if hl : log.maxTime < config.sampling.horizon then
    if hb : 0 < config.sampling.batchSize then
      return {
        model, log, constraints
        guard := config.guard
        bound := config.bound
        sampling := config.sampling
        seed := config.seed
        log_fits := hl
        batch_pos := hb }
    else throw .zeroBatch
  else throw (.logHorizon log.maxTime config.sampling.horizon)

/-- An engine with the model and the constraints of a configuration. -/
def ofConfig (config : Config) (log : UncertaintyLog) : Except Fault (Engine Unit) := do
  let model ← config.model.build
  let constraints ← config.constraints
  make config model constraints log

/-- The simulator of the engine's trajectories. -/
def simulator (e : Engine μ) : Simulator μ :=
  ⟨e.model, e.guard, e.sampling.horizon, Nat.zero_lt_of_lt e.log_fits⟩

/-- The next batch has the usual size unless fewer attempts are left. -/
def batchCount (e : Engine μ) (t : Tally) : Nat :=
  min e.sampling.batchSize (e.sampling.maxAttempts - t.total)

/-- Why sampling has to end here. -/
def stopReason? (e : Engine μ) (t : Tally) (cancelled late : Bool) : Option StopReason :=
  if cancelled then some .cancelled
  else if late then some .timedOut
  else if e.sampling.maxAttempts ≤ t.total then some .attemptsExhausted
  else none

/-- Counts a batch of which `valid` agree with the log. A violation among them ends the run before
they are counted as valid. -/
def judge (e : Engine μ) (t : Tally) (batch : Batch) (valid : List Trajectory) : Turn :=
  let seen := { t with
    total := t.total + e.batchCount t
    batches := t.batches + 1
    diverged := t.diverged + batch.diverged }
  match firstUnsafe e.constraints valid with
  | some (index, v) =>
    let (safe, violating) := splitTrajectories e.constraints valid
    .stop (.violated v (.trajectory t.batches index))
      { seen.keepSafe safe e.sampling.retain with
        unsafeTrajectories := violating.take (max e.sampling.retain 1) }
  | none => .next ({ seen with valid := t.valid + valid.length }.keepSafe valid e.sampling.retain)

/-- Samples, filters and checks one batch with draws from `g`. -/
def sampleBatch (e : Engine μ) (t : Tally) (g : Generator) : Sim μ Turn := do
  modify fun w => { w with generator := g }
  let batch ← e.simulator.batch e.log.first.region (e.batchCount t)
  let w ← get
  let valid := (e.log.split batch.trajectories).1
  Sim.note (.batchFiltered t.batches w.generator.stream.toNat (e.batchCount t) valid.length
    batch.diverged)
  let turn := e.judge t batch valid
  turn.announce
  return turn

/-- One step between batches: enough valid trajectories, a reason to stop, or another batch. -/
def turn (e : Engine μ) (required : Nat) (t : Tally) (signals : Signals) (g : Generator) :
    Sim μ Turn :=
  if required ≤ t.valid then pure (.stop .safe t)
  else do
    modify fun w => { w with cancelled := w.cancelled || signals.cancelled }
    let w ← get
    match e.stopReason? t w.cancelled signals.late with
    | some reason =>
      Sim.note (.samplingStopped reason.text t.valid required)
      return .stop (.inconclusive reason) t
    | none => e.sampleBatch t g

/-- The report of a run, its time left to whoever holds a clock. -/
def report (e : Engine μ) (required : Nat) (audit : LogAudit) (t : Tally) (verdict : Verdict) :
    Report where
  verdict := verdict
  strategy := e.bound.strategy.name
  required := required
  elapsedSeconds := 0
  total := t.total
  valid := t.valid
  batches := t.batches
  diverged := t.diverged
  safeTrajectories := t.safeTrajectories.toList
  unsafeTrajectories := t.unsafeTrajectories
  safeEntries := audit.safe
  unsafeEntries := audit.unsafeEntries

/-- The end of a run with a verdict. -/
def conclude (e : Engine μ) (required : Nat) (audit : LogAudit) (cache : BoundCache)
    (verdict : Verdict) (t : Tally) (w : World μ) : Outcome μ where
  result := .ok (e.report required audit t verdict)
  status := ⟨w.memory, w.cancelled, .ofVerdict verdict, cache⟩
  events := w.events.push (.finished verdict.label t.total t.valid)

/-- Another batch of a run, or its end. -/
def advance (e : Engine μ) : Pending μ → Signals → Outcome μ ⊕ Pending μ
  | ⟨required, audit, tally, master, cache, world⟩, signals =>
    let (child, master) := master.fork
    match e.turn required tally signals child world with
    | .error err w => .inl ⟨.error err, ⟨w.memory, w.cancelled, .sampling, cache⟩, w.events⟩
    | .ok (.stop verdict t) w => .inl (e.conclude required audit cache verdict t w)
    | .ok (.next t) w => .inr ⟨required, audit, t, master, cache, w⟩

/-- The start of a run: the number of samples and the check of the log. A logged box that may
violate a constraint ends the run at once. -/
def begin (e : Engine μ) (s : Status μ) : Outcome μ ⊕ Pending μ :=
  let (answer, cache) :=
    s.cache.required e.bound.strategy.rule e.bound.budget e.bound.confidence
  match answer with
  | .error fault => .inl ⟨.error (.config fault), { s with phase := .init, cache }, #[]⟩
  | .ok required =>
    let audit := auditLog e.constraints e.log
    let events := #[
      .boundComputed e.bound.strategy.name e.bound.budget e.bound.confidence required,
      .logChecked e.log.length audit.unsafeEntries.length]
    let p : Pending μ := {
      required, audit, cache
      tally := {}
      master := .ofSeed e.seed
      world := ⟨.ofSeed e.seed, s.memory, s.cancelled, events⟩ }
    match audit.first with
    | some (index, v) =>
      let w := { p.world with events := events.push (.boxMayViolate v.text index) }
      .inl (e.conclude required audit cache (.violated v (.logEntry index)) {} w)
    | none =>
      let started := Event.samplingStarted e.model.name e.seed.toNat e.model.batched
        e.sampling.batchSize e.sampling.horizon
      .inr { p with world := { p.world with events := events.push started } }

theorem judge_next {e : Engine μ} {t t' : Tally} {b : Batch} {valid : List Trajectory}
    (h : e.judge t b valid = .next t') : t'.total = t.total + e.batchCount t := by
  unfold judge at h
  cases hf : firstUnsafe e.constraints valid with
  | some found => rw [hf] at h; simp at h
  | none =>
    rw [hf] at h
    simp only [Turn.next.injEq] at h
    rw [← h]
    rfl

theorem sampleBatch_next {e : Engine μ} {t t' : Tally} {g : Generator} {w w' : World μ}
    (h : e.sampleBatch t g w = .ok (.next t') w') : t'.total = t.total + e.batchCount t := by
  simp only [sampleBatch, Sim.bind_apply, Sim.modify_apply] at h
  split at h
  · simp only [Sim.get_apply, Sim.note_apply] at h
    split at h
    · simp only [Sim.pure_apply, EStateM.Result.ok.injEq] at h
      exact judge_next h.1
    · simp at h
  · simp at h

theorem turn_next {e : Engine μ} {required : Nat} {t t' : Tally} {signals : Signals}
    {g : Generator} {w w' : World μ} (h : e.turn required t signals g w = .ok (.next t') w') :
    t.total < e.sampling.maxAttempts ∧ t'.total = t.total + e.batchCount t := by
  unfold turn at h
  by_cases hr : required ≤ t.valid
  · simp [hr] at h
  · simp only [hr, if_false, Sim.bind_apply, Sim.modify_apply, Sim.get_apply] at h
    cases hs : e.stopReason? t (w.cancelled || signals.cancelled) signals.late with
    | some reason =>
      simp [hs] at h
    | none =>
      rw [hs] at h
      refine ⟨?_, sampleBatch_next h⟩
      unfold stopReason? at hs
      by_cases hm : e.sampling.maxAttempts ≤ t.total
      · cases hc : (w.cancelled || signals.cancelled) <;> cases hl : signals.late <;>
          simp [hc, hl, hm] at hs
      · omega

theorem advance_next {e : Engine μ} {p p' : Pending μ} {signals : Signals}
    (h : e.advance p signals = .inr p') :
    e.sampling.maxAttempts - p'.tally.total < e.sampling.maxAttempts - p.tally.total := by
  obtain ⟨required, audit, tally, master, cache, world⟩ := p
  unfold advance at h
  generalize master.fork = f at h
  obtain ⟨child, master⟩ := f
  simp only at h
  split at h
  · simp at h
  · simp at h
  · rename_i t w heq
    obtain ⟨hlt, htot⟩ := turn_next heq
    simp only [Sum.inr.injEq] at h
    have hb := e.batch_pos
    rw [← h]
    unfold batchCount at htot
    simp only
    omega

/-- Steps a run to its end; `signals n` is what comes from outside after `n` batches. -/
def drive (e : Engine μ) (signals : Nat → Signals) (p : Pending μ) : Outcome μ :=
  match h : e.advance p (signals p.tally.batches) with
  | .inl outcome => outcome
  | .inr p' =>
    have := advance_next h
    e.drive signals p'
termination_by e.sampling.maxAttempts - p.tally.total

theorem drive_of_inl {e : Engine μ} {signals : Nat → Signals} {p : Pending μ} {outcome : Outcome μ}
    (h : e.advance p (signals p.tally.batches) = .inl outcome) : e.drive signals p = outcome := by
  rw [drive]
  split
  · next h' => exact Sum.inl.inj (h'.symm.trans h)
  · next h' => cases h'.symm.trans h

theorem drive_of_inr {e : Engine μ} {signals : Nat → Signals} {p next : Pending μ}
    (h : e.advance p (signals p.tally.batches) = .inr next) :
    e.drive signals p = e.drive signals next := by
  rw [drive]
  split
  · next h' => cases h'.symm.trans h
  · next h' =>
    cases h'.symm.trans h
    rfl

/-- A whole run. -/
def run (e : Engine μ) (signals : Nat → Signals) (s : Status μ) : Outcome μ :=
  match e.begin s with
  | .inl outcome => outcome
  | .inr p => e.drive signals p

/-- The signals of a clock that stands still: a time limit that rounds to nothing has passed from
the start, and any other never passes. -/
def stillClock (e : Engine μ) (_ : Nat) : Signals := { late := e.sampling.timeout? == some 0 }

end Engine

/-- What separates the seed of the reference trajectory from that of the samples. -/
def referenceSeedOffset : UInt64 := 0x5EED0F10C5

/-- A reference trajectory from the initial set of a configuration, and its log. The draws come from
the generator of the world. -/
def referenceFrom {μ : Type} (simulator : Simulator μ) (recorder : LogRecorder) (region : Box) :
    Sim μ (Trajectory × UncertaintyLog) := do
  let initial ← Sim.draw region
  let reference ← simulator.simulate initial
  if reference.isTruncated then
    Sim.note (.referenceTruncated reference.length reference.horizon)
  let w ← get
  let (answer, g) := recorder.record reference w.generator
  set { w with generator := g }
  match answer with
  | .error fault => throw (.config fault)
  | .ok log =>
    Sim.note (.logGenerated log.length recorder.probability)
    return (reference, log)

/-- The reference trajectory and the log of a configuration, and the world that they leave. -/
def referenceLog {μ : Type} (config : Config) (model : StepModel μ) (memory : μ) :
    EStateM.Result Error (World μ) (Trajectory × UncertaintyLog) :=
  let seed := config.seed + referenceSeedOffset
  let w : World μ := { generator := .ofSeed seed, memory }
  let setup : Except Fault (Simulator μ × LogRecorder × Box) := do
    let region ← config.initialRegion
    let recorder ← LogRecorder.make config.log.probability config.log.halfWidth
    let simulator ← Simulator.make model config.guard config.sampling.horizon
    return (simulator, recorder, region)
  match setup with
  | .error fault => .error (.config fault) w
  | .ok (simulator, recorder, region) => referenceFrom simulator recorder region w

end TrajectorySafety
