import TrajectorySafety.Model.Affine
import TrajectorySafety.Proofs.Bound.Cache
import TrajectorySafety.Proofs.Success
import TrajectorySafety.Proofs.Verification.Run

/-!
What an accepted engine is made of, and the statuses that it can be in.

`Engine.make` accepts an engine exactly when its parts fit together (`make_ok`, `make_eq_ok`). A
status is reachable when it is fresh, left behind by a run, or cancelled from outside; in all of
these the remembered sample counts are those of the rule, so that a run never works with a count of
zero (`answer_of_reachable`).
-/

namespace TrajectorySafety

/-! ## Constraints -/

theorem constraintFault?_eq_none_iff (dimension i : Nat) (cs : List Constraint) :
    constraintFault? dimension i cs = none ↔
      ∀ c ∈ cs, c.coordinate < dimension ∧ c.threshold.isFinite = true := by
  induction cs generalizing i with
  | nil => simp [constraintFault?]
  | cons c cs ih =>
    rw [constraintFault?, List.forall_mem_cons]
    by_cases hc : dimension ≤ c.coordinate
    · simp only [hc, if_true, reduceCtorEq, false_iff, not_and]
      omega
    · by_cases ht : c.threshold.isFinite = true
      · simp only [hc, ht, if_false, Bool.not_true, Bool.false_eq_true]
        rw [ih]
        exact ⟨fun h => ⟨⟨by omega, trivial⟩, h⟩, fun h => h.2⟩
      · simp [hc, ht]

theorem validateConstraints_eq_ok_iff (cs : List Constraint) (dimension : Nat) :
    validateConstraints cs dimension = .ok () ↔
      cs ≠ [] ∧ ∀ c ∈ cs, c.coordinate < dimension ∧ c.threshold.isFinite = true := by
  rw [← constraintFault?_eq_none_iff dimension 0 cs, validateConstraints]
  cases cs with
  | nil => simp
  | cons c cs =>
    cases constraintFault? dimension 0 (c :: cs) <;> simp

namespace Engine

variable {μ : Type}

/-! ## Accepted engines -/

theorem make_ok {config : Config} {model : StepModel μ} {cs : List Constraint}
    {log : UncertaintyLog} (hd : ∀ d, model.dimension = some d → d = log.dimension)
    (hcs : validateConstraints cs log.dimension = .ok ())
    (hl : log.maxTime < config.sampling.horizon) (hb : 0 < config.sampling.batchSize) :
    make config model cs log =
      .ok ⟨model, config.guard, log, cs, config.bound, config.sampling, config.seed, hl, hb⟩ := by
  have hfilter : model.dimension.filter (fun d => decide (d ≠ log.dimension)) = none := by
    cases hm : model.dimension with
    | none => rfl
    | some d => simp [Option.filter, hd d hm]
  simp only [make, hfilter, hcs, hl, hb, dif_pos]
  rfl

/-- An accepted engine has the parts that it was made of, and they fit together. -/
theorem exists_of_make {config : Config} {model : StepModel μ} {cs : List Constraint}
    {log : UncertaintyLog} {e : Engine μ} (h : make config model cs log = .ok e) :
    ∃ hl hb,
      e = ⟨model, config.guard, log, cs, config.bound, config.sampling, config.seed, hl, hb⟩ ∧
      (∀ d, model.dimension = some d → d = log.dimension) ∧
      ∀ c ∈ cs, c.coordinate < log.dimension ∧ c.threshold.isFinite = true := by
  cases hf : model.dimension.filter fun d => decide (d ≠ log.dimension) with
  | some d =>
    simp only [make, hf, bind, Except.bind, throw, throwThe, MonadExceptOf.throw,
      reduceCtorEq] at h
  | none =>
    cases hv : validateConstraints cs log.dimension with
    | error fault =>
      simp only [make, hf, hv, bind, Except.bind, reduceCtorEq] at h
    | ok u =>
      have hdim : ∀ d, model.dimension = some d → d = log.dimension := by
        intro d hd
        simpa [hd, Option.filter] using hf
      simp only [make, hf, hv, bind, Except.bind, pure, Except.pure] at h
      split at h
      · split at h
        · cases h
          exact ⟨_, _, rfl, hdim, ((validateConstraints_eq_ok_iff _ _).1 hv).2⟩
        · cases h
      · cases h

theorem make_eq_ok {config : Config} {model : StepModel μ} {cs : List Constraint}
    {log : UncertaintyLog} {e : Engine μ} (h : make config model cs log = .ok e) :
    e.model = model ∧ e.guard = config.guard ∧ e.log = log ∧ e.constraints = cs ∧
      e.bound = config.bound ∧ e.sampling = config.sampling ∧
      (∀ d, model.dimension = some d → d = log.dimension) ∧
      ∀ c ∈ cs, c.coordinate < log.dimension ∧ c.threshold.isFinite = true := by
  obtain ⟨hl, hb, rfl, hdim, hcs⟩ := exists_of_make h
  exact ⟨rfl, rfl, rfl, rfl, rfl, rfl, hdim, hcs⟩

/-! ## Statuses -/

/-- The statuses that an engine can be in: fresh (with a cancel flag that may already be set), left
behind by a run, or cancelled from outside. -/
inductive Reachable (e : Engine μ) : Status μ → Prop
  | fresh (memory : μ) (cancelled : Bool) : Reachable e { memory, cancelled }
  | run {s : Status μ} (h : Reachable e s) (signals : Nat → Signals) :
    Reachable e (e.run signals s).status
  | cancel {s : Status μ} (h : Reachable e s) : Reachable e { s with cancelled := true }

end Engine

/-- A rule asks for at least one sample. -/
theorem BoundStrategy.one_le_rule {strategy : BoundStrategy} {budget confidence : Float} {k : Nat}
    (h : strategy.rule budget confidence = .ok k) : 1 ≤ k := by
  have hcount : ∀ x, 1 ≤ SampleRule.count x := fun x => Nat.le_max_right _ _
  cases hc : SampleRule.checkInputs budget confidence with
  | error fault =>
    cases strategy <;>
      simp [rule, SampleRule.jeffreys, SampleRule.betaPosterior, hc, bind, Except.bind] at h
  | ok u =>
    cases strategy <;>
      simp only [rule, SampleRule.jeffreys, SampleRule.betaPosterior, hc, bind, Except.bind, pure,
        Except.pure, Except.ok.injEq] at h <;> rw [← h] <;> exact hcount _

namespace Engine

variable {μ : Type}

theorem Reaches.cache_eq {e : Engine μ} {signals : Nat → Signals} {p q : Pending μ}
    {bs : List Batch} (h : e.Reaches signals p bs q) : q.cache = p.cache := by
  induction h with
  | start => rfl
  | @step bs q q' b _ hd ha ih =>
    have hm := e.advance_move q (signals q.tally.batches)
    rw [ha] at hm
    cases hm with
    | counted => exact ih

/-- A run leaves the cache as its one question left it. -/
theorem cache_run (e : Engine μ) (signals : Nat → Signals) (s : Status μ) :
    (e.run signals s).status.cache = e.asked s := by
  have hcourse := e.run_course signals s
  generalize e.run signals s = outcome at hcourse
  generalize e.batches signals s = drawn at hcourse
  cases hcourse with
  | refused => rfl
  | flagged => rfl
  | sampled required events bs q outcome ha hfirst hreach hmove =>
    have hcache : q.cache = e.asked s := hreach.cache_eq
    cases hmove <;> exact hcache

theorem faithful_of_reachable {e : Engine μ} {s : Status μ} (h : e.Reachable s) :
    s.cache.Faithful BoundCache.bits (Function.uncurry e.bound.strategy.rule) := by
  induction h with
  | fresh memory cancelled => exact BoundCache.faithful_empty _ _
  | run h signals ih =>
    rw [cache_run]
    exact (BoundCache.required_of_faithful ih _ _).2
  | cancel h ih => exact ih

/-- However an engine was used before, a run works with the count of its rule, which is positive. -/
theorem answer_of_reachable {e : Engine μ} {s : Status μ} (h : e.Reachable s) :
    e.answer s = e.bound.strategy.rule e.bound.budget e.bound.confidence ∧
      ∀ k, e.answer s = .ok k → 1 ≤ k := by
  have ha : e.answer s = e.bound.strategy.rule e.bound.budget e.bound.confidence :=
    (BoundCache.required_of_faithful (faithful_of_reachable h) _ _).1
  exact ⟨ha, fun k hk => BoundStrategy.one_le_rule (ha ▸ hk)⟩

/-! ## A random walk, for examples -/

/-- A walk on the line with steps of up to one half. -/
def walk : Affine := ⟨[[1]], [0], [0.5]⟩

/-- Settings that ask for six samples in batches of two, and keep no examples. -/
def walkConfig (seed : UInt64) : Config :=
  { seed
    sampling := { horizon := 4, batchSize := 2, maxAttempts := 20, retain := 0 }
    bound := { budget := 64, confidence := 0.5 } }

/-- A walk that was seen in the unit interval at times 0 and 2. -/
def walkLog : UncertaintyLog := ⟨[⟨⟨[⟨0, 1⟩]⟩, 0⟩, ⟨⟨[⟨0, 1⟩]⟩, 2⟩], rfl⟩

/-- The walk must stay below a threshold. -/
def walkEngine (seed : UInt64) (threshold : Float) : Engine Unit :=
  ⟨.affine walk, (walkConfig seed).guard, walkLog, [⟨0, .ge, threshold⟩], (walkConfig seed).bound,
    (walkConfig seed).sampling, seed, show 2 < 4 by decide, show 0 < 2 by decide⟩

theorem make_walk (seed : UInt64) (threshold : Float) (h : threshold.isFinite = true) :
    make (walkConfig seed) (.affine walk) [⟨0, .ge, threshold⟩] walkLog =
      .ok (walkEngine seed threshold) :=
  make_ok (fun _ hd => Option.some.inj hd.symm)
    ((validateConstraints_eq_ok_iff _ _).2 ⟨by simp, by simpa using ⟨by decide, h⟩⟩) _ _

end Engine

/-- Whether a verdict reports a violation from the given source. -/
def Verdict.isFrom (verdict : Verdict) (source : WitnessSource) : Bool :=
  match verdict with
  | .violated _ found => found == source
  | _ => false

theorem Verdict.eq_violated_of_isFrom {verdict : Verdict} {source : WitnessSource}
    (h : verdict.isFrom source = true) : ∃ v, verdict = .violated v source := by
  cases verdict with
  | safe => cases h
  | inconclusive reason => cases h
  | violated v found =>
    obtain rfl : found = source := beq_iff_eq.1 h
    exact ⟨v, rfl⟩

theorem Verdict.eq_safe_of_isSafe {verdict : Verdict} (h : verdict.isSafe = true) :
    verdict = .safe := by
  cases verdict with
  | safe => rfl
  | violated v source => cases h
  | inconclusive reason => cases h

end TrajectorySafety
