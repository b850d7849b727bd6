import TrajectorySafety.Proofs.Model.Dimension
import TrajectorySafety.Proofs.Simulation.Guard
import TrajectorySafety.Proofs.Verification.Setup

/-!
A safe verdict is sound.

A run that ends safe has flagged nothing in the log and has seen as many valid trajectories as it
needed. With a guard against non-finite states and a log of proper intervals, these trajectories are
safe in the strict sense: every constrained coordinate is there at every time, is a finite number
and lies on the other side of its threshold (`safe_evidence_of_verdict`). Without the guard a NaN
would satisfy no comparison and so pass every check.
-/

namespace TrajectorySafety

open TrajectorySafety.Random

/-! ## The safe side of a threshold -/

/-- A value lies on the safe side of a threshold. This is an order on numbers, not the absence of a
comparison: a NaN lies on no side. -/
def Operator.Avoids : Operator → (value threshold : Float) → Prop
  | ge, v, c => v < c
  | le, v, c => c < v
  | gt, v, c => v ≤ c
  | lt, v, c => c ≤ v

theorem Operator.avoids_of_not_holds {op : Operator} {v c : Float} (hv : v.isNaN = false)
    (hc : c.isNaN = false) (h : op.holds v c ≠ true) : op.Avoids v c := by
  cases op with
  | ge => exact Number.lt_of_not_le hv hc fun hle => h (decide_eq_true hle)
  | le => exact Number.lt_of_not_le hc hv fun hle => h (decide_eq_true hle)
  | gt => exact Number.le_of_not_lt hv hc fun hlt => h (decide_eq_true hlt)
  | lt => exact Number.le_of_not_lt hc hv fun hlt => h (decide_eq_true hlt)

/-- A constraint is kept by a state: the coordinate is there, finite and on the safe side. -/
def Constraint.KeptBy (c : Constraint) (s : State) : Prop :=
  ∃ x, s.get? c.coordinate = some x ∧ x.isFinite = true ∧ c.op.Avoids x c.threshold

/-! ## Finite states -/

theorem Box.finite_of_contains {b : Box} {s : State} (hb : ∀ i ∈ b.intervals, i.Valid)
    (h : b.contains s = true) : s.Finite := by
  obtain ⟨hd, hall⟩ := (b.contains_iff s).1 h
  intro x hx
  obtain ⟨k, hk⟩ := List.mem_iff_getElem?.1 hx
  have hlt : k < b.intervals.length := by
    have := (List.getElem?_eq_some_iff.1 hk).1
    unfold State.dimension Box.dimension at hd
    omega
  have hi : b.interval? k = some b.intervals[k] := List.getElem?_eq_getElem hlt
  exact Interval.isFinite_of_contains (hb _ (List.getElem_mem hlt)) (hall k _ x hi hk)

/-- A produced trajectory that agrees with the log is finite throughout: at time 0 by the first box,
later by the guard. -/
theorem Simulator.Produced.finite {μ : Type} {sim : Simulator μ} {P : State → Prop}
    {t : Trajectory} {log : UncertaintyLog} (ht : sim.Produced P t)
    (hg : sim.guard.checkFinite = true)
    (hlog : ∀ entry ∈ log.entries, ∀ i ∈ entry.region.intervals, i.Valid)
    (ha : log.admits t = true) : ∀ s ∈ t.states, s.Finite := by
  intro s hs
  obtain ⟨s₀, hs₀, hin⟩ := (log.admits_iff t).1 ha _ log.first_mem
  rw [log.first_time] at hs₀
  have hguarded := ht.grown.guarded
  have hs₀ : t.states[0]? = some s₀ := hs₀
  cases hstates : t.states with
  | nil => exact absurd hstates ht.grown.nonempty
  | cons first rest =>
    rw [hstates] at hs hs₀ hguarded
    rcases List.mem_cons.1 hs with rfl | hs
    · cases hs₀
      exact Box.finite_of_contains (hlog _ log.first_mem) hin
    · exact Guard.finite_of_inspect hg (hguarded s hs)

/-! ## Models of one dimension -/

/-- A model that answers states of dimension `n` by states of dimension `n`. It may fail, draw at
random, diverge, keep a memory and cancel the run. -/
structure StepModel.KeepsDimension {μ : Type} (m : StepModel μ) (n : Nat) : Prop where
  next : ∀ s g memory s', s.dimension = n →
    (m.next s g memory).answer = .ok (.next s') → s'.dimension = n
  nextBatch : ∀ ss g memory steps s', (∀ s ∈ ss, s.dimension = n) →
    (m.nextBatch ss g memory).answer = .ok steps → Step.next s' ∈ steps → s'.dimension = n

theorem StepModel.KeepsDimension.keeps {μ : Type} {m : StepModel μ} {n : Nat}
    (h : m.KeepsDimension n) : m.Keeps True fun s => s.dimension = n := by
  constructor
  · intro s g memory hs
    refine Reply.meets_iff.2 ⟨fun step ha s' hstep => ?_, fun _ _ => trivial⟩
    exact h.next s g memory s' hs (hstep ▸ ha)
  · intro ss g memory hs
    refine Reply.meets_iff.2 ⟨fun steps ha => ⟨.inr trivial, fun s' => ?_⟩, fun _ _ => trivial⟩
    exact h.nextBatch ss g memory steps s' hs ha

theorem keepsDimension_of_keeps {μ : Type} {m : StepModel μ} {n : Nat} {fails : Prop}
    (h : m.Keeps fails fun s => s.dimension = n) : m.KeepsDimension n := by
  constructor
  · intro s g memory s' hs ha
    exact (Reply.meets_iff.1 (h.next s g memory hs)).1 _ ha s' rfl
  · intro ss g memory steps s' hs ha hs'
    exact ((Reply.meets_iff.1 (h.nextBatch ss g memory hs)).1 steps ha).2 s' hs'

/-! ## The verdict -/

/-- The evidence behind a safe verdict: a log in which nothing is flagged, and batches whose valid
trajectories, just enough of them, keep every constraint at every time. -/
structure SafeEvidence (cs : List Constraint) (log : UncertaintyLog) (batches : List Batch)
    (r : Report) : Prop where
  log_unflagged : ∀ entry ∈ log.entries, checkEntry cs entry = none
  required_pos : 1 ≤ r.required
  enough : r.required ≤ r.valid
  last_needed : ∃ earlier last, batches = earlier ++ [last] ∧
    (earlier.flatMap Batch.trajectories).countP log.admits < r.required
  batches_eq : r.batches = batches.length
  valid_eq : r.valid = (batches.flatMap Batch.trajectories).countP log.admits
  kept : ∀ t ∈ batches.flatMap Batch.trajectories, log.admits t = true →
    ∀ s ∈ t.states, ∀ c ∈ cs, c.KeptBy s
  no_unsafe_trajectories : r.unsafeTrajectories = []
  no_unsafe_entries : r.unsafeEntries = []

/-- In a state that has all coordinates, finite, constraints that are not violated are kept. -/
theorem Constraint.keptBy_of_not_violatedBy {c : Constraint} {s : State}
    (hc : c.coordinate < s.dimension) (ht : c.threshold.isFinite = true) (hs : s.Finite)
    (h : ∀ x, ¬ c.ViolatedBy s x) : c.KeptBy s := by
  have hx : s.get? c.coordinate = some s.coordinates[c.coordinate] :=
    List.getElem?_eq_getElem hc
  have hfin := hs _ (List.getElem_mem hc)
  refine ⟨_, hx, hfin, ?_⟩
  exact Operator.avoids_of_not_holds (Number.isNaN_of_isFinite hfin) (Number.isNaN_of_isFinite ht)
    fun hh => h _ ⟨hx, hh⟩

namespace Engine

variable {μ : Type}

/-- Before its last batch a run had too few valid trajectories. -/
theorem last_needed_of_history {e : Engine μ} {required : Nat} {bs : List Batch}
    (hpos : 1 ≤ required) (hist : e.History required bs)
    (enough : required ≤ (e.tallyAfter bs).valid) :
    ∃ earlier last, bs = earlier ++ [last] ∧
      (earlier.flatMap Batch.trajectories).countP e.log.admits < required := by
  rcases List.eq_nil_or_concat bs with rfl | ⟨earlier, last, rfl⟩
  · have hzero : (e.tallyAfter []).valid = 0 := rfl
    omega
  · rw [List.concat_eq_append] at hist ⊢
    have hneeded := (hist earlier last (List.prefix_refl _)).needed
    rw [valid_tallyAfter] at hneeded
    exact ⟨earlier, last, rfl, hneeded⟩

/-- The valid trajectories of a history without violations keep every constraint. -/
theorem kept_of_history {e : Engine μ} {required : Nat} {bs : List Batch}
    (hmodel : e.model.KeepsDimension e.log.dimension) (hguard : e.guard.checkFinite = true)
    (hlog : ∀ entry ∈ e.log.entries, ∀ i ∈ entry.region.intervals, i.Valid)
    (hcs : ∀ c ∈ e.constraints, c.coordinate < e.log.dimension ∧ c.threshold.isFinite = true)
    (hist : e.History required bs) (clean : ∀ b ∈ bs, e.Clean b) :
    ∀ t ∈ bs.flatMap Batch.trajectories, e.log.admits t = true →
      ∀ s ∈ t.states, ∀ c ∈ e.constraints, c.KeptBy s := by
  intro t ht ha s hs c hc
  have hproduced := produced_of_history hmodel.keeps
    (fun g => Simulator.dimension_sampleBox g e.log.first.region) hist ht
  have hfinite := hproduced.finite hguard hlog ha s hs
  have hdim : s.dimension = e.log.dimension := hproduced.grown.keeps s hs
  refine Constraint.keptBy_of_not_violatedBy (hdim ▸ (hcs c hc).1) (hcs c hc).2 hfinite ?_
  intro x hx
  obtain ⟨b, hb, htb⟩ := List.mem_flatMap.1 ht
  obtain ⟨time, htime⟩ := List.mem_iff_getElem?.1 hs
  obtain ⟨k, hk⟩ := List.mem_iff_getElem?.1 hc
  exact (firstViolation_eq_none_iff _ _).1 (clean b hb t htb ha) time k x ⟨s, c, htime, hk, hx⟩

/-- A safe verdict is sound: for an accepted engine with a log of proper intervals and a guard
against non-finite states, and for any model that keeps the dimension of the log, whatever its
draws, failures and divergences and whenever the run is cancelled. -/
theorem safe_evidence_of_verdict {config : Config} {model : StepModel μ} {cs : List Constraint}
    {log : UncertaintyLog} {e : Engine μ} (hmake : make config model cs log = .ok e)
    (hlog : ∀ entry ∈ log.entries, ∀ i ∈ entry.region.intervals, i.Valid)
    (hguard : config.guard.checkFinite = true) (hmodel : model.KeepsDimension log.dimension)
    {s : Status μ} (hs : e.Reachable s) (signals : Nat → Signals) {r : Report}
    (hrun : (e.run signals s).result = .ok r) (hsafe : r.verdict = .safe) :
    SafeEvidence cs log (e.batches signals s) r := by
  obtain ⟨rfl, hg, rfl, rfl, -, -, -, hcs⟩ := make_eq_ok hmake
  obtain ⟨required, hanswer, hreported⟩ := run_reported hrun
  have hpos := (answer_of_reachable hs).2 required hanswer
  generalize e.batches signals s = bs at hreported
  cases hreported with
  | flagged => cases hsafe
  | stopped => cases hsafe
  | found => cases hsafe
  | safe _ hfirst hist clean enough =>
    have hunflagged := (auditLog_first_eq_none_iff _ _).1 hfirst
    exact {
      log_unflagged := hunflagged
      required_pos := hpos
      enough := enough
      last_needed := last_needed_of_history hpos hist enough
      batches_eq := e.batches_tallyAfter bs
      valid_eq := e.valid_tallyAfter bs
      kept := kept_of_history hmodel (hg ▸ hguard) hlog hcs hist clean
      no_unsafe_trajectories := e.unsafeTrajectories_tallyAfter bs
      no_unsafe_entries := unsafeEntries_eq_nil hunflagged }

theorem walk_safe_evidence :
    make (walkConfig 1) (.affine walk) [⟨0, .ge, 1.25⟩] walkLog = .ok (walkEngine 1 1.25) ∧
      ∃ r, ((walkEngine 1 1.25).run (fun _ => {}) { memory := () }).result = .ok r ∧
        r.verdict = .safe ∧ SafeEvidence [⟨0, .ge, 1.25⟩] walkLog
          ((walkEngine 1 1.25).batches (fun _ => {}) { memory := () }) r := by
  have hlog : ∀ entry ∈ walkLog.entries, ∀ i ∈ entry.region.intervals, i.Valid := by
    decide +kernel
  have hmodel := keepsDimension_of_keeps (Affine.keeps_affine (a := walk) rfl rfl)
  obtain ⟨r, hrun, hsafe⟩ : ∃ r,
      ((walkEngine 1 1.25).run (fun _ => {}) { memory := () }).result = .ok r ∧
        r.verdict.isSafe = true := exists_ok_of_any (by decide +kernel)
  have hsafe : r.verdict = .safe := by
    cases hv : r.verdict <;> rw [hv] at hsafe <;> cases hsafe
  have hmake := make_walk 1 1.25 (by decide +kernel)
  exact ⟨hmake, r, hrun, hsafe,
    safe_evidence_of_verdict hmake hlog rfl hmodel (.fresh () false) _ hrun hsafe⟩

end Engine

end TrajectorySafety
