import TrajectorySafety.Proofs.Safety.Subset
import TrajectorySafety.Proofs.Verification.Decision

/-!
More constraints can only make a verdict less safe.

Two runs of a steady model that differ in their constraints draw the same batches. If every
constraint of the one is a constraint of the other, then whatever is decided after a number of
batches stays as it is under more constraints, or a violation is found in the next batch, where
there was none or one no earlier (`tightened_decision`). So a run that is safe under more
constraints is safe under fewer, with the same counts; a violation found under fewer constraints is
met no later under more; and the order and the repetition of constraints do not matter
(`run_of_subset`). Only the constraint that a witness names depends on them.
-/

namespace TrajectorySafety

/-- The first source is met no later than the second: entries of the log before trajectories,
entries by position, and trajectories by batch and then by position. -/
def WitnessSource.NoLater : WitnessSource → WitnessSource → Prop
  | logEntry i, logEntry j => i ≤ j
  | logEntry _, trajectory .. => True
  | trajectory .., logEntry _ => False
  | trajectory b i, trajectory c j => b < c ∨ (b = c ∧ i ≤ j)

theorem WitnessSource.noLater_refl (source : WitnessSource) : source.NoLater source := by
  cases source with
  | logEntry i => exact Nat.le_refl i
  | trajectory b i => exact .inr ⟨rfl, Nat.le_refl i⟩

/-- Where and when a violation was met. -/
def Verdict.met? : Verdict → Option (WitnessSource × Nat)
  | violated v source => some (source, v.time)
  | _ => none

/-- What of a report does not depend on the constraint that its witness names. -/
structure Report.Outline where
  label : String
  met? : Option (WitnessSource × Nat)
  required : Nat
  total : Nat
  valid : Nat
  batches : Nat
  diverged : Nat
  safeTrajectories : List Trajectory
  unsafeTrajectories : List Trajectory

def Report.outline (r : Report) : Outline where
  label := r.verdict.label
  met? := r.verdict.met?
  required := r.required
  total := r.total
  valid := r.valid
  batches := r.batches
  diverged := r.diverged
  safeTrajectories := r.safeTrajectories
  unsafeTrajectories := r.unsafeTrajectories

namespace Engine

variable {μ : Type}

/-- The same engine with other constraints. -/
def constrained (e : Engine μ) (cs : List Constraint) : Engine μ := { e with constraints := cs }

/-! ## Decisions under more constraints -/

/-- What the constraints `ds` instead of `cs` can do to a decision after `k` batches: nothing, or
find a violation in batch `k` where none was found, or one that is no later where one was found. If
`ds` has only constraints of `cs`, what is found is the same but for the constraint it names. -/
inductive Tightened (cs ds : List Constraint) (k : Nat) :
    (before after : Option (Except Error (Verdict × Tally))) → Prop
  | same (d : Option (Except Error (Verdict × Tally))) : Tightened cs ds k d d
  | new (v : Violation) (i : Nat) (t : Tally) (hmore : ¬ ds ⊆ cs) :
    Tightened cs ds k none (some (.ok (.violated v (.trajectory k i), t)))
  | earlier (v v' : Violation) (i i' : Nat) (t t' : Tally) (hle : i' ≤ i)
      (htime : i' = i → v'.time ≤ v.time)
      (hsame : ds ⊆ cs → i' = i ∧ v'.time = v.time ∧ t' = t) :
    Tightened cs ds k (some (.ok (.violated v (.trajectory k i), t)))
      (some (.ok (.violated v' (.trajectory k i'), t')))

section
variable {e : Engine μ} {ds : List Constraint}

theorem violating_constrained (h : e.constraints ⊆ ds) (h' : ds ⊆ e.constraints) (t : Tally)
    (b : Batch) : (e.constrained ds).violating t b = e.violating t b := by
  have hsplit : splitTrajectories (e.constrained ds).constraints ((e.constrained ds).validOf b) =
      splitTrajectories e.constraints (e.validOf b) := splitTrajectories_congr h h' _
  simp only [violating, hsplit]
  rfl

theorem tightened_decision (h : e.constraints ⊆ ds) (memory : μ) (required k : Nat)
    (found : Signals) :
    Tightened e.constraints ds k (e.decision memory required k found)
      ((e.constrained ds).decision memory required k found) := by
  obtain ⟨d, hd⟩ | ⟨short, hgo, b, hb, hf⟩ := e.decision_cases memory required k found
  · rw [decision_of_decided hd]
    cases hd with
    | safe enough =>
      have hd' : (e.constrained ds).Decided memory required k found _ := .safe enough
      rw [decision_of_decided hd']
      exact .same _
    | stopped reason short hstop =>
      have hd' : (e.constrained ds).Decided memory required k found _ :=
        .stopped reason short hstop
      rw [decision_of_decided hd']
      exact .same _
    | failed err short hgo hb =>
      have hd' : (e.constrained ds).Decided memory required k found _ := .failed err short hgo hb
      rw [decision_of_decided hd']
      exact .same _
    | violated b i v short hgo hb hf =>
      obtain ⟨i', v', hf', hle, htime⟩ := (findsToo_firstViolation h).first hf
      have hd' : (e.constrained ds).Decided memory required k found _ :=
        .violated b i' v' short hgo hb hf'
      rw [decision_of_decided hd']
      refine .earlier _ _ _ _ _ _ hle htime fun h' => ?_
      obtain ⟨w, hw, hwtime⟩ :=
        (findsToo_firstViolation h).first_congr (findsToo_firstViolation h') hf
      obtain ⟨rfl, rfl⟩ := Prod.mk.inj (Option.some.inj (hf'.symm.trans hw))
      exact ⟨rfl, hwtime, violating_constrained h h' _ b⟩
  · rw [decision_eq_none short hgo hb hf]
    cases hf' : firstUnsafe ds (e.validOf b) with
    | none =>
      have hnone : (e.constrained ds).decision memory required k found = none :=
        decision_eq_none short hgo hb hf'
      rw [hnone]
      exact .same _
    | some first =>
      have hd' : (e.constrained ds).Decided memory required k found _ :=
        .violated b first.1 first.2 short hgo hb hf'
      rw [decision_of_decided hd']
      refine .new _ _ _ fun h' => ?_
      have hnone : firstUnsafe ds (e.validOf b) = none :=
        (findsToo_firstViolation h').first_eq_none hf
      rw [hf'] at hnone
      cases hnone

/-- Of two sequences of decisions, one of them under more constraints, the first decision under more
constraints is no later; if it is earlier, it is a violation. -/
theorem first_of_tightened {cs : List Constraint}
    {before after : Nat → Option (Except Error (Verdict × Tally))}
    (h : ∀ j, Tightened cs ds j (before j) (after j)) {k k' : Nat}
    {d d' : Except Error (Verdict × Tally)} (hd : before k = some d ∧ ∀ j < k, before j = none)
    (hd' : after k' = some d' ∧ ∀ j < k', after j = none) :
    (k' = k ∧ Tightened cs ds k (some d) (some d')) ∨
      (k' < k ∧ ¬ ds ⊆ cs ∧ ∃ v i t, d' = .ok (.violated v (.trajectory k' i), t)) := by
  rcases Nat.lt_trichotomy k k' with hlt | rfl | hgt
  · have htight := h k
    rw [hd.1, hd'.2 k hlt] at htight
    cases htight
  · have htight := h k
    rw [hd.1, hd'.1] at htight
    exact .inl ⟨rfl, htight⟩
  · have htight := h k'
    rw [hd'.1, hd.2 k' hgt] at htight
    cases htight with
    | new v i t hmore => exact .inr ⟨hgt, hmore, v, i, t, rfl⟩

end

/-! ## Runs under more constraints -/

/-- How the result of a run compares with the result under the constraints `ds`: both end with the
same error or the same decision, or the second one ends with a violation that is no later than any
that the first one ends with. -/
inductive Compared (e : Engine μ) (ds : List Constraint) :
    (before after : Except Error Report) → Prop
  | failed (err : Error) : Compared e ds (.error err) (.error err)
  | decided (required : Nat) (d : Except Error (Verdict × Tally)) :
    Compared e ds (e.resultOf required d) ((e.constrained ds).resultOf required d)
  | violated (x : Except Error Report) (r' : Report) (v' : Violation) (source' : WitnessSource)
      (hverdict : r'.verdict = .violated v' source')
      (hlater : ∀ r v source, x = .ok r → r.verdict = .violated v source →
        source'.NoLater source ∧ (source' = source → v'.time ≤ v.time))
      (hsame : ds ⊆ e.constraints → ∃ r, x = .ok r ∧ r'.outline = r.outline) :
    Compared e ds x (.ok r')

theorem Decided.source_eq {e : Engine μ} {memory : μ} {required k : Nat} {found : Signals}
    {v : Violation} {source : WitnessSource} {t : Tally}
    (h : e.Decided memory required k found (.ok (.violated v source, t))) :
    ∃ i, source = .trajectory k i := by
  cases h with
  | violated b i v short hgo hb hf => exact ⟨i, rfl⟩

/-- Two first decisions, the second one under more constraints. -/
theorem compared_of_firstDecision {e : Engine μ} {ds : List Constraint} {memory : μ}
    {required k k' : Nat} {d d' : Except Error (Verdict × Tally)} (h : e.constraints ⊆ ds)
    (hd : e.decision memory required k {} = some d ∧
      ∀ j < k, e.decision memory required j {} = none)
    (hd' : (e.constrained ds).decision memory required k' {} = some d' ∧
      ∀ j < k', (e.constrained ds).decision memory required j {} = none) :
    e.Compared ds (e.resultOf required d) ((e.constrained ds).resultOf required d') := by
  obtain ⟨rfl, htight⟩ | ⟨hlt, hmore, v', i', t', rfl⟩ :=
    first_of_tightened (fun j => tightened_decision h memory required j {}) hd hd'
  · cases htight with
    | same => exact .decided required d
    | earlier v v' i i' t t' hle htime hsame =>
      refine .violated _ _ v' _ rfl ?_ ?_
      · rintro r w source hr hw
        cases hr
        cases hw
        exact ⟨.inr ⟨rfl, hle⟩, fun heq => htime (WitnessSource.trajectory.inj heq).2⟩
      · intro h'
        obtain ⟨rfl, hwhen, rfl⟩ := hsame h'
        refine ⟨_, rfl, ?_⟩
        simp only [Report.outline, report, Verdict.label, Verdict.met?, hwhen]
  · refine .violated _ _ v' _ rfl ?_ (fun h' => absurd h' hmore)
    intro r v source hr hv
    obtain ⟨verdict, t, rfl, rfl⟩ := resultOf_eq_ok hr
    obtain rfl : verdict = .violated v source := hv
    obtain ⟨i, rfl⟩ := (decided_of_decision hd.1).source_eq
    exact ⟨.inl hlt, fun heq => absurd (WitnessSource.trajectory.inj heq).1 (Nat.ne_of_lt hlt)⟩

/-- Two logs with a flagged entry, the second one under more constraints. -/
theorem compared_of_flagged {e : Engine μ} {ds : List Constraint} {i i' : Nat} {v v' : Violation}
    (h : e.constraints ⊆ ds) (hfirst : (auditLog e.constraints e.log).first = some (i, v))
    (hfirst' : (auditLog ds e.log).first = some (i', v')) (required : Nat)
    (audit audit' : LogAudit) :
    e.Compared ds (.ok (e.report required audit {} (.violated v (.logEntry i))))
      (.ok ((e.constrained ds).report required audit' {} (.violated v' (.logEntry i')))) := by
  rw [auditLog_first] at hfirst hfirst'
  refine .violated _ _ v' _ rfl ?_ ?_
  · rintro r w source hr hw
    cases hr
    cases hw
    obtain ⟨j, w, hfound, hle, htime⟩ := (findsToo_checkEntry h).first hfirst
    obtain ⟨rfl, rfl⟩ := Prod.mk.inj (Option.some.inj (hfound.symm.trans hfirst'))
    exact ⟨hle, fun heq => htime (WitnessSource.logEntry.inj heq)⟩
  · intro h'
    obtain ⟨w, hfound, htime⟩ :=
      (findsToo_checkEntry h).first_congr (findsToo_checkEntry h') hfirst
    obtain ⟨rfl, rfl⟩ := Prod.mk.inj (Option.some.inj (hfound.symm.trans hfirst'))
    refine ⟨_, rfl, ?_⟩
    simp only [Report.outline, report, Verdict.label, Verdict.met?, htime]

theorem run_compared {e : Engine μ} {ds : List Constraint} (h : e.constraints ⊆ ds)
    (hsteady : e.model.Steady) {s s' : Status μ} (hs : e.Reachable s)
    (hs' : (e.constrained ds).Reachable s') {signals signals' : Nat → Signals}
    (hquiet : e.Undisturbed signals s) (hquiet' : (e.constrained ds).Undisturbed signals' s') :
    e.Compared ds (e.run signals s).result ((e.constrained ds).run signals' s').result := by
  have hanswer : (e.constrained ds).answer s' = e.answer s := answer_eq_of_reachable rfl hs hs'
  have hend := run_ending hsteady s.memory signals s
  have hend' := run_ending (e := e.constrained ds) hsteady s.memory signals' s'
  generalize (e.run signals s).result = x at hend
  generalize ((e.constrained ds).run signals' s').result = x' at hend'
  cases hend' with
  | refused fault ha' =>
    rw [hanswer] at ha'
    cases hend with
    | refused fault' ha =>
      obtain rfl := Except.error.inj (ha.symm.trans ha')
      exact .failed _
    | flagged required i v ha hfirst => cases ha.symm.trans ha'
    | decided required k d ha hfirst hd => cases ha.symm.trans ha'
  | flagged required i' v' ha' hfirst' =>
    rw [hanswer] at ha'
    cases hend with
    | refused fault ha => cases ha.symm.trans ha'
    | flagged required' i v ha hfirst =>
      obtain rfl := Except.ok.inj (ha.symm.trans ha')
      exact compared_of_flagged h hfirst hfirst' _ _ _
    | decided required' k d ha hfirst hd =>
      refine .violated _ _ v' _ rfl ?_ ?_
      · intro r v source hr hv
        obtain ⟨verdict, t, rfl, rfl⟩ := resultOf_eq_ok hr
        obtain rfl : verdict = .violated v source := hv
        obtain ⟨i, rfl⟩ := (decided_of_decision (hd.quiet hquiet).1).source_eq
        exact ⟨trivial, fun heq => nomatch heq⟩
      · intro h'
        cases (auditLog_first_eq_none h' hfirst).symm.trans hfirst'
  | decided required k' d' ha' hfirst' hd' =>
    rw [hanswer] at ha'
    cases hend with
    | refused fault ha => cases ha.symm.trans ha'
    | flagged required' i v ha hfirst =>
      cases (auditLog_first_eq_none h hfirst').symm.trans hfirst
    | decided required' k d ha hfirst hd =>
      obtain rfl := Except.ok.inj (ha.symm.trans ha')
      exact compared_of_firstDecision h (hd.quiet hquiet) (hd'.quiet hquiet')

/-- Accepted engines with the same settings differ in their constraints only. -/
theorem eq_constrained_of_make {config : Config} {model : StepModel μ} {cs ds : List Constraint}
    {log : UncertaintyLog} {e e' : Engine μ} (h : make config model cs log = .ok e)
    (h' : make config model ds log = .ok e') : e' = e.constrained ds := by
  obtain ⟨hl, hb, rfl, -⟩ := exists_of_make h
  obtain ⟨hl', hb', rfl, -⟩ := exists_of_make h'
  rfl

/-- More constraints can only make the verdict of an undisturbed run less safe. A run that is safe
under more constraints is safe under fewer with the same counts, a violation under fewer constraints
is met under more constraints no later, and two lists of the same constraints lead to results that
differ at most in the constraint that is named. -/
theorem run_of_subset {config : Config} {model : StepModel μ} {cs ds : List Constraint}
    {log : UncertaintyLog} {e e' : Engine μ} (hmake : make config model cs log = .ok e)
    (hmake' : make config model ds log = .ok e') (hsub : cs ⊆ ds) (hsteady : model.Steady)
    {s s' : Status μ} (hs : e.Reachable s) (hs' : e'.Reachable s')
    {signals signals' : Nat → Signals} (hquiet : e.Undisturbed signals s)
    (hquiet' : e'.Undisturbed signals' s') :
    (∀ r', (e'.run signals' s').result = .ok r' → r'.verdict = .safe →
      ∃ r, (e.run signals s).result = .ok r ∧ r.verdict = .safe ∧ r.total = r'.total ∧
        r.valid = r'.valid ∧ r.batches = r'.batches ∧ r.diverged = r'.diverged ∧
        r.safeTrajectories = r'.safeTrajectories) ∧
    (∀ r v source, (e.run signals s).result = .ok r → r.verdict = .violated v source →
      ∃ r' v' source', (e'.run signals' s').result = .ok r' ∧
        r'.verdict = .violated v' source' ∧ source'.NoLater source ∧
        (source' = source → v'.time ≤ v.time)) ∧
    (ds ⊆ cs → (e'.run signals' s').result.map Report.outline =
      (e.run signals s).result.map Report.outline) := by
  obtain ⟨rfl, -, rfl, rfl, -⟩ := make_eq_ok hmake
  obtain rfl := eq_constrained_of_make hmake hmake'
  have hcompared := run_compared hsub hsteady hs hs' hquiet hquiet'
  generalize (e.run signals s).result = x at hcompared
  generalize ((e.constrained ds).run signals' s').result = x' at hcompared
  cases hcompared with
  | failed err => exact ⟨fun _ h => (nomatch h), fun _ _ _ h => (nomatch h), fun _ => rfl⟩
  | decided required d =>
    refine ⟨?_, ?_, ?_⟩
    · intro r' hr' hsafe
      obtain ⟨verdict, t, rfl, rfl⟩ := resultOf_eq_ok hr'
      exact ⟨_, rfl, hsafe, rfl, rfl, rfl, rfl, rfl⟩
    · intro r v source hr hv
      obtain ⟨verdict, t, rfl, rfl⟩ := resultOf_eq_ok hr
      exact ⟨_, v, source, rfl, hv, source.noLater_refl, fun _ => Nat.le_refl _⟩
    · intro _
      cases d with
      | error err => rfl
      | ok p => rfl
  | violated x r' v' source' hverdict hlater hsame =>
    refine ⟨?_, ?_, ?_⟩
    · intro r hr hsafe
      obtain rfl := Except.ok.inj hr
      rw [hverdict] at hsafe
      cases hsafe
    · intro r v source hr hv
      obtain ⟨hsource, htime⟩ := hlater r v source hr hv
      exact ⟨r', v', source', rfl, hverdict, hsource, htime⟩
    · intro h'
      obtain ⟨r, rfl, houtline⟩ := hsame h'
      exact congrArg Except.ok houtline

/-- With a floor at zero added, a walk that left the range in its second batch is caught in its
first one; and a safe walk stays safe when a constraint is dropped. -/
theorem walk_with_floor :
    (∃ e' r v r' v' source',
      make (walkConfig 18) (.affine walk) [⟨0, .lt, 0⟩, ⟨0, .ge, 1.25⟩] walkLog = .ok e' ∧
      ((walkEngine 18 1.25).run (fun _ => {}) { memory := () }).result = .ok r ∧
      r.verdict = .violated v (.trajectory 1 1) ∧
      (e'.run (fun _ => {}) { memory := () }).result = .ok r' ∧
      r'.verdict = .violated v' source' ∧ source'.NoLater (.trajectory 1 1) ∧
      (source' = .trajectory 1 1 → v'.time ≤ v.time)) ∧
    ∃ e' r', make (walkConfig 1) (.affine walk) [⟨0, .gt, 1.5⟩, ⟨0, .ge, 1.25⟩] walkLog = .ok e' ∧
      (e'.run (fun _ => {}) { memory := () }).result = .ok r' ∧ r'.verdict = .safe ∧
      ∃ r, ((walkEngine 1 1.25).run (fun _ => {}) { memory := () }).result = .ok r ∧
        r.verdict = .safe ∧ r.valid = r'.valid := by
  have hmake (seed : UInt64) (c : Constraint) (hc : c.coordinate < 1)
      (hfinite : c.threshold.isFinite = true) :
      make (walkConfig seed) (.affine walk) [c, ⟨0, .ge, 1.25⟩] walkLog =
        .ok ((walkEngine seed 1.25).constrained [c, ⟨0, .ge, 1.25⟩]) :=
    make_ok (fun _ hd => Option.some.inj hd.symm)
      ((validateConstraints_eq_ok_iff _ _).2
        ⟨by simp, by simpa using ⟨⟨hc, hfinite⟩, by decide, by decide⟩⟩) _ _
  have hcancels : (StepModel.affine walk).NeverCancels :=
    ⟨fun _ _ _ => rfl, StepModel.cancels_oneByOne fun _ _ _ => rfl⟩
  constructor
  · have hfloor := hmake 18 ⟨0, .lt, 0⟩ (by decide) (by decide)
    obtain ⟨-, hearlier, -⟩ := run_of_subset (make_walk 18 1.25 (by decide)) hfloor
      (List.subset_cons_self _ _) (StepModel.steady_of_subsingleton _) (.fresh () false)
      (.fresh () false) (undisturbed_of_neverCancels hcancels rfl fun _ => rfl)
      (undisturbed_of_neverCancels hcancels rfl fun _ => rfl)
    obtain ⟨r, hrun, hfrom⟩ :
        ∃ r, ((walkEngine 18 1.25).run (fun _ => {}) { memory := () }).result = .ok r ∧
          r.verdict.isFrom (.trajectory 1 1) = true := exists_ok_of_any (by decide +kernel)
    obtain ⟨v, hv⟩ := Verdict.eq_violated_of_isFrom hfrom
    obtain ⟨r', v', source', hmet⟩ := hearlier r v _ hrun hv
    exact ⟨_, r, v, r', v', source', hfloor, hrun, hv, hmet⟩
  · have hmore := hmake 1 ⟨0, .gt, 1.5⟩ (by decide) (by decide)
    obtain ⟨hfewer, -, -⟩ := run_of_subset (make_walk 1 1.25 (by decide)) hmore
      (List.subset_cons_self _ _) (StepModel.steady_of_subsingleton _) (.fresh () false)
      (.fresh () false) (undisturbed_of_neverCancels hcancels rfl fun _ => rfl)
      (undisturbed_of_neverCancels hcancels rfl fun _ => rfl)
    obtain ⟨r', hrun', hr'⟩ : ∃ r', (((walkEngine 1 1.25).constrained
        [⟨0, .gt, 1.5⟩, ⟨0, .ge, 1.25⟩]).run (fun _ => {}) { memory := () }).result = .ok r' ∧
          r'.verdict.isSafe = true := exists_ok_of_any (by decide +kernel)
    have hsafe := Verdict.eq_safe_of_isSafe hr'
    obtain ⟨r, hrun, hverdict, -, hvalid, -⟩ := hfewer r' hrun' hsafe
    exact ⟨_, r', hmore, hrun', hsafe, r, hrun, hverdict, hvalid⟩

end Engine

end TrajectorySafety
