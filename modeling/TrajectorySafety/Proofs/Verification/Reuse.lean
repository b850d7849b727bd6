import Mathlib.Logic.Function.Iterate
import TrajectorySafety.Proofs.Verification.Configured
import TrajectorySafety.Proofs.Verification.Decision

/-!
Using one engine again and again.

A history is a list of runs and cancels (`Engine.Use`). What it leaves behind is a status, of which
a run can see three things: the memory of the model, which a steady model does not show, the cancel
flag, which never comes down again (`cancelled_run`), and the remembered sample counts, which are
those of the rule and count their own use (`cache_leftBy`). So all runs that leave the flag down
have one result (`result_eq_of_undisturbed`), and all runs that find it up report on the log alone
(`run_of_cancelled`). No error leaves anything behind that a later run shows.
-/

namespace TrajectorySafety

/-- Only a usable bound has an answer. -/
theorem BoundConfig.usable_of_rule {b : BoundConfig} {k : Nat}
    (h : b.strategy.rule b.budget b.confidence = .ok k) : b.Usable := by
  have hcheck : SampleRule.checkInputs b.budget b.confidence = .ok () := by
    cases hc : SampleRule.checkInputs b.budget b.confidence with
    | ok u => rfl
    | error fault =>
      cases hs : b.strategy <;>
        simp [hs, BoundStrategy.rule, SampleRule.jeffreys, SampleRule.betaPosterior, hc, bind,
          Except.bind] at h
  unfold SampleRule.checkInputs at hcheck
  split at hcheck
  · cases hcheck
  next hbudget =>
    split at hcheck
    next hconfidence =>
      simp only [Bool.or_eq_true, Bool.not_eq_true', decide_eq_true_eq, not_or,
        Bool.not_eq_false] at hbudget
      exact ⟨hbudget.1, Number.lt_of_not_le (by decide) (Number.isNaN_of_isFinite hbudget.1)
        hbudget.2, hconfidence.1, hconfidence.2⟩
    · cases hcheck

namespace BoundCache

/-- The cache after one question. -/
def ask (rule : SampleRule) (budget confidence : Float) (cache : BoundCache) : BoundCache :=
  (cache.required rule budget confidence).2

/-- The rule answers the first of many equal questions, and the cache the others. -/
theorem ask_iterate_of_ok {rule : SampleRule} {budget confidence : Float} {k : Nat}
    (h : rule budget confidence = .ok k) (n : Nat) :
    (ask rule budget confidence)^[n + 1] {} =
      ⟨[((budget.toBits, confidence.toBits), k)], n, 1⟩ := by
  induction n with
  | zero => simp [ask, required, answer, h]
  | succ n ih =>
    rw [Function.iterate_succ_apply', ih]
    simp [ask, required, answer]

/-- A question without an answer leaves nothing behind. -/
theorem ask_iterate_of_error {rule : SampleRule} {budget confidence : Float} {fault : Fault}
    (h : rule budget confidence = .error fault) (n : Nat) :
    (ask rule budget confidence)^[n] {} = {} :=
  Function.iterate_fixed (by simp [ask, required, answer, h]) n

end BoundCache

namespace Engine

variable {μ : Type} {e : Engine μ}

/-! ## Histories -/

/-- What can be done with an engine: a run, of which `elapsed n` is the time in nanoseconds after
`n` batches, or a cancel. -/
inductive Use where
  | run (elapsed : Nat → Nat)
  | cancel

/-- The signals of a clock: the time limit, if there is one, passes when that much time has
elapsed. -/
def clocked (e : Engine μ) (elapsed : Nat → Nat) (n : Nat) : Signals :=
  { late := e.sampling.timeout?.any (· ≤ elapsed n) }

/-- The status after one more use. -/
def use (e : Engine μ) (s : Status μ) : Use → Status μ
  | .run elapsed => (e.run (e.clocked elapsed) s).status
  | .cancel => { s with cancelled := true }

/-- The status of a new engine after a history. -/
def leftBy (e : Engine μ) (memory : μ) (us : List Use) : Status μ := us.foldl e.use { memory }

/-- The run that follows a history. -/
def runAfter (e : Engine μ) (memory : μ) (us : List Use) (elapsed : Nat → Nat) : Outcome μ :=
  e.run (e.clocked elapsed) (e.leftBy memory us)

def Use.isRun : Use → Bool
  | .run _ => true
  | .cancel => false

/-- How many runs there are in a history. -/
def runs (us : List Use) : Nat := us.countP Use.isRun

theorem leftBy_concat (e : Engine μ) (memory : μ) (us : List Use) (u : Use) :
    e.leftBy memory (us ++ [u]) = e.use (e.leftBy memory us) u := by
  rw [leftBy, List.foldl_concat]
  rfl

theorem clocked_of_no_deadline (h : e.sampling.timeout? = none) (elapsed : Nat → Nat) :
    e.clocked elapsed = fun _ => {} := by
  funext n
  simp only [clocked, h, Option.any_none]

theorem reachable_leftBy (e : Engine μ) (memory : μ) (us : List Use) :
    e.Reachable (e.leftBy memory us) := by
  induction us using List.reverseRecOn with
  | nil => exact .fresh memory false
  | append_singleton us u ih =>
    rw [leftBy_concat]
    cases u with
    | run elapsed => exact ih.run _
    | cancel => exact ih.cancel

/-- The sample counts that a history leaves behind are those of as many questions as it has runs. -/
theorem cache_leftBy (e : Engine μ) (memory : μ) (us : List Use) :
    (e.leftBy memory us).cache =
      (BoundCache.ask e.bound.strategy.rule e.bound.budget e.bound.confidence)^[runs us] {} := by
  induction us using List.reverseRecOn with
  | nil => rfl
  | append_singleton us u ih =>
    rw [leftBy_concat, runs, List.countP_append]
    cases u with
    | run elapsed =>
      have hcount : [Use.run elapsed].countP Use.isRun = 1 := rfl
      rw [hcount, Function.iterate_succ_apply', ← runs, ← ih]
      exact e.cache_run _ _
    | cancel => exact ih

/-! ## The cancel flag -/

/-- Without signals from outside, a step leaves the flag as a batch does. -/
theorem Move.cancelled_eq {p : Pending μ} {signals : Signals} {next : Outcome μ ⊕ Pending μ}
    {flag : Bool} (hflag : flag = true ∨ e.model.NeverCancels)
    (hsignals : signals.cancelled = false) (hp : p.world.cancelled = flag)
    (h : e.Move p signals next) :
    next.elim (·.status.cancelled) (·.world.cancelled) = flag := by
  have hpoll : (p.world.cancelled || signals.cancelled) = flag := by
    rw [hsignals, Bool.or_false, hp]
  have hbatch := e.simulator.keepsFlag_batch hflag e.log.first.region (e.batchCount p.tally)
    (batchWorld p signals) hpoll
  cases h with
  | enough hr => exact hp
  | stopped reason w hr hs hm hc => exact hc.trans hpoll
  | failed err w hr hs hb => exact Sim.left_of_error hb ▸ hbatch
  | found b w events index v hr hs hb hf => exact Sim.left_of_ok hb ▸ hbatch
  | counted b w events hr hs hb hf => exact Sim.left_of_ok hb ▸ hbatch

theorem cancelled_drive {flag : Bool} (hflag : flag = true ∨ e.model.NeverCancels) {p : Pending μ}
    (hp : p.world.cancelled = flag) : (e.drive (fun _ => {}) p).status.cancelled = flag := by
  fun_induction drive e (fun _ => {}) p with
  | case1 p outcome h => exact (h ▸ e.advance_move p _).cancelled_eq hflag rfl hp
  | case2 p p' h _ ih => exact ih ((h ▸ e.advance_move p _).cancelled_eq hflag rfl hp)

/-- A run never takes the cancel flag down, and raises it only where its model asks for that. -/
theorem cancelled_run {flag : Bool} (hflag : flag = true ∨ e.model.NeverCancels) {s : Status μ}
    (hs : s.cancelled = flag) : (e.run (fun _ => {}) s).status.cancelled = flag := by
  have hopen := e.begin_opening s
  unfold run
  generalize e.begin s = start at hopen
  cases hopen with
  | refused fault ha => exact hs
  | flagged required index v w ha hfirst hm hc => exact hc.trans hs
  | started required events ha hfirst => exact cancelled_drive hflag hs

theorem cancelled_leftBy_of_mem (hdeadline : e.sampling.timeout? = none) (memory : μ)
    {us : List Use} (h : .cancel ∈ us) : (e.leftBy memory us).cancelled = true := by
  induction us using List.reverseRecOn with
  | nil => cases h
  | append_singleton us u ih =>
    rw [leftBy_concat]
    cases u with
    | cancel => rfl
    | run elapsed =>
      have hmem : Use.cancel ∈ us := by simpa using h
      rw [use, clocked_of_no_deadline hdeadline]
      exact cancelled_run (.inl rfl) (ih hmem)

theorem cancelled_leftBy_of_not_mem (hdeadline : e.sampling.timeout? = none)
    (hm : e.model.NeverCancels) (memory : μ) {us : List Use} (h : .cancel ∉ us) :
    (e.leftBy memory us).cancelled = false := by
  induction us using List.reverseRecOn with
  | nil => rfl
  | append_singleton us u ih =>
    rw [List.mem_append, not_or] at h
    rw [leftBy_concat]
    cases u with
    | cancel => exact absurd (List.mem_singleton.2 rfl) h.2
    | run elapsed =>
      rw [use, clocked_of_no_deadline hdeadline]
      exact cancelled_run (.inr hm) (ih h.1)

/-! ## Runs that leave the flag down -/

/-- A run can be driven to its end from wherever it stands. -/
theorem drive_of_after {signals : Nat → Signals} {s : Status μ} {k : Nat} {q : Pending μ}
    (h : e.after signals s k = some q) : e.drive signals q = e.run signals s := by
  induction k generalizing q with
  | zero =>
    rw [run, after_zero.1 h]
  | succ k ih =>
    obtain ⟨p, hp, hadvance⟩ := after_succ.1 h
    rw [← drive_of_inr hadvance, ih hp]

/-- A run that leaves the flag down has found it down at every look. -/
theorem undisturbed_of_cancelled_eq_false {s : Status μ}
    (h : (e.run (fun _ => {}) s).status.cancelled = false) : e.Undisturbed (fun _ => {}) s := by
  intro k x hx
  obtain ⟨q, hq, rfl⟩ := Option.map_eq_some_iff.1 hx
  cases hflag : q.world.cancelled with
  | false => simp only [poll, hflag, Bool.or_false]
  | true =>
    rw [← drive_of_after hq, cancelled_drive (.inl rfl) hflag] at h
    cases h

/-- Two undisturbed runs take the same first decision. -/
theorem FirstDecision.eq_of_quiet {memory : μ} {required k k' : Nat}
    {polls polls' : Nat → Option Signals} {d d' : Except Error (Verdict × Tally)}
    (h : e.FirstDecision memory required polls k d)
    (h' : e.FirstDecision memory required polls' k' d')
    (hquiet : ∀ k x, polls k = some x → x = {}) (hquiet' : ∀ k x, polls' k = some x → x = {}) :
    d = d' := by
  obtain ⟨hd, hbefore⟩ := h.quiet hquiet
  obtain ⟨hd', hbefore'⟩ := h'.quiet hquiet'
  rcases Nat.lt_trichotomy k k' with hlt | rfl | hgt
  · rw [hbefore' k hlt] at hd
    cases hd
  · exact Option.some.inj (hd.symm.trans hd')
  · rw [hbefore k' hgt] at hd'
    cases hd'

/-- However a steady engine was used before, its undisturbed runs have one result. -/
theorem result_eq_of_undisturbed (hsteady : e.model.Steady) {s s' : Status μ} (hs : e.Reachable s)
    (hs' : e.Reachable s') {signals signals' : Nat → Signals} (hquiet : e.Undisturbed signals s)
    (hquiet' : e.Undisturbed signals' s') :
    (e.run signals s).result = (e.run signals' s').result := by
  have hanswer := answer_eq_of_reachable rfl hs hs'
  have hending := run_ending hsteady s.memory signals s
  have hending' := run_ending hsteady s.memory signals' s'
  generalize (e.run signals s).result = result at hending
  generalize (e.run signals' s').result = result' at hending'
  cases hending with
  | refused fault ha =>
    cases hending' with
    | refused fault' ha' =>
      rw [ha', ha] at hanswer
      rw [Except.error.inj hanswer]
    | flagged required index v ha' hfirst => rw [ha', ha] at hanswer; cases hanswer
    | decided required k d ha' hfirst hd => rw [ha', ha] at hanswer; cases hanswer
  | flagged required index v ha hfirst =>
    cases hending' with
    | refused fault ha' => rw [ha', ha] at hanswer; cases hanswer
    | flagged required' index' v' ha' hfirst' =>
      rw [ha', ha] at hanswer
      obtain rfl := Except.ok.inj hanswer
      obtain ⟨rfl, rfl⟩ := Prod.mk.inj (Option.some.inj (hfirst.symm.trans hfirst'))
      rfl
    | decided required' k d ha' hfirst' hd => rw [hfirst] at hfirst'; cases hfirst'
  | decided required k d ha hfirst hd =>
    cases hending' with
    | refused fault ha' => rw [ha', ha] at hanswer; cases hanswer
    | flagged required' index v ha' hfirst' => rw [hfirst] at hfirst'; cases hfirst'
    | decided required' k' d' ha' hfirst' hd' =>
      rw [ha', ha] at hanswer
      obtain rfl := Except.ok.inj hanswer
      rw [hd.eq_of_quiet hd' hquiet hquiet']

/-! ## Runs that find the flag up -/

/-- A report on the log alone: no batch was drawn, and the logged boxes are split by whether a
constraint flags them. -/
structure Unsampled (e : Engine μ) (r : Report) : Prop where
  total_eq : r.total = 0
  valid_eq : r.valid = 0
  batches_eq : r.batches = 0
  diverged_eq : r.diverged = 0
  safeTrajectories_eq : r.safeTrajectories = []
  unsafeTrajectories_eq : r.unsafeTrajectories = []
  safeEntries_eq : r.safeEntries = e.log.entries.filter (isEntrySafe e.constraints)
  unsafeEntries_eq :
    r.unsafeEntries = e.log.entries.filter fun entry => !isEntrySafe e.constraints entry

theorem unsampled_report (e : Engine μ) (required : Nat) (verdict : Verdict) :
    e.Unsampled (e.report required (auditLog e.constraints e.log) {} verdict) := by
  rw [auditLog, scan_eq]
  exact ⟨rfl, rfl, rfl, rfl, rfl, rfl, rfl, rfl⟩

/-- An engine with a usable bound has an answer after every history. -/
theorem answer_of_usable {s : Status μ} (hbound : e.bound.Usable) (hs : e.Reachable s) :
    ∃ required, e.answer s = .ok required ∧ 0 < required := by
  obtain ⟨required, hrule⟩ := hbound.rule_ok
  obtain ⟨hanswer, hpos⟩ := answer_of_reachable hs
  rw [hrule] at hanswer
  exact ⟨required, hanswer, hpos required hanswer⟩

/-- A flagged entry ends a run before anything is sampled. -/
theorem run_of_flagged {s : Status μ} (hbound : e.bound.Usable) (hs : e.Reachable s)
    (signals : Nat → Signals) {index : Nat} {v : Violation}
    (hfirst : FirstAt (checkEntry e.constraints) e.log.entries index v) :
    ∃ r, (e.run signals s).result = .ok r ∧ e.Unsampled r ∧
      r.verdict = .violated v (.logEntry index) := by
  obtain ⟨required, hanswer, -⟩ := answer_of_usable hbound hs
  have hfirst := (auditLog_first_eq_some_iff _ _ _ _).2 hfirst
  have hcourse := e.run_course signals s
  generalize e.run signals s = outcome at hcourse
  generalize e.batches signals s = drawn at hcourse
  cases hcourse with
  | refused fault h =>
    rw [hanswer] at h
    cases h
  | flagged k i u w h hfound =>
    obtain ⟨rfl, rfl⟩ := Prod.mk.inj (Option.some.inj (hfirst.symm.trans hfound))
    exact ⟨_, rfl, e.unsampled_report _ _, rfl⟩
  | sampled k events bs q outcome h hnone hreach hend =>
    rw [hfirst] at hnone
    cases hnone

/-- A flagged entry anywhere in the log ends every run with a usable bound before anything is
sampled, with that entry or an earlier one. -/
theorem run_of_flagged_entry {s : Status μ} (hbound : e.bound.Usable) (hs : e.Reachable s)
    (signals : Nat → Signals) {k : Nat} {entry : LogEntry} (hentry : e.log.entries[k]? = some entry)
    (hflagged : checkEntry e.constraints entry ≠ none) :
    ∃ r index v, (e.run signals s).result = .ok r ∧ e.Unsampled r ∧
      r.verdict = .violated v (.logEntry index) ∧ index ≤ k := by
  cases hfirst : (auditLog e.constraints e.log).first with
  | none =>
    exact absurd ((auditLog_first_eq_none_iff _ _).1 hfirst entry (List.mem_of_getElem? hentry))
      hflagged
  | some found =>
    have hfound := (auditLog_first_eq_some_iff _ _ found.1 found.2).1 hfirst
    obtain ⟨r, hr, hunsampled, hverdict⟩ := run_of_flagged hbound hs signals hfound
    refine ⟨r, found.1, found.2, hr, hunsampled, hverdict, Nat.le_of_not_lt fun hlt => ?_⟩
    exact hflagged (hfound.2 k hlt entry hentry)

/-- Without a flagged entry, a run that finds the cancel flag up ends at its first look. -/
theorem run_of_cancelled {s : Status μ} (hsteady : e.model.Steady) (hbound : e.bound.Usable)
    (hs : e.Reachable s) (signals : Nat → Signals) (hcancelled : s.cancelled = true)
    (hlog : ∀ entry ∈ e.log.entries, checkEntry e.constraints entry = none) :
    ∃ r, (e.run signals s).result = .ok r ∧ e.Unsampled r ∧
      r.verdict = .inconclusive .cancelled := by
  obtain ⟨required, hanswer, hpos⟩ := answer_of_usable hbound hs
  have hfirst := (auditLog_first_eq_none_iff _ _).2 hlog
  obtain ⟨events, hbegin⟩ := begin_of_unflagged hanswer hfirst
  obtain ⟨k, d, ⟨⟨x, hx, hd⟩, hbefore⟩, hresult⟩ :=
    run_firstDecision hsteady s.memory signals hanswer hfirst
  have hstop : ∀ x, e.polls signals s 0 = some x → e.decision s.memory required 0 x =
      some (.ok (.inconclusive .cancelled, {})) := by
    intro x hx
    obtain ⟨q, hq, rfl⟩ := Option.map_eq_some_iff.1 hx
    obtain rfl := Sum.inr.inj (hbegin.symm.trans (after_zero.1 hq))
    refine decision_of_decided (.stopped .cancelled hpos ?_)
    simp only [stopReason?, poll, started, hcancelled, Bool.true_or, if_true]
  cases k with
  | zero =>
    obtain rfl := Option.some.inj ((hstop x hx).symm.trans hd)
    exact ⟨_, hresult, e.unsampled_report _ _, rfl⟩
  | succ k =>
    obtain ⟨y, hy, hnone⟩ := hbefore 0 (Nat.succ_pos k)
    rw [hstop y hy] at hnone
    cases hnone

/-! ## What a run leaves behind -/

theorem isTerminal_ofVerdict (verdict : Verdict) : (Phase.ofVerdict verdict).isTerminal = true := by
  cases verdict <;> rfl

/-- A run that reports leaves the phase of its verdict, and one that fails none that is final. -/
theorem phase_run (e : Engine μ) (signals : Nat → Signals) (s : Status μ) :
    (∀ r, (e.run signals s).result = .ok r →
      (e.run signals s).status.phase = .ofVerdict r.verdict) ∧
    ∀ err, (e.run signals s).result = .error err →
      (e.run signals s).status.phase.isTerminal = false := by
  have hcourse := e.run_course signals s
  generalize e.run signals s = outcome at hcourse
  generalize e.batches signals s = drawn at hcourse
  cases hcourse with
  | refused fault h => exact ⟨by rintro r ⟨⟩, fun _ _ => rfl⟩
  | flagged required index v w h hfirst => exact ⟨by rintro r ⟨⟩; rfl, by rintro err ⟨⟩⟩
  | sampled required events bs q outcome h hfirst hreach hend =>
    cases hend with
    | enough hr => exact ⟨by rintro r ⟨⟩; rfl, by rintro err ⟨⟩⟩
    | stopped reason w hr hs hm hc => exact ⟨by rintro r ⟨⟩; rfl, by rintro err ⟨⟩⟩
    | failed err w hr hs hb => exact ⟨by rintro r ⟨⟩, fun _ _ => rfl⟩
    | found b w events index v hr hs hb hf => exact ⟨by rintro r ⟨⟩; rfl, by rintro err ⟨⟩⟩

/-- The cache after a run and its history, by whether there is an answer to remember. -/
theorem cache_runAfter (e : Engine μ) (memory : μ) (us : List Use) (elapsed : Nat → Nat) :
    (e.runAfter memory us elapsed).status.cache =
      (BoundCache.ask e.bound.strategy.rule e.bound.budget e.bound.confidence)^[runs us + 1]
        {} := by
  rw [Function.iterate_succ_apply', ← cache_leftBy]
  exact e.cache_run _ _

/-- An engine without a deadline whose model is steady can be used again and again. Consider the run
that follows any history of runs and cancels.
The cancel flag is up after a cancel, and otherwise down if the model never raises it.
As long as the flag is down, every run has the same result.
Once it is up, every run with a usable bound still reports: on the first flagged entry of the log,
or that it was cancelled, with nothing sampled and the whole log split.
The phase is then that of the verdict, and it is not final if the run fails.
The rule is asked in the first run only, and never with success if the bound is not usable. -/
theorem run_of_reuse (hdeadline : e.sampling.timeout? = none) (hsteady : e.model.Steady)
    (memory : μ) (us : List Use) (elapsed : Nat → Nat) :
    (.cancel ∈ us → (e.leftBy memory us).cancelled = true) ∧
    (e.model.NeverCancels → .cancel ∉ us →
      (e.runAfter memory us elapsed).status.cancelled = false) ∧
    (∀ us' elapsed', (e.runAfter memory us elapsed).status.cancelled = false →
      (e.runAfter memory us' elapsed').status.cancelled = false →
      (e.runAfter memory us elapsed).result = (e.runAfter memory us' elapsed').result) ∧
    (e.bound.Usable → (e.leftBy memory us).cancelled = true →
      ∃ r, (e.runAfter memory us elapsed).result = .ok r ∧ e.Unsampled r ∧
        ((∃ index v, FirstAt (checkEntry e.constraints) e.log.entries index v ∧
            r.verdict = .violated v (.logEntry index)) ∨
          ((∀ entry ∈ e.log.entries, checkEntry e.constraints entry = none) ∧
            r.verdict = .inconclusive .cancelled))) ∧
    (∀ r, (e.runAfter memory us elapsed).result = .ok r →
      (e.runAfter memory us elapsed).status.phase = .ofVerdict r.verdict ∧
        (e.runAfter memory us elapsed).status.phase.isTerminal = true) ∧
    (∀ err, (e.runAfter memory us elapsed).result = .error err →
      (e.runAfter memory us elapsed).status.phase.isTerminal = false) ∧
    (e.bound.Usable → (e.runAfter memory us elapsed).status.cache.misses = 1 ∧
      (e.runAfter memory us elapsed).status.cache.hits = runs us) ∧
    (¬ e.bound.Usable → (e.runAfter memory us elapsed).status.cache.misses = 0 ∧
      (e.runAfter memory us elapsed).status.cache.hits = 0) := by
  have hreachable := e.reachable_leftBy memory us
  obtain ⟨hreports, hfails⟩ := e.phase_run (e.clocked elapsed) (e.leftBy memory us)
  refine ⟨cancelled_leftBy_of_mem hdeadline memory, ?_, ?_, ?_, ?_, hfails, ?_, ?_⟩
  · intro hm hmem
    rw [runAfter, clocked_of_no_deadline hdeadline]
    exact cancelled_run (.inr hm) (cancelled_leftBy_of_not_mem hdeadline hm memory hmem)
  · intro us' elapsed' hdown hdown'
    rw [runAfter, clocked_of_no_deadline hdeadline] at hdown hdown' ⊢
    rw [runAfter, clocked_of_no_deadline hdeadline]
    exact result_eq_of_undisturbed hsteady hreachable (e.reachable_leftBy memory us')
      (undisturbed_of_cancelled_eq_false hdown) (undisturbed_of_cancelled_eq_false hdown')
  · intro hbound hup
    cases hfirst : (auditLog e.constraints e.log).first with
    | some found =>
      have hfound := (auditLog_first_eq_some_iff _ _ found.1 found.2).1 hfirst
      obtain ⟨r, hr, hlog, hverdict⟩ :=
        run_of_flagged hbound hreachable (e.clocked elapsed) hfound
      exact ⟨r, hr, hlog, .inl ⟨_, _, hfound, hverdict⟩⟩
    | none =>
      have hclean := (auditLog_first_eq_none_iff _ _).1 hfirst
      obtain ⟨r, hr, hlog, hverdict⟩ :=
        run_of_cancelled hsteady hbound hreachable (e.clocked elapsed) hup hclean
      exact ⟨r, hr, hlog, .inr ⟨hclean, hverdict⟩⟩
  · intro r hr
    have hphase := hreports r hr
    exact ⟨hphase, by rw [runAfter, hphase, isTerminal_ofVerdict]⟩
  · intro hbound
    obtain ⟨k, hrule⟩ := hbound.rule_ok
    rw [cache_runAfter, BoundCache.ask_iterate_of_ok hrule]
    exact ⟨rfl, rfl⟩
  · intro hbound
    cases hrule : e.bound.strategy.rule e.bound.budget e.bound.confidence with
    | ok k => exact absurd (BoundConfig.usable_of_rule hrule) hbound
    | error fault =>
      rw [cache_runAfter, BoundCache.ask_iterate_of_error hrule]
      exact ⟨rfl, rfl⟩

/-- A model that fails at every step. -/
def faulty : StepModel Unit :=
  .ofNext "faulty" none fun _ g _ => ⟨.error (.model "stuck"), g, (), false⟩

/-- The engine of the walk, with the model that fails. -/
def faultyEngine : Engine Unit := { walkEngine 1 1.25 with model := faulty }

/-- A model that fails does so in every run. Once cancelled, the engine reports that it was, and the
failures have left nothing behind but the sample count. -/
theorem faulty_reused :
    (∃ err, (faultyEngine.runAfter () [] id).result = .error err ∧
      (faultyEngine.runAfter () [.run id] id).result = .error err) ∧
    (faultyEngine.runAfter () [.run id] id).status.phase.isTerminal = false ∧
    (∃ r, (faultyEngine.runAfter () [.run id, .cancel] id).result = .ok r ∧
      faultyEngine.Unsampled r ∧ r.verdict = .inconclusive .cancelled) ∧
    (faultyEngine.runAfter () [.run id, .cancel] id).status.cache.hits = 1 := by
  have hdeadline : faultyEngine.sampling.timeout? = none := rfl
  have hsteady : faultyEngine.model.Steady := StepModel.steady_of_subsingleton _
  have hcalm : faultyEngine.model.NeverCancels :=
    ⟨fun _ _ _ => rfl, StepModel.cancels_oneByOne fun _ _ _ => rfl⟩
  have hbound : faultyEngine.bound.Usable := ⟨by decide, by decide, by decide, by decide⟩
  obtain ⟨-, hdown, hsame, -⟩ := run_of_reuse hdeadline hsteady () [] id
  obtain ⟨-, hdown', -, -, -, hfails, -⟩ :=
    run_of_reuse hdeadline hsteady () [.run id] id
  obtain ⟨hup, -, -, hreports, -, -, hcounts, -⟩ :=
    run_of_reuse hdeadline hsteady () [.run id, .cancel] id
  have heq := hsame [.run id] id (hdown hcalm (by simp)) (hdown' hcalm (by simp))
  obtain ⟨err, herr⟩ : ∃ err, (faultyEngine.runAfter () [] id).result = .error err := by
    have hfail : (faultyEngine.run (fun _ => {}) { memory := () }).result.isOk = false := by
      decide +kernel
    rw [runAfter, clocked_of_no_deadline hdeadline]
    show ∃ err, (faultyEngine.run (fun _ => {}) { memory := () }).result = .error err
    cases h : (faultyEngine.run (fun _ => {}) { memory := () }).result with
    | error err => exact ⟨err, rfl⟩
    | ok r =>
      rw [h] at hfail
      cases hfail
  refine ⟨⟨err, herr, heq ▸ herr⟩, hfails err (heq ▸ herr), ?_, (hcounts hbound).2⟩
  obtain ⟨r, hr, hlog, ⟨index, v, hfirst, -⟩ | ⟨-, hverdict⟩⟩ := hreports hbound (hup (by simp))
  · have hclean : (auditLog faultyEngine.constraints faultyEngine.log).first.isNone = true := by
      decide +kernel
    rw [(auditLog_first_eq_some_iff _ _ _ _).2 hfirst] at hclean
    cases hclean
  · exact ⟨r, hr, hlog, hverdict⟩

end Engine

end TrajectorySafety
