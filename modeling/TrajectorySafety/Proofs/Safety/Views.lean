import TrajectorySafety.Proofs.Log.Boxes
import TrajectorySafety.Proofs.Safety.Scan
import TrajectorySafety.Proofs.Splitting
import TrajectorySafety.Safety.Judgement

/-!
The views of one evaluation agree.

A trajectory can be asked for its earliest violation or for a judgement, a list of trajectories for
its safe and unsafe part or for its first unsafe element, and a log for its audit or its first
flagged entry. Each is a pass of its own. The earliest violation is the least pair of a time and a
position of a constraint (`earliest_iff_isLeast`). A split by the same test that a search uses has
the finding of the search at the head of its failed part, and as many passed elements in front of it
as the position says (`SplitBy.firstFinding_iff`). The audit collects entry by entry what its
recursion returns, and keeps the first finding that it meets (`foldl_visit`).
-/

namespace TrajectorySafety

/-! ## Searches and splits -/

section
variable {α β : Type} {find : α → Option β} {passed failed l : List α}

theorem firstFinding_append {before rest : List α} {a : α} {b : β}
    (hbefore : ∀ x ∈ before, find x = none) (ha : find a = some b) (n : Nat) :
    firstFinding find n (before ++ a :: rest) = some (n + before.length, b) := by
  induction before generalizing n with
  | nil =>
    rw [List.nil_append, firstFinding, ha]
    rfl
  | cons x before ih =>
    obtain ⟨hx, hbefore⟩ := List.forall_mem_cons.1 hbefore
    rw [List.cons_append, firstFinding, hx, List.length_cons, Nat.add_comm before.length,
      ← Nat.add_assoc]
    exact ih hbefore (n + 1)

theorem SplitBy.firstFinding_none_iff (h : SplitBy (fun a => (find a).isNone) passed failed l) :
    firstFinding find 0 l = none ↔ failed = [] := by
  rw [firstFinding_eq_none_iff, (splitBy_iff.1 h).2, List.filter_eq_nil_iff]
  simp

/-- A search finds the first element of the failed part, at the position that the passed elements
before it leave. -/
theorem SplitBy.firstFinding_iff (h : SplitBy (fun a => (find a).isNone) passed failed l)
    {i : Nat} {b : β} :
    firstFinding find 0 l = some (i, b) ↔
      ∃ before later a others rest, passed = before ++ later ∧ failed = a :: others ∧
        l = before ++ a :: rest ∧ Interleaves later others rest ∧ i = before.length ∧
        find a = some b := by
  have hbefore : ∀ {before later : List α}, passed = before ++ later →
      ∀ x ∈ before, find x = none := by
    rintro before later rfl x hx
    exact Option.isNone_iff_eq_none.1 (h.passes x (List.mem_append_left _ hx))
  constructor
  · intro hfound
    cases failed with
    | nil =>
      rw [h.firstFinding_none_iff.2 rfl] at hfound
      cases hfound
    | cons a others =>
      obtain ⟨before, later, rest, hpassed, rfl, hrest⟩ := h.interleaves.first_right
      obtain ⟨c, hc⟩ : ∃ c, find a = some c := by
        have hfails := h.fails a List.mem_cons_self
        rwa [Option.isNone_eq_false_iff, Option.isSome_iff_exists] at hfails
      rw [firstFinding_append (hbefore hpassed) hc, Nat.zero_add] at hfound
      obtain ⟨rfl, rfl⟩ := Prod.mk.inj (Option.some.inj hfound)
      exact ⟨before, later, a, others, rest, hpassed, rfl, rfl, hrest, rfl, hc⟩
  · rintro ⟨before, later, a, others, rest, hpassed, -, rfl, -, rfl, ha⟩
    rw [firstFinding_append (hbefore hpassed) ha, Nat.zero_add]

end

/-! ## Trajectories -/

/-- The times at which a trajectory violates a constraint, with the position of the constraint, in
the order of the times and at one time in that of the positions. -/
def violations (cs : List Constraint) (t : Trajectory) : Set (Nat ×ₗ Nat) :=
  {p | ∃ x, ViolatedAt cs t (ofLex p).1 (ofLex p).2 x}

theorem earliest_iff_isLeast {cs : List Constraint} {t : Trajectory} {v : Violation} :
    Earliest cs t v ↔ ∃ k x, cs[k]? = some v.constraint ∧ v.observed = .value x ∧
      ViolatedAt cs t v.time k x ∧ IsLeast (violations cs t) (toLex (v.time, k)) := by
  constructor
  · rintro ⟨k, x, hc, hx, hviolated, hleast⟩
    refine ⟨k, x, hc, hx, hviolated, ⟨x, hviolated⟩, ?_⟩
    rintro p ⟨y, hy⟩
    exact Prod.Lex.le_iff.2 (hleast _ _ y hy)
  · rintro ⟨k, x, hc, hx, hviolated, -, hleast⟩
    refine ⟨k, x, hc, hx, hviolated, fun time j y hy => ?_⟩
    have hmem : toLex (time, j) ∈ violations cs t := ⟨y, hy⟩
    exact Prod.Lex.le_iff.1 (hleast hmem)

theorem exists_firstViolation_iff (cs : List Constraint) (t : Trajectory) :
    (∃ v, firstViolation cs t = some v) ↔ ∃ time k x, ViolatedAt cs t time k x := by
  rw [← Option.ne_none_iff_exists', ne_eq, firstViolation_eq_none_iff]
  simp only [not_forall, not_not]

theorem judge_unsafe_iff (cs : List Constraint) (t : Trajectory) (time : Nat) :
    ((judge cs t).safe, (judge cs t).time) = (false, some time) ↔
      ∃ v, firstViolation cs t = some v ∧ v.time = time := by
  unfold judge
  cases firstViolation cs t with
  | none => simp
  | some v => simp

theorem judge_safe_iff (cs : List Constraint) (t : Trajectory) :
    ((judge cs t).safe, (judge cs t).time) = (true, none) ↔ firstViolation cs t = none := by
  unfold judge
  cases firstViolation cs t with
  | none => simp
  | some v => simp

theorem splitBy_splitTrajectories (cs : List Constraint) (ts : List Trajectory) :
    SplitBy (fun t => (firstViolation cs t).isNone) (splitTrajectories cs ts).1
      (splitTrajectories cs ts).2 ts :=
  splitBy_partition _ ts

/-- A trajectory has a first violation exactly if a constrained coordinate of one of its states
satisfies its comparison. The first violation is by the value of that coordinate at the least time
and there by the constraint of the least position. The judgement names this time in this case and no
other. A list of trajectories is split by the same test, with none lost or moved, and its first
unsafe trajectory is the head of the unsafe part, with its violation and as its position the number
of trajectories before it, which are the first of the safe part. -/
theorem violation_views_agree (cs : List Constraint) :
    (∀ t : Trajectory,
      ((∃ v, firstViolation cs t = some v) ↔ ∃ time k x, ViolatedAt cs t time k x) ∧
      (∀ v, firstViolation cs t = some v ↔
        ∃ k x, cs[k]? = some v.constraint ∧ v.observed = .value x ∧ ViolatedAt cs t v.time k x ∧
          IsLeast (violations cs t) (toLex (v.time, k))) ∧
      (∀ time, ((judge cs t).safe, (judge cs t).time) = (false, some time) ↔
        ∃ v, firstViolation cs t = some v ∧ v.time = time) ∧
      (((judge cs t).safe, (judge cs t).time) = (true, none) ↔ firstViolation cs t = none)) ∧
    ∀ ts : List Trajectory,
      SplitBy (fun t => (firstViolation cs t).isNone) (splitTrajectories cs ts).1
        (splitTrajectories cs ts).2 ts ∧
      (firstUnsafe cs ts = none ↔ (splitTrajectories cs ts).2 = []) ∧
      ∀ i v, firstUnsafe cs ts = some (i, v) ↔
        ∃ before later t others rest, (splitTrajectories cs ts).1 = before ++ later ∧
          (splitTrajectories cs ts).2 = t :: others ∧ ts = before ++ t :: rest ∧
          Interleaves later others rest ∧ i = before.length ∧ firstViolation cs t = some v := by
  constructor
  · intro t
    refine ⟨exists_firstViolation_iff cs t, fun v => ?_, judge_unsafe_iff cs t, judge_safe_iff cs t⟩
    rw [firstViolation_eq_some_iff, earliest_iff_isLeast]
  · intro ts
    have hsplit := splitBy_splitTrajectories cs ts
    exact ⟨hsplit, hsplit.firstFinding_none_iff, fun i v => hsplit.firstFinding_iff⟩

/-! ## Logs -/

namespace LogAudit

/-- The audit after one more entry: the entry joins its part, and its violation is kept if it is the
first. -/
def visit (cs : List Constraint) (audit : LogAudit) (entry : LogEntry × Nat) : LogAudit :=
  match checkEntry cs entry.1 with
  | some v =>
    { audit with
      unsafeEntries := audit.unsafeEntries ++ [entry.1]
      first := audit.first.or (some (entry.2, v)) }
  | none => { audit with safe := audit.safe ++ [entry.1] }

/-- The audit of some entries and of those after them, taken together. -/
def append (audit later : LogAudit) : LogAudit where
  safe := audit.safe ++ later.safe
  unsafeEntries := audit.unsafeEntries ++ later.unsafeEntries
  first := audit.first.or later.first

theorem scan_cons (cs : List Constraint) (audit : LogAudit) (n : Nat) (e : LogEntry)
    (es : List LogEntry) :
    audit.append (scan cs n (e :: es)) = (audit.visit cs (e, n)).append (scan cs (n + 1) es) := by
  rw [scan, visit]
  cases checkEntry cs e with
  | some v => simp [append]
  | none => simp [append]

/-- Visiting the entries one by one collects what the scan returns. -/
theorem foldl_visit (cs : List Constraint) (audit : LogAudit) (n : Nat) (es : List LogEntry) :
    (es.zipIdx n).foldl (visit cs) audit = audit.append (scan cs n es) := by
  induction es generalizing audit n with
  | nil => simp [append, scan]
  | cons e es ih => rw [List.zipIdx_cons, List.foldl_cons, ih, scan_cons]

end LogAudit

theorem auditLog_eq_foldl (cs : List Constraint) (log : UncertaintyLog) :
    auditLog cs log = log.entries.zipIdx.foldl (LogAudit.visit cs) {} := by
  rw [LogAudit.foldl_visit]
  rfl

theorem splitBy_auditLog (cs : List Constraint) (log : UncertaintyLog) :
    SplitBy (isEntrySafe cs) (auditLog cs log).safe (auditLog cs log).unsafeEntries
      log.entries := by
  rw [splitBy_iff, auditLog, scan_eq]
  exact ⟨rfl, rfl⟩

/-- The safe entries that come before the first unsafe one are those with smaller times. -/
theorem filter_safe_before {cs : List Constraint} {log : UncertaintyLog}
    {before later others rest : List LogEntry} {e : LogEntry}
    (hsafe : (auditLog cs log).safe = before ++ later) (hlog : log.entries = before ++ e :: rest)
    (hrest : Interleaves later others rest) :
    ((auditLog cs log).safe.filter fun s => s.time < e.time) = before := by
  have htimes := log.faultless_first.2.2.1
  rw [hlog] at htimes
  obtain ⟨-, hafter, hbefore⟩ := List.pairwise_append.1 htimes
  have hsmaller : ∀ s ∈ before, decide (s.time < e.time) = true := fun s hs =>
    decide_eq_true (hbefore s hs e List.mem_cons_self)
  have hlarger : ∀ s ∈ later, ¬ decide (s.time < e.time) = true := by
    intro s hs
    have := List.rel_of_pairwise_cons hafter (hrest.sublist_left.subset hs)
    simp only [decide_eq_true_eq]
    omega
  rw [hsafe, List.filter_append, List.filter_eq_self.2 hsmaller, List.filter_eq_nil_iff.2 hlarger,
    List.append_nil]

/-- The audit of a log goes through it once and agrees with the separate scans. Its parts are the
entries that are safe by themselves and those that are not, in the order of the log, and make up the
log. Its first violation is that of the search for one. There is none exactly if the unsafe part is
empty; otherwise it is the violation of the first unsafe entry, whose index in the whole log is the
number of safe entries before it. -/
theorem audit_views_agree (cs : List Constraint) (log : UncertaintyLog) :
    auditLog cs log = log.entries.zipIdx.foldl (LogAudit.visit cs) {} ∧
    SplitBy (isEntrySafe cs) (auditLog cs log).safe (auditLog cs log).unsafeEntries log.entries ∧
    ((auditLog cs log).safe ++ (auditLog cs log).unsafeEntries).Perm log.entries ∧
    (auditLog cs log).first = firstUnsafeEntry cs log ∧
    ((auditLog cs log).first = none ↔ (auditLog cs log).unsafeEntries = []) ∧
    ∀ i v, (auditLog cs log).first = some (i, v) ↔
      ∃ e others, (auditLog cs log).unsafeEntries = e :: others ∧ checkEntry cs e = some v ∧
        i = ((auditLog cs log).safe.filter fun s => s.time < e.time).length ∧
        log.entries[i]? = some e := by
  have hsplit := splitBy_auditLog cs log
  have hfirst : (auditLog cs log).first = firstUnsafeEntry cs log := by
    rw [auditLog, scan_eq, firstUnsafeEntry]
  refine ⟨auditLog_eq_foldl cs log, hsplit, hsplit.interleaves.perm, hfirst, ?_, fun i v => ?_⟩
  · rw [hfirst]
    exact hsplit.firstFinding_none_iff
  · rw [hfirst, firstUnsafeEntry, hsplit.firstFinding_iff]
    constructor
    · rintro ⟨before, later, e, others, rest, hsafe, hflagged, hlog, hrest, rfl, hv⟩
      refine ⟨e, others, hflagged, hv, ?_, by simp [hlog]⟩
      rw [filter_safe_before hsafe hlog hrest]
    · rintro ⟨e, others, hflagged, hv, rfl, -⟩
      obtain ⟨before, later, rest, hsafe, hlog, hrest⟩ :=
        (hflagged ▸ hsplit.interleaves).first_right
      refine ⟨before, later, e, others, rest, hsafe, hflagged, hlog, hrest, ?_, hv⟩
      rw [filter_safe_before hsafe hlog hrest]

end TrajectorySafety
