import TrajectorySafety.Safety.Evaluation

/-!
What the scans for violations find.

`ViolatedAt` says that a constraint, by its position, holds at a time of a trajectory, and
`Earliest` that a violation is the first of these, time before position. The scan over a trajectory
finds the earliest violation and nothing else (`firstViolation_eq_some_iff`); the scan over a logged
box finds the first constraint that the relevant end of its interval satisfies
(`checkEntry_eq_some_iff`), and the audit of a log finds the first flagged entry and splits the log
by that test (`scan_eq`).
-/

namespace TrajectorySafety

/-! ## The first element with a finding -/

/-- An element at position `i` on which `find` finds `b`, and nothing before it. -/
def FirstAt {α β : Type} (find : α → Option β) (l : List α) (i : Nat) (b : β) : Prop :=
  (∃ a, l[i]? = some a ∧ find a = some b) ∧ ∀ j < i, ∀ a, l[j]? = some a → find a = none

theorem firstAt_cons_zero {α β : Type} {find : α → Option β} {a : α} {l : List α} {b : β} :
    FirstAt find (a :: l) 0 b ↔ find a = some b := by
  simp [FirstAt]

theorem firstAt_cons_succ {α β : Type} {find : α → Option β} {a : α} {l : List α} {i : Nat}
    {b : β} : FirstAt find (a :: l) (i + 1) b ↔ find a = none ∧ FirstAt find l i b := by
  simp only [FirstAt, List.getElem?_cons_succ]
  constructor
  · rintro ⟨h, hb⟩
    exact ⟨hb 0 (by omega) a rfl, h, fun j hj c hc => hb (j + 1) (by omega) c hc⟩
  · rintro ⟨ha, h, hb⟩
    refine ⟨h, fun j hj c hc => ?_⟩
    cases j with
    | zero =>
      cases hc
      exact ha
    | succ j => exact hb j (by omega) c hc

/-- There is at most one first finding. -/
theorem firstAt_unique {α β : Type} {find : α → Option β} {l : List α} {i j : Nat} {b c : β}
    (hi : FirstAt find l i b) (hj : FirstAt find l j c) : i = j ∧ b = c := by
  obtain ⟨⟨a, ha, hab⟩, hbi⟩ := hi
  obtain ⟨⟨a', ha', hac⟩, hbj⟩ := hj
  rcases Nat.lt_trichotomy i j with h | h | h
  · rw [hbj i h a ha] at hab; cases hab
  · subst h
    rw [ha] at ha'
    cases ha'
    rw [hab] at hac
    exact ⟨rfl, Option.some.inj hac⟩
  · rw [hbi j h a' ha'] at hac; cases hac

theorem findSome?_eq_some_iff_firstAt {α β : Type} (find : α → Option β) (l : List α) (b : β) :
    l.findSome? find = some b ↔ ∃ i, FirstAt find l i b := by
  induction l with
  | nil => simp [FirstAt]
  | cons a l ih =>
    rw [List.findSome?_cons]
    cases ha : find a with
    | some c =>
      simp only [Option.some.injEq]
      constructor
      · rintro rfl
        exact ⟨0, firstAt_cons_zero.2 ha⟩
      · rintro ⟨i, hi⟩
        exact (firstAt_unique (firstAt_cons_zero.2 ha) hi).2
    | none =>
      simp only
      rw [ih]
      constructor
      · rintro ⟨i, hi⟩
        exact ⟨i + 1, firstAt_cons_succ.2 ⟨ha, hi⟩⟩
      · rintro ⟨i, hi⟩
        cases i with
        | zero => rw [firstAt_cons_zero, ha] at hi; cases hi
        | succ i => exact ⟨i, (firstAt_cons_succ.1 hi).2⟩

theorem firstFinding_eq_some_iff {α β : Type} (find : α → Option β) (l : List α) (n j : Nat)
    (b : β) : firstFinding find n l = some (j, b) ↔ ∃ i, j = n + i ∧ FirstAt find l i b := by
  induction l generalizing n with
  | nil => simp [firstFinding, FirstAt]
  | cons a l ih =>
    rw [firstFinding]
    cases ha : find a with
    | some c =>
      simp only [Option.some.injEq, Prod.mk.injEq]
      constructor
      · rintro ⟨rfl, rfl⟩
        exact ⟨0, rfl, firstAt_cons_zero.2 ha⟩
      · rintro ⟨i, rfl, hi⟩
        obtain ⟨rfl, rfl⟩ := firstAt_unique (firstAt_cons_zero.2 ha) hi
        exact ⟨rfl, rfl⟩
    | none =>
      simp only
      rw [ih]
      constructor
      · rintro ⟨i, rfl, hi⟩
        exact ⟨i + 1, by omega, firstAt_cons_succ.2 ⟨ha, hi⟩⟩
      · rintro ⟨i, rfl, hi⟩
        cases i with
        | zero => rw [firstAt_cons_zero, ha] at hi; cases hi
        | succ i => exact ⟨i, by omega, (firstAt_cons_succ.1 hi).2⟩

theorem firstFinding_eq_none_iff {α β : Type} (find : α → Option β) (l : List α) (n : Nat) :
    firstFinding find n l = none ↔ ∀ a ∈ l, find a = none := by
  induction l generalizing n with
  | nil => simp [firstFinding]
  | cons a l ih =>
    rw [firstFinding, List.forall_mem_cons]
    cases ha : find a with
    | some c => simp
    | none => simpa using ih (n + 1)

/-! ## States and trajectories -/

/-- A state violates a constraint by a value: it has the coordinate, with that value, and the
comparison holds there. -/
def Constraint.ViolatedBy (c : Constraint) (s : State) (x : Float) : Prop :=
  s.get? c.coordinate = some x ∧ c.op.holds x c.threshold = true

/-- The constraint at position `k` is violated by the value `x` at a time of a trajectory. -/
def ViolatedAt (cs : List Constraint) (t : Trajectory) (time k : Nat) (x : Float) : Prop :=
  ∃ s c, t.at? time = some s ∧ cs[k]? = some c ∧ c.ViolatedBy s x

/-- A violation of a trajectory with no other at an earlier time, nor at the same time by a
constraint of an earlier position. -/
def Earliest (cs : List Constraint) (t : Trajectory) (v : Violation) : Prop :=
  ∃ k x, cs[k]? = some v.constraint ∧ v.observed = .value x ∧ ViolatedAt cs t v.time k x ∧
    ∀ time j y, ViolatedAt cs t time j y → v.time < time ∨ (v.time = time ∧ k ≤ j)

theorem checkState_eq_some_iff (c : Constraint) (s : State) (time : Nat) (v : Violation) :
    c.checkState s time = some v ↔ ∃ x, c.ViolatedBy s x ∧ v = ⟨time, c, .value x⟩ := by
  unfold Constraint.checkState Constraint.ViolatedBy
  cases s.get? c.coordinate with
  | none => simp
  | some x =>
    simp only [Option.ite_none_right_eq_some, Option.some.injEq]
    constructor
    · rintro ⟨h, rfl⟩
      exact ⟨x, ⟨rfl, h⟩, rfl⟩
    · rintro ⟨y, ⟨rfl, h⟩, rfl⟩
      exact ⟨h, rfl⟩

theorem checkState_eq_none_iff (c : Constraint) (s : State) (time : Nat) :
    c.checkState s time = none ↔ ∀ x, ¬ c.ViolatedBy s x := by
  rw [Option.eq_none_iff_forall_ne_some]
  simp only [ne_eq, checkState_eq_some_iff]
  constructor
  · intro h x hx
    exact h _ ⟨x, hx, rfl⟩
  · rintro h v ⟨x, hx, -⟩
    exact h x hx

theorem violationFrom_eq (cs : List Constraint) (time : Nat) (states : List State) :
    violationFrom cs time states =
      (states.zipIdx time).findSome? fun p => checkState cs p.1 p.2 := by
  induction states generalizing time with
  | nil => rfl
  | cons s rest ih =>
    rw [violationFrom, List.zipIdx_cons, List.findSome?_cons, ih]
    cases checkState cs s time <;> rfl

theorem checkState_list_eq_none_iff (cs : List Constraint) (s : State) (time : Nat) :
    checkState cs s time = none ↔ ∀ c ∈ cs, ∀ x, ¬ c.ViolatedBy s x := by
  simp only [checkState, List.findSome?_eq_none_iff, checkState_eq_none_iff]

theorem firstViolation_eq_none_iff (cs : List Constraint) (t : Trajectory) :
    firstViolation cs t = none ↔ ∀ time k x, ¬ ViolatedAt cs t time k x := by
  rw [firstViolation, violationFrom_eq, List.findSome?_eq_none_iff]
  constructor
  · rintro h time k x ⟨s, c, hs, hc, hx⟩
    have hm : (s, time) ∈ t.states.zipIdx := by
      rw [List.mk_mem_zipIdx_iff_getElem?]
      exact hs
    exact (checkState_list_eq_none_iff cs s time).1 (h _ hm) c (List.mem_of_getElem? hc) x hx
  · rintro h ⟨s, time⟩ hm
    rw [List.mk_mem_zipIdx_iff_getElem?] at hm
    rw [checkState_list_eq_none_iff]
    intro c hc x hx
    obtain ⟨k, hk⟩ := List.mem_iff_getElem?.1 hc
    exact h time k x ⟨s, c, hm, hk, hx⟩

/-- There is at most one earliest violation. -/
theorem earliest_unique {cs : List Constraint} {t : Trajectory} {v w : Violation}
    (hv : Earliest cs t v) (hw : Earliest cs t w) : v = w := by
  obtain ⟨k, x, hk, hx, hvx, hv⟩ := hv
  obtain ⟨j, y, hj, hy, hwy, hw⟩ := hw
  have hle := hv _ _ _ hwy
  have hge := hw _ _ _ hvx
  have htime : v.time = w.time := by omega
  have hkj : k = j := by omega
  subst hkj
  have hc : v.constraint = w.constraint := Option.some.inj (hk.symm.trans hj)
  have hxy : x = y := by
    obtain ⟨s, c, hs, hc, hsx, -⟩ := hvx
    obtain ⟨s', c', hs', hc', hsy, -⟩ := hwy
    rw [htime, hs'] at hs
    rw [hc'] at hc
    cases hs
    cases hc
    exact Option.some.inj (hsx.symm.trans hsy)
  cases v
  cases w
  simp_all

theorem earliest_of_firstViolation {cs : List Constraint} {t : Trajectory} {v : Violation}
    (h : firstViolation cs t = some v) : Earliest cs t v := by
  rw [firstViolation, violationFrom_eq, findSome?_eq_some_iff_firstAt] at h
  obtain ⟨i, ⟨p, hp, hfound⟩, hbefore⟩ := h
  rw [List.getElem?_zipIdx, Nat.zero_add] at hp
  obtain ⟨s, hs, rfl⟩ := Option.map_eq_some_iff.1 hp
  obtain ⟨k, ⟨c, hc, hfound⟩, hfirst⟩ := (findSome?_eq_some_iff_firstAt _ _ _).1 hfound
  obtain ⟨x, hx, rfl⟩ := (checkState_eq_some_iff _ _ _ _).1 hfound
  refine ⟨k, x, hc, rfl, ⟨s, c, hs, hc, hx⟩, ?_⟩
  rintro time j y ⟨s', c', hs', hc', hy⟩
  have hs' : t.states[time]? = some s' := hs'
  rcases Nat.lt_trichotomy time i with hlt | rfl | hgt
  · -- nothing was found at an earlier time
    have hn := hbefore time hlt (s', time) (by simpa [List.getElem?_zipIdx] using hs')
    exact absurd hy ((checkState_list_eq_none_iff _ _ _).1 hn c' (List.mem_of_getElem? hc') y)
  · refine .inr ⟨rfl, Nat.le_of_not_lt fun hlt => ?_⟩
    rw [hs] at hs'
    cases hs'
    exact (checkState_eq_none_iff _ _ _).1 (hfirst j hlt c' hc') y hy
  · exact .inl hgt

/-- The scan over a trajectory finds its earliest violation. -/
theorem firstViolation_eq_some_iff (cs : List Constraint) (t : Trajectory) (v : Violation) :
    firstViolation cs t = some v ↔ Earliest cs t v := by
  constructor
  · exact earliest_of_firstViolation
  · intro hv
    cases hf : firstViolation cs t with
    | none =>
      obtain ⟨k, x, -, -, hx, -⟩ := hv
      exact absurd hx ((firstViolation_eq_none_iff cs t).1 hf _ _ _)
    | some w => rw [earliest_unique (earliest_of_firstViolation hf) hv]

/-- The first of the violating trajectories is the one that the scan over all of them finds. -/
theorem head?_unsafe {cs : List Constraint} {ts : List Trajectory} {i : Nat} {v : Violation}
    (h : FirstAt (firstViolation cs) ts i v) : (splitTrajectories cs ts).2.head? = ts[i]? := by
  rw [splitTrajectories, List.partition_eq_filter_filter]
  induction ts generalizing i with
  | nil => obtain ⟨⟨a, ha, -⟩, -⟩ := h; simp at ha
  | cons t ts ih =>
    cases i with
    | zero =>
      rw [firstAt_cons_zero] at h
      simp [isSafe, h]
    | succ i =>
      rw [firstAt_cons_succ] at h
      simpa [isSafe, h.1] using ih h.2

/-! ## Logged boxes -/

/-- The end of the interval that satisfies the comparison most easily does satisfy it. -/
def Constraint.Flags (c : Constraint) (e : LogEntry) : Prop :=
  ∃ i, e.region.interval? c.coordinate = some i ∧
    c.op.holds (if c.op.usesUpper then i.hi else i.lo) c.threshold = true

theorem checkEntry_eq_some_iff (c : Constraint) (e : LogEntry) (v : Violation) :
    c.checkEntry e = some v ↔ ∃ i, e.region.interval? c.coordinate = some i ∧
      c.op.holds (if c.op.usesUpper then i.hi else i.lo) c.threshold = true ∧
      v = ⟨e.time, c, .interval i.lo i.hi⟩ := by
  unfold Constraint.checkEntry
  cases e.region.interval? c.coordinate with
  | none => simp
  | some i =>
    simp only [Option.ite_none_right_eq_some, Option.some.injEq]
    constructor
    · rintro ⟨h, rfl⟩
      exact ⟨i, rfl, h, rfl⟩
    · rintro ⟨_, rfl, h, rfl⟩
      exact ⟨h, rfl⟩

theorem checkEntry_eq_none_iff (c : Constraint) (e : LogEntry) :
    c.checkEntry e = none ↔ ¬ c.Flags e := by
  rw [Option.eq_none_iff_forall_ne_some]
  simp only [ne_eq, checkEntry_eq_some_iff]
  constructor
  · rintro h ⟨i, hi, hh⟩
    exact h _ ⟨i, hi, hh, rfl⟩
  · rintro h v ⟨i, hi, hh, -⟩
    exact h ⟨i, hi, hh⟩

theorem checkEntry_list_eq_none_iff (cs : List Constraint) (e : LogEntry) :
    checkEntry cs e = none ↔ ∀ c ∈ cs, ¬ c.Flags e := by
  simp only [checkEntry, List.findSome?_eq_none_iff, checkEntry_eq_none_iff]

/-- The audit in one pass is the three separate scans. -/
theorem scan_eq (cs : List Constraint) (n : Nat) (es : List LogEntry) :
    LogAudit.scan cs n es =
      { safe := es.filter (isEntrySafe cs)
        unsafeEntries := es.filter fun e => !isEntrySafe cs e
        first := firstFinding (checkEntry cs) n es } := by
  induction es generalizing n with
  | nil => rfl
  | cons e es ih =>
    rw [LogAudit.scan, ih, firstFinding]
    cases he : checkEntry cs e with
    | some v => simp [isEntrySafe, he]
    | none => simp [isEntrySafe, he]

/-- The scan over a logged box finds the first constraint that the relevant end satisfies. -/
theorem checkEntry_list_eq_some_iff (cs : List Constraint) (e : LogEntry) (v : Violation) :
    checkEntry cs e = some v ↔ ∃ (k : Nat) (c : Constraint) (i : Interval), cs[k]? = some c ∧
      e.region.interval? c.coordinate = some i ∧
      c.op.holds (if c.op.usesUpper then i.hi else i.lo) c.threshold = true ∧
      v = ⟨e.time, c, .interval i.lo i.hi⟩ ∧
      ∀ j < k, ∀ c', cs[j]? = some c' → ¬ Constraint.Flags c' e := by
  rw [checkEntry, findSome?_eq_some_iff_firstAt]
  simp only [FirstAt, checkEntry_eq_some_iff, checkEntry_eq_none_iff]
  constructor
  · rintro ⟨k, ⟨c, hc, i, hi, hh, rfl⟩, hbefore⟩
    exact ⟨k, c, i, hc, hi, hh, rfl, hbefore⟩
  · rintro ⟨k, c, i, hc, hi, hh, rfl, hbefore⟩
    exact ⟨k, ⟨c, hc, i, hi, hh, rfl⟩, hbefore⟩

theorem auditLog_first_eq_some_iff (cs : List Constraint) (log : UncertaintyLog) (i : Nat)
    (v : Violation) :
    (auditLog cs log).first = some (i, v) ↔ FirstAt (checkEntry cs) log.entries i v := by
  rw [auditLog, scan_eq, firstFinding_eq_some_iff]
  constructor
  · rintro ⟨j, rfl, h⟩
    rwa [Nat.zero_add]
  · intro h
    exact ⟨i, by omega, h⟩

theorem auditLog_first_eq_none_iff (cs : List Constraint) (log : UncertaintyLog) :
    (auditLog cs log).first = none ↔ ∀ entry ∈ log.entries, checkEntry cs entry = none := by
  rw [auditLog, scan_eq, firstFinding_eq_none_iff]

theorem unsafeEntries_eq_nil {cs : List Constraint} {log : UncertaintyLog}
    (h : ∀ entry ∈ log.entries, checkEntry cs entry = none) :
    (auditLog cs log).unsafeEntries = [] := by
  rw [auditLog, scan_eq]
  refine List.filter_eq_nil_iff.2 fun entry he => ?_
  simp [isEntrySafe, h entry he]

end TrajectorySafety
