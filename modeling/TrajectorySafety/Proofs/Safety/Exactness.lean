import TrajectorySafety.Proofs.Log.Boxes
import TrajectorySafety.Proofs.Safety.Scan

/-!
The check of a logged box is exact.

It looks at one end of one interval for each constraint. It misses nothing, since a comparison that
holds somewhere in an interval holds at the end that is checked (`flags_of_violatedBy`; this needs
nothing of the interval, whose ends may be NaN or in the wrong order). It invents nothing either:
the corner of the box at which all those ends meet is a state of the box (`contains_corner`), if the
intervals are proper ones. So a box is flagged exactly if some state in it violates a constraint.
-/

namespace TrajectorySafety

/-! ## Nothing is missed -/

/-- If a comparison holds somewhere in an interval, it holds at the end that is checked. -/
theorem Operator.holds_of_contains {op : Operator} {i : Interval} {x c : Float}
    (hx : i.contains x = true) (h : op.holds x c = true) :
    op.holds (if op.usesUpper then i.hi else i.lo) c = true := by
  obtain ⟨hlo, hhi⟩ := (i.contains_iff x).1 hx
  cases op with
  | ge => exact decide_eq_true (Number.le_trans (of_decide_eq_true h) hhi)
  | le => exact decide_eq_true (Number.le_trans hlo (of_decide_eq_true h))
  | gt => exact decide_eq_true (Number.lt_of_lt_of_le (of_decide_eq_true h) hhi)
  | lt => exact decide_eq_true (Number.lt_of_le_of_lt hlo (of_decide_eq_true h))

/-- A logged box is flagged by every constraint that some state in it violates. -/
theorem Constraint.flags_of_violatedBy {c : Constraint} {e : LogEntry} {s : State} {x : Float}
    (hs : e.region.contains s = true) (h : c.ViolatedBy s x) : c.Flags e := by
  obtain ⟨hget, hholds⟩ := h
  obtain ⟨hd, hall⟩ := (e.region.contains_iff s).1 hs
  have hlt : c.coordinate < e.region.intervals.length := by
    have := (List.getElem?_eq_some_iff.1 hget).1
    unfold State.dimension Box.dimension at hd
    omega
  have hi : e.region.interval? c.coordinate = some e.region.intervals[c.coordinate] :=
    List.getElem?_eq_getElem hlt
  exact ⟨_, hi, Operator.holds_of_contains (hall _ _ x hi hget) hholds⟩

/-! ## Nothing is invented -/

/-- The upper or the lower end of an interval. -/
def Interval.extreme (i : Interval) (upper : Bool) : Float := if upper then i.hi else i.lo

/-- The state at which the upper, or the lower, ends of all intervals meet. -/
def Box.corner (b : Box) (upper : Bool) : State := ⟨b.intervals.map (·.extreme upper)⟩

theorem Interval.contains_extreme {i : Interval} (h : i.Valid) (upper : Bool) :
    i.contains (i.extreme upper) = true := by
  obtain ⟨hlo, hhi, hle⟩ := h
  have hself : ∀ {x : Float}, x.isFinite = true → x ≤ x := fun hx =>
    (Number.le_iff _ _).2 ⟨Number.isNaN_of_isFinite hx, Number.isNaN_of_isFinite hx, Int.le_refl _⟩
  rw [contains_iff]
  cases upper with
  | true => exact ⟨hle, hself hhi⟩
  | false => exact ⟨hself hlo, hle⟩

theorem Box.get?_corner (b : Box) (upper : Bool) (k : Nat) :
    (b.corner upper).get? k = (b.interval? k).map (·.extreme upper) := List.getElem?_map

theorem Box.contains_corner {b : Box} (h : ∀ i ∈ b.intervals, i.Valid) (upper : Bool) :
    b.contains (b.corner upper) = true := by
  rw [contains_iff]
  refine ⟨List.length_map _, fun k i x hi hx => ?_⟩
  rw [get?_corner, hi] at hx
  obtain rfl := Option.some.inj hx
  exact Interval.contains_extreme (h i (List.mem_of_getElem? hi)) upper

/-- Where a constraint flags a box, it is violated at the corner of the ends that are checked. -/
theorem Constraint.Flags.corner {c : Constraint} {e : LogEntry} (h : c.Flags e) :
    ∃ x, c.ViolatedBy (e.region.corner c.op.usesUpper) x := by
  obtain ⟨i, hi, hholds⟩ := h
  refine ⟨i.extreme c.op.usesUpper, ?_, hholds⟩
  rw [Box.get?_corner, hi]
  rfl

/-! ## Logged boxes and their states -/

/-- A flagged box has a state that violates the reported constraint, and none before it. -/
theorem checkState_corner {e : LogEntry} (hvalid : ∀ i ∈ e.region.intervals, i.Valid)
    {cs : List Constraint} {v : Violation} (h : checkEntry cs e = some v) (time : Nat) :
    ∃ s x, e.region.contains s = true ∧
      checkState cs s time = some ⟨time, v.constraint, .value x⟩ := by
  obtain ⟨k, c, i, hc, hi, hholds, rfl, hbefore⟩ := (checkEntry_list_eq_some_iff _ _ _).1 h
  obtain ⟨x, hx⟩ := Constraint.Flags.corner ⟨i, hi, hholds⟩
  have hin := Box.contains_corner hvalid c.op.usesUpper
  refine ⟨_, x, hin, (findSome?_eq_some_iff_firstAt _ _ _).2 ⟨k, ⟨c, hc, ?_⟩, ?_⟩⟩
  · exact (checkState_eq_some_iff _ _ _ _).2 ⟨x, hx, rfl⟩
  · -- a constraint that does not flag the box is violated nowhere in it
    intro j hj c' hc'
    refine (checkState_eq_none_iff _ _ _).2 fun y hy => ?_
    exact hbefore j hj c' hc' (Constraint.flags_of_violatedBy hin hy)

theorem checkEntry_ne_none_of_checkState {e : LogEntry} {cs : List Constraint} {s : State}
    {time : Nat} (hs : e.region.contains s = true) (h : checkState cs s time ≠ none) :
    checkEntry cs e ≠ none := by
  intro hnone
  refine h ((checkState_list_eq_none_iff _ _ _).2 fun c hc x hx => ?_)
  exact (checkEntry_list_eq_none_iff _ _).1 hnone c hc (Constraint.flags_of_violatedBy hs hx)

/-- The check of a logged box of proper intervals is exact, whatever the constraints and their
thresholds. The box is flagged exactly if some state in it violates a constraint, and then one of
them violates the reported constraint as its first; a box that is judged safe has no violating state
in it. -/
theorem checkEntry_exact {e : LogEntry} (hvalid : ∀ i ∈ e.region.intervals, i.Valid)
    (cs : List Constraint) (time : Nat) :
    (checkEntry cs e ≠ none ↔
      ∃ s, e.region.contains s = true ∧ checkState cs s time ≠ none) ∧
    (isEntrySafe cs e = true ↔
      ∀ s, e.region.contains s = true → checkState cs s time = none) ∧
    ∀ v, checkEntry cs e = some v → ∃ s x, e.region.contains s = true ∧
      checkState cs s time = some ⟨time, v.constraint, .value x⟩ := by
  have hiff : checkEntry cs e ≠ none ↔
      ∃ s, e.region.contains s = true ∧ checkState cs s time ≠ none := by
    constructor
    · intro hflagged
      obtain ⟨v, hv⟩ := Option.ne_none_iff_exists'.1 hflagged
      obtain ⟨s, x, hs, hcheck⟩ := checkState_corner hvalid hv time
      exact ⟨s, hs, by rw [hcheck]; exact Option.some_ne_none _⟩
    · rintro ⟨s, hs, hcheck⟩
      exact checkEntry_ne_none_of_checkState hs hcheck
  refine ⟨hiff, ?_, fun v hv => checkState_corner hvalid hv time⟩
  rw [isEntrySafe, Option.isNone_iff_eq_none]
  constructor
  · intro hnone s hs
    by_contra hcheck
    exact hiff.2 ⟨s, hs, hcheck⟩ hnone
  · intro hall
    by_contra hflagged
    obtain ⟨s, hs, hcheck⟩ := hiff.1 hflagged
    exact hcheck (hall s hs)

/-- A box that a strict bound touches, with a single value in its second coordinate. -/
def touchingEntry : LogEntry := ⟨⟨[⟨0, 1⟩, ⟨2, 2⟩]⟩, 3⟩

/-- A strict bound at the end of an interval and one on a coordinate that the box does not have are
violated nowhere; a bound at the single value is violated. -/
theorem checkEntry_touching :
    (∀ s, touchingEntry.region.contains s = true →
      checkState [⟨0, .gt, 1⟩, ⟨7, .ge, 0⟩] s 3 = none) ∧
    ∃ s, touchingEntry.region.contains s = true ∧
      checkState [⟨0, .gt, 1⟩, ⟨7, .ge, 0⟩, ⟨1, .le, 2⟩] s 3 ≠ none := by
  have hvalid : ∀ i ∈ touchingEntry.region.intervals, i.Valid := by decide +kernel
  have hunflagged : isEntrySafe [⟨0, .gt, 1⟩, ⟨7, .ge, 0⟩] touchingEntry = true := by decide +kernel
  have hflagged : checkEntry [⟨0, .gt, 1⟩, ⟨7, .ge, 0⟩, ⟨1, .le, 2⟩] touchingEntry ≠ none :=
    Option.isSome_iff_ne_none.1 (by decide +kernel)
  exact ⟨(checkEntry_exact hvalid _ 3).2.1.1 hunflagged, (checkEntry_exact hvalid _ 3).1.1 hflagged⟩

end TrajectorySafety
