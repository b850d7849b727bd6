import TrajectorySafety.Error
import TrajectorySafety.State

/-!
Closed intervals and the boxes that they span.

`Interval.make` accepts finite bounds in order. `scaled?` shrinks or stretches an interval around
its centre; a shrunk interval is clamped into the one it came from.
-/

namespace TrajectorySafety

/-- The closed interval from `lo` to `hi`. -/
structure Interval where
  lo : Float
  hi : Float
deriving Repr

namespace Interval

/-- Finite bounds in order. -/
def Valid (i : Interval) : Prop := i.lo.isFinite ∧ i.hi.isFinite ∧ i.lo ≤ i.hi

/-- An interval with the given bounds, which must be finite and in order. -/
def make (lo hi : Float) : Except Fault Interval :=
  if !lo.isFinite || !hi.isFinite then .error (.unboundedInterval lo hi)
  else if hi < lo then .error (.invertedInterval lo hi)
  else .ok ⟨lo, hi⟩

/-- The interval that reaches `halfWidth` to both sides of `center`. -/
def around (center halfWidth : Float) : Except Fault Interval :=
  if halfWidth < 0 then .error (.negativeHalfWidth halfWidth)
  else make (center - halfWidth) (center + halfWidth)

/-- Whether a value lies between the bounds, ends included. -/
def contains (i : Interval) (value : Float) : Bool := i.lo ≤ value && value ≤ i.hi

def width (i : Interval) : Float := i.hi - i.lo

def text (i : Interval) : String := s!"[{Number.text i.lo}, {Number.text i.hi}]"

/-- A value moved to the nearest bound if it lies beyond it; a NaN stays. The bounds must be in
order, which a NaN among them is not. -/
def clamp? (value low high : Float) : Option Float :=
  if low ≤ high then
    let v := if value < low then low else value
    some (if high < v then high else v)
  else none

/-- The interval with the same centre and its half-width multiplied by `factor`, a negative
half-width taken as zero. With a factor of at most one the bounds are clamped into the interval;
this has no answer if the interval is so wide that its width overflows. -/
def scaled? (i : Interval) (factor : Float) : Option Interval := do
  let center := i.lo + i.width / 2
  let half := Number.larger (i.width / 2 * factor) 0
  let lo := center - half
  let hi := center + half
  if factor ≤ 1 then
    let lo ← clamp? lo i.lo i.hi
    let hi ← clamp? hi lo i.hi
    some ⟨lo, hi⟩
  else some ⟨lo, hi⟩

end Interval

/-- An axis-aligned box: one interval per coordinate. -/
structure Box where
  intervals : List Interval
deriving Repr

namespace Box

/-- A box from pairs of bounds; the first pair that is no interval is the fault. -/
def ofBounds (bounds : List (Float × Float)) : Except Fault Box :=
  Box.mk <$> bounds.mapM fun (lo, hi) => Interval.make lo hi

def dimension (b : Box) : Nat := b.intervals.length

/-- The interval of a coordinate. -/
def interval? (b : Box) (i : Nat) : Option Interval := b.intervals[i]?

/-- The first coordinate of a state that lies outside. A state of another dimension is outside at
the first coordinate that only one of the two has. -/
def firstOutside (b : Box) (s : State) : Option Nat :=
  if s.dimension ≠ b.dimension then some (min s.dimension b.dimension)
  else (b.intervals.zip s.coordinates).findIdx? fun (i, v) => !i.contains v

/-- Whether a state lies in the box, ends included. -/
def contains (b : Box) (s : State) : Bool := (b.firstOutside s).isNone

/-- The box with every interval scaled around its centre. -/
def scaled? (b : Box) (factor : Float) : Option Box :=
  Box.mk <$> b.intervals.mapM fun i => i.scaled? factor

def text (b : Box) : String := "[" ++ ", ".intercalate (b.intervals.map Interval.text) ++ "]"

end Box

end TrajectorySafety
