import TrajectorySafety.Number.Binary

/-!
Decimal forms of a double.

`shortest` selects the fewest digits that read back as the same double, on the grids of 1, 2, …
digits. `Layout` holds the decisions of one way of writing them. `fixed` and `scientific` round the
exact value to a set number of places, a half to even.
-/

namespace TrajectorySafety.Number

/-- The number `digits * 10 ^ exponent`. -/
structure Decimal where
  digits : Nat
  exponent : Int
deriving Repr, DecidableEq

/-- What to do when two decimals of the same length are equally close. -/
inductive Tie where
  | toEven
  | up
deriving Repr, DecidableEq

/-- The decimal digits of a natural number. -/
def digitChars (n : Nat) : List Char := Nat.toDigits 10 n

/-- The exponent `k` with `10 ^ k ≤ num / den < 10 ^ (k + 1)`, for positive `num` and `den`. -/
def floorLog10 (num den : Nat) : Int :=
  if den ≤ num then ((digitChars (num / den)).length : Int) - 1
  else
    let n := (digitChars (den / num)).length
    if den ≤ num * pow10 (n - 1) then 1 - (n : Int) else -(n : Int)

/-- A positive double on the grid of the multiples of a power of ten. -/
structure OnGrid where
  /-- The multiple below it. -/
  floor : Nat
  /-- The part `rest / unit` of a step between that multiple and it. -/
  rest : Nat
  unit : Nat
  /-- The first and the last of the multiples that read back as it. -/
  first : Nat
  last : Nat
deriving Repr, DecidableEq

/-- The magnitude of `b` on the grid of step `10 ^ grid`. The numbers that round to it lie up to
half a step of doubles to either side, both ends included exactly when the significand is even;
below a power of two the step is half as wide. -/
def Binary.onGrid (b : Binary) (grid : Int) : OnGrid :=
  let m := b.significand
  let narrow := m == pow2 52 && b.exponent != -1074
  let quarter := pow2 (b.exponent - 2).toNat * pow10 (-grid).toNat
  let unit := pow2 (2 - b.exponent).toNat * pow10 grid.toNat
  let value := 4 * m * quarter
  let low := (if narrow then 4 * m - 1 else 4 * m - 2) * quarter
  let high := (4 * m + 2) * quarter
  let (first, last) :=
    if m % 2 = 0 then ((low + unit - 1) / unit, high / unit)
    else (low / unit + 1, (high + unit - 1) / unit - 1)
  { floor := value / unit, rest := value % unit, unit, first, last }

/-- Whether a multiple reads back. -/
def OnGrid.reads (x : OnGrid) (n : Nat) : Bool := x.first ≤ n && n ≤ x.last

/-- On the coarser grid of every `step`-th multiple, the neighbour that reads back; of two the
nearer. -/
def OnGrid.neighbour? (x : OnGrid) (tie : Tie) (step : Nat) : Option Nat :=
  let low := x.floor / step
  match x.reads (low * step), x.reads ((low + 1) * step) with
  | true, false => some low
  | false, true => some (low + 1)
  | false, false => none
  | true, true =>
    match compare (2 * (x.floor % step * x.unit + x.rest)) (step * x.unit) with
    | .lt => some low
    | .gt => some (low + 1)
    | .eq => if tie = .toEven ∧ low % 2 = 0 then some low else some (low + 1)

/-- The first of the grids of every `10 ^ k`-th, `10 ^ (k - 1)`-th, … multiple on which a neighbour
reads back, as its exponent, with that neighbour. -/
def OnGrid.search (x : OnGrid) (tie : Tie) : (k : Nat) → Nat × Nat
  | 0 => (0, (x.neighbour? tie 1).getD x.floor)
  | k + 1 =>
    match x.neighbour? tie (pow10 (k + 1)) with
    | some n => (k + 1, n)
    | none => x.search tie k

/-- The shortest decimal that reads back as the magnitude of `b`, which is not zero. Of a double
17 digits always read back. -/
def Binary.shortest (b : Binary) (tie : Tie) : Decimal :=
  let (num, den) := b.ratio
  let grid := floorLog10 num den - 16
  let (k, n) := (b.onGrid grid).search tie 16
  ⟨n, grid + k⟩

/-- The digits of a number with the point `places` digits from the right; the whole part is not
empty. -/
def pointed (places : Nat) (n : Nat) : List Char :=
  let ds := digitChars n
  let padded := List.replicate (places + 1 - ds.length) '0' ++ ds
  let whole := padded.take (padded.length - places)
  if places = 0 then whole else whole ++ '.' :: padded.drop (padded.length - places)

/-- The decisions of one way of writing a double by its shortest digits. -/
structure Layout where
  /-- Which of two equally close decimals is written. -/
  tie : Tie
  /-- The exponents of the leading digit that are written positionally; all of them if absent. -/
  positional : Option (Int × Int)
  /-- Whether a whole number ends in `.0`. -/
  pointZero : Bool
  /-- Whether a positive exponent has a plus sign. -/
  exponentPlus : Bool
  nan : String
  infinity : String
  negInfinity : String

/-- A decimal without an exponent. -/
def Layout.positionalChars (l : Layout) (d : Decimal) : List Char :=
  if d.exponent < 0 then pointed (-d.exponent).toNat d.digits
  else
    digitChars d.digits ++ List.replicate d.exponent.toNat '0' ++
      (if l.pointZero then ['.', '0'] else [])

/-- A decimal with one digit before the point and an exponent. -/
def Layout.exponentChars (l : Layout) (d : Decimal) : List Char :=
  let ds := digitChars d.digits
  let e := d.exponent + ds.length - 1
  let mantissa := match ds with
    | [] => []
    | [c] => [c]
    | c :: rest => c :: '.' :: rest
  let sign := if e < 0 then ['-'] else if l.exponentPlus then ['+'] else []
  mantissa ++ 'e' :: sign ++ digitChars e.natAbs

/-- Trailing zeros of the digits move into the exponent; a positional number has none of them after
the point. -/
def Decimal.strip : (zeros : Nat) → Decimal → Decimal
  | 0, d => d
  | n + 1, d =>
    if d.digits % 10 = 0 ∧ d.digits ≠ 0 then strip n ⟨d.digits / 10, d.exponent + 1⟩ else d

/-- The text of a double. -/
def Layout.render (l : Layout) (x : Float) : String :=
  match Binary.ofFloat? x with
  | none => if x.isNaN then l.nan else if signBit x then l.negInfinity else l.infinity
  | some b =>
    let d := if b.significand = 0 then ⟨0, 0⟩ else (b.shortest l.tie).strip 17
    let e := d.exponent + (digitChars d.digits).length - 1
    let plain := match l.positional with
      | none => true
      | some (low, high) => low ≤ e && e < high
    let body := if plain || b.significand = 0 then l.positionalChars d else l.exponentChars d
    String.ofList (if b.negative then '-' :: body else body)

/-- Numbers in messages and summaries: always positional, whole numbers without a point. -/
def messageLayout : Layout where
  tie := .up
  positional := none
  pointZero := false
  exponentPlus := false
  nan := "NaN"
  infinity := "inf"
  negInfinity := "-inf"

/-- The text of a number in messages and summaries. -/
def text (x : Float) : String := messageLayout.render x

/-- The text of a value that is no number of the line: shared by the forms with a set number of
places. -/
def specialText (x : Float) : String :=
  if x.isNaN then "NaN" else if signBit x then "-inf" else "inf"

/-- The exact value rounded to a set number of decimal places. -/
def fixedChars (places : Nat) (b : Binary) : List Char :=
  let (num, den) := b.ratio
  let body := pointed places (roundDiv (num * pow10 places) den)
  if b.negative then '-' :: body else body

/-- A double with a set number of decimal places. -/
def fixed (places : Nat) (x : Float) : String :=
  match Binary.ofFloat? x with
  | some b => String.ofList (fixedChars places b)
  | none => specialText x

/-- A double in scientific form with `places` digits after the point. Rounding up to the next power
of ten raises the exponent. -/
def scientific (places : Nat) (x : Float) : String :=
  match Binary.ofFloat? x with
  | none => specialText x
  | some b =>
    let (num, den) := b.ratio
    let (m, e) : Nat × Int :=
      if num = 0 then (0, 0)
      else
        let e := floorLog10 num den
        let grid := e - places
        let m := roundDiv (num * pow10 (-grid).toNat) (den * pow10 grid.toNat)
        if m = pow10 (places + 1) then (pow10 places, e + 1) else (m, e)
    let sign := if e < 0 then ['-'] else []
    let body := pointed places m ++ 'e' :: sign ++ digitChars e.natAbs
    String.ofList (if b.negative then '-' :: body else body)

end TrajectorySafety.Number
