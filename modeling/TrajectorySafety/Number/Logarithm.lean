import TrajectorySafety.Number.Binary
import TrajectorySafety.Number.Reciprocal

/-!
The natural logarithm of a double.

`ln` writes its argument as `2 ^ k * z`, takes the point `c` of the piece in which `z` lies, and
adds up `k * ln 2`, `ln c` and a polynomial in `z / c - 1`; close to one a longer polynomial stands
alone. The sums are kept in two doubles until the last step. Most results are the nearest double;
where the exact value lies almost halfway between two doubles, the other of them may come out.

The constants `ln 2` and `ln c` come from the exact side. There an argument is written `2 ^ k * y`
with `2/3 < y ≤ 4/3`, and `ln y = ± 2 atanh z` with `z ≤ 1/5`. Both `atanh z` and
`ln 2 = 2 atanh (1/3)` are summed in fixed point with `2 ^ precision` units.
-/

namespace TrajectorySafety.Number

/-- Binary places of the fixed-point sums. -/
def precision : Nat := 192

/-- One unit of the fixed-point sums. -/
def unit : Nat := pow2 precision

/-- The next `terms` summands of the series of `atanh`, from the one with denominator `k` on:
`power / k + power * square / (k + 2) + …`. -/
def atanhTerms : (terms : Nat) → (k power square : Nat) → Nat
  | 0, _, _, _ => 0
  | n + 1, k, power, square => power / k + atanhTerms n (k + 2) (power * square / unit) square

/-- `atanh (num / den)` in units, for a ratio of at most `1/3`. -/
def atanh (num den : Nat) : Nat :=
  let z := num * unit / den
  atanhTerms 64 1 z (z * z / unit)

/-- `ln 2` in units. -/
def ln2 : Nat := 2 * atanh 1 3

/-- `ln (num / den)` in units, for positive `num` and `den`. -/
def lnUnits (num den : Nat) : Int :=
  let e := floorLog2 num den
  let top := num * pow2 (-e).toNat
  let bottom := den * pow2 e.toNat
  -- `top / bottom` lies between 1 and 2; its upper part is measured from 2 downwards.
  if 3 * top ≤ 4 * bottom then
    e * ln2 + 2 * atanh (top - bottom) (top + bottom)
  else
    (e + 1) * ln2 - 2 * atanh (2 * bottom - top) (top + 2 * bottom)

/-- A value in units, rounded to a multiple of `2 ^ -places`. -/
def toPlaces (places : Nat) (v : Int) : Float :=
  nearest (v < 0) (roundDiv v.natAbs (pow2 (precision - places))) (pow2 places)

/-- The upper part of `ln 2`, with so few places that its multiples are exact. -/
def ln2High : Float := toPlaces 42 ln2

/-- What the upper part of `ln 2` leaves. -/
def ln2Low : Float := nearest false (ln2 % pow2 (precision - 42)) unit

/-- The logarithm of the point of a piece. -/
def centerLog (piece : Nat) : Float :=
  match Binary.ofFloat? (reciprocal piece) with
  | some b =>
    let (num, den) := b.ratio
    toPlaces 43 (lnUnits den num)
  | none => 0

/-- The number `2 ^ scale * value` with a value from 11/16 to 11/8, and the piece it lies in. -/
structure Reduced where
  scale : Int
  value : Float
  piece : Nat

/-- The reduced form of `significand * 2 ^ exponent`, for a positive significand of at most 53
binary digits. The seven digits after the leading one tell the piece. -/
def Reduced.ofBinary (b : Binary) : Reduced :=
  let shift := 52 - Nat.log2 b.significand
  let m := b.significand * pow2 shift
  let e := b.exponent + 52 - shift
  let digits := m / pow2 45 % 128
  if digits < 48 then ⟨e, nearest false m (pow2 52), digits + 80⟩
  else ⟨e + 1, nearest false m (pow2 53), digits - 48⟩

/-- `a + b * r + c * r²`, where `square` is the square of `r`. -/
def quadratic (a b c : Float) (r square : Float) : Float :=
  fusedMulAdd square c (fusedMulAdd r b a)

/-- `ln (1 + r)` for an `r` from -1/16 to about 1/15. The first two terms, `r - r² / 2`, are kept in
two parts: `r` without its lower half has an exact square. The other coefficients, 1/3, -1/4 and so
on up to the twelfth power, are fitted to the range. -/
def lnNearOne (r : Float) : Float :=
  let r2 := r * r
  let r3 := r * r2
  let tail := quadratic (Float.ofBits 0x3fbc7184282ad6ca) (Float.ofBits 0xbfb999eb43b068ff)
    (Float.ofBits 0x3fb78182f7afd085) r r2
  let tail := fusedMulAdd r3 (Float.ofBits 0xbfb5521375d145cd) tail
  let tail := fusedMulAdd tail r3 <| quadratic (Float.ofBits 0xbfc55555556745a7)
    (Float.ofBits 0x3fc24924a344de30) (Float.ofBits 0xbfbfffffa4423d65) r r2
  let tail := fusedMulAdd tail r3 <| quadratic (Float.ofBits 0x3fd5555555555577)
    (Float.ofBits 0xbfcffffffffffdcb) (Float.ofBits 0x3fc999999995dd0c) r r2
  let w := r * ofNat (pow2 27)
  let upper := r + w - w
  let w := -0.5 * (upper * upper)
  let high := r + w
  let low := fusedMulAdd (-0.5 * (r - upper)) (upper + r) (r - high + w)
  fusedMulAdd tail r3 low + high

/-- The logarithm of a number in reduced form. The coefficients of the polynomial, -1/2, 1/3 and so
on up to the sixth power, are fitted to the size of a piece. -/
def Reduced.ln (x : Reduced) : Float :=
  let k := nearest (x.scale < 0) x.scale.natAbs 1
  let r := fusedMulAdd x.value (reciprocal x.piece) (-1)
  let w := fusedMulAdd k ln2High (centerLog x.piece)
  let high := w + r
  let low := fusedMulAdd k ln2Low (w - high + r)
  let r2 := r * r
  let low := fusedMulAdd r2 (Float.ofBits 0xbfe0000000000001) low
  let tail := fusedMulAdd r (Float.ofBits 0xbfc55575e506c89f) (Float.ofBits 0x3fc999b324f10111)
  let tail := fusedMulAdd tail r2 <|
    fusedMulAdd r (Float.ofBits 0xbfcfffffffeb4590) (Float.ofBits 0x3fd555555551305b)
  fusedMulAdd (r * r2) tail low + high

/-- The natural logarithm. -/
def ln (x : Float) : Float :=
  match Binary.ofFloat? x with
  | some b =>
    if b.significand = 0 then negInfinity
    else if b.negative then notANumber
    else if 0.9375 ≤ x ∧ x < 1.064697265625 then lnNearOne (x - 1)
    else (Reduced.ofBinary b).ln
  | none => if x.isNaN || signBit x then notANumber else infinity

end TrajectorySafety.Number
