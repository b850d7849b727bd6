/-!
The exact value of a double, and the double nearest to a ratio of natural numbers.

`Binary.ofFloat?` reads a finite double as `±significand * 2 ^ exponent`; `nearest` goes the other
way from any ratio, to the nearest double with ties to even. Everything that must not lose a digit
(printing, reading, the fused multiply-add, the constants of the logarithm) is computed between the
two.
-/

namespace TrajectorySafety.Number

/-- A power of two. -/
def pow2 (n : Nat) : Nat := Nat.pow 2 n

/-- A power of ten. -/
def pow10 (n : Nat) : Nat := Nat.pow 10 n

/-- `num / den` rounded to the nearest natural number, a half to the even neighbour. -/
def roundDiv (num den : Nat) : Nat :=
  let q := num / den
  let r := num % den
  if 2 * r < den then q
  else if den < 2 * r then q + 1
  else if q % 2 = 0 then q else q + 1

/-- The number `±significand * 2 ^ exponent`. -/
structure Binary where
  negative : Bool
  significand : Nat
  exponent : Int
deriving Repr, DecidableEq

/-- The exponent field of a double. -/
def exponentField (x : Float) : Nat := x.toBits.toNat / pow2 52 % pow2 11

/-- The fraction field of a double. -/
def fractionField (x : Float) : Nat := x.toBits.toNat % pow2 52

/-- Whether the sign bit is set. -/
def signBit (x : Float) : Bool := pow2 63 ≤ x.toBits.toNat

/-- The exact value of a finite double; `none` for a NaN and the infinities. A subnormal has the
exponent of the smallest normal number and no leading one. -/
def Binary.ofFloat? (x : Float) : Option Binary :=
  let e := exponentField x
  let f := fractionField x
  if e = 2047 then none
  else if e = 0 then some ⟨signBit x, f, -1074⟩
  else some ⟨signBit x, f + pow2 52, (e : Int) - 1075⟩

/-- Numerator and denominator of the magnitude `significand * 2 ^ exponent`. -/
def Binary.ratio (b : Binary) : Nat × Nat :=
  (b.significand * pow2 b.exponent.toNat, pow2 (-b.exponent).toNat)

/-- The exponent `e` with `2 ^ e ≤ num / den < 2 ^ (e + 1)`, for positive `num` and `den`. -/
def floorLog2 (num den : Nat) : Int :=
  let e : Int := (Nat.log2 num : Int) - Nat.log2 den
  if den * pow2 e.toNat ≤ num * pow2 (-e).toNat then e else e - 1

/-- The bits of the double nearest to `num / den`, without its sign. The step between neighbours is
`2 ^ q`; consecutive doubles have consecutive bits, so a significand that rounds up to the next
power of two carries into the exponent field by itself, and beyond the largest finite double the
field stops at infinity. -/
def nearestBits (num den : Nat) : Nat :=
  if num = 0 then 0
  else
    let q := max (floorLog2 num den - 52) (-1074)
    if 971 < q then 2047 * pow2 52
    else
      let m := roundDiv (num * pow2 (-q).toNat) (den * pow2 q.toNat)
      min ((q + 1074).toNat * pow2 52 + m) (2047 * pow2 52)

/-- The double nearest to `±num / den`, ties to even. A ratio too large for the format gives an
infinity, one too small a zero of the same sign. -/
def nearest (negative : Bool) (num den : Nat) : Float :=
  Float.ofBits (UInt64.ofNat ((if negative then pow2 63 else 0) + nearestBits num den))

/-- Positive infinity. -/
def infinity : Float := Float.ofBits 0x7ff0000000000000

/-- Negative infinity. -/
def negInfinity : Float := Float.ofBits 0xfff0000000000000

/-- The value that is not a number. -/
def notANumber : Float := Float.ofBits 0x7ff8000000000000

/-- The double nearest to a natural number. -/
def ofNat (n : Nat) : Float := nearest false n 1

/-- The sum of two exact values as an integer multiple of a power of two. -/
def Binary.sum (a b : Binary) : Int × Int :=
  let e := min a.exponent b.exponent
  let part := fun (c : Binary) =>
    let m : Int := c.significand * pow2 (c.exponent - e).toNat
    if c.negative then -m else m
  (part a + part b, e)

/-- The exact product. -/
def Binary.product (a b : Binary) : Binary :=
  ⟨xor a.negative b.negative, a.significand * b.significand, a.exponent + b.exponent⟩

/-- `a * b + c` with a single rounding at the end. With an infinity or a NaN among the operands, or
an exact sum of zero, the two separate operations give the same answer. -/
def fusedMulAdd (a b c : Float) : Float :=
  match Binary.ofFloat? a, Binary.ofFloat? b, Binary.ofFloat? c with
  | some x, some y, some z =>
    let (m, e) := (x.product y).sum z
    if m = 0 then a * b + c
    else nearest (m < 0) (m.natAbs * pow2 e.toNat) (pow2 (-e).toNat)
  | _, _, _ => a * b + c

/-- The least natural number not below `x`, cut off at `limit`; zero for a negative value and for a
NaN. -/
def ceilNat (limit : Nat) (x : Float) : Nat :=
  match Binary.ofFloat? x with
  | some b =>
    if b.negative then 0
    else
      let (num, den) := b.ratio
      min limit ((num + den - 1) / den)
  | none => if x.isNaN || signBit x then 0 else limit

/-- The larger of two doubles, where a NaN gives way to the other. -/
def larger (a b : Float) : Float :=
  if a.isNaN then b else if b.isNaN then a else if a ≤ b then b else a

end TrajectorySafety.Number
