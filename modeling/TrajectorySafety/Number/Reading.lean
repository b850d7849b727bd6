import TrajectorySafety.Number.Binary

/-!
Numbers read from text: unsigned integers in a base, and decimal numerals.

Both work on the list of characters of a field and accept the whole of it or nothing.
-/

namespace TrajectorySafety.Number

/-- The largest count, time or seed: these are 64-bit words. -/
def wordLimit : Nat := pow2 64 - 1

/-- The value of a digit in a base of at most sixteen. -/
def digitValue? (base : Nat) (c : Char) : Option Nat :=
  let v :=
    if '0' ≤ c ∧ c ≤ '9' then c.toNat - '0'.toNat
    else if 'a' ≤ c ∧ c ≤ 'f' then c.toNat - 'a'.toNat + 10
    else if 'A' ≤ c ∧ c ≤ 'F' then c.toNat - 'A'.toNat + 10
    else base
  if v < base then some v else none

/-- The value of digits that continue a number. -/
def digitsValue? (base : Nat) : (value : Nat) → List Char → Option Nat
  | v, [] => some v
  | v, c :: rest => do digitsValue? base (v * base + (← digitValue? base c)) rest

/-- At least one digit, in a base. -/
def natural? (base : Nat) : List Char → Option Nat
  | [] => none
  | cs => digitsValue? base 0 cs

/-- A number that fits a word: a plus sign may stand in front, a minus sign may not. -/
def unsigned? (cs : List Char) : Option Nat := do
  let n ← natural? 10 (match cs with | '+' :: rest => rest | _ => cs)
  if n ≤ wordLimit then some n else none

/-- Whether a character is one of the ten ASCII digits. -/
def isDigit (c : Char) : Bool := '0' ≤ c && c ≤ '9'

/-- The value of digits that are known to be such. -/
def digitsNat (cs : List Char) : Nat := cs.foldl (fun n c => n * 10 + (c.toNat - '0'.toNat)) 0

/-- The double nearest to `±digits * 10 ^ exponent`. Exponents so large or small that the result is
an infinity or a zero are not expanded. -/
def ofDecimal (negative : Bool) (digits : Nat) (exponent : Int) : Float :=
  let e : Int := exponent + (Nat.log2 digits : Int) / 3
  if digits = 0 then nearest negative 0 1
  else if 400 < exponent then nearest negative (pow10 400) 1
  else if e < -400 then nearest negative 0 1
  else nearest negative (digits * pow10 exponent.toNat) (pow10 (-exponent).toNat)

/-- A sign and the rest. -/
def splitSign : List Char → Bool × List Char
  | '-' :: rest => (true, rest)
  | '+' :: rest => (false, rest)
  | cs => (false, cs)

/-- The exponent part that ends a numeral: nothing, or a mark, an optional sign and digits. -/
def exponentPart? : List Char → Option Int
  | [] => some 0
  | c :: rest =>
    if c = 'e' ∨ c = 'E' then
      let (negative, ds) := splitSign rest
      if ds.isEmpty || !ds.all isDigit then none
      else some (if negative then -(digitsNat ds : Int) else digitsNat ds)
    else none

/-- A numeral without its sign: digits with at most one point among them, at least one digit, and an
optional exponent, as significand and power of ten. -/
def numeral? (cs : List Char) : Option (Nat × Int) :=
  let whole := cs.takeWhile isDigit
  let (fraction, rest) := match cs.dropWhile isDigit with
    | '.' :: after => (after.takeWhile isDigit, after.dropWhile isDigit)
    | after => ([], after)
  if whole.isEmpty && fraction.isEmpty then none
  else do
    let e ← exponentPart? rest
    some (digitsNat (whole ++ fraction), e - fraction.length)

/-- A decimal number: an optional sign, then a numeral, `inf`, `infinity` or `nan` in any mix of
cases. The result is the nearest double; a numeral that is too large gives an infinity. -/
def float? (cs : List Char) : Option Float :=
  let (negative, body) := splitSign cs
  let lower := body.map Char.toLower
  if lower = "inf".toList ∨ lower = "infinity".toList then
    some (if negative then negInfinity else infinity)
  else if lower = "nan".toList then some notANumber
  else do
    let (m, e) ← numeral? body
    some (ofDecimal negative m e)

end TrajectorySafety.Number
