import TrajectorySafety.Number.Reading
import TrajectorySafety.Yaml.Document

/-!
The rules by which the scalars of a YAML document are read.

Only plain scalars, and blocks with the tag of the type, are anything but text. A number with
leading zeros is no whole number. Where several types are possible a scalar is nothing, a flag, a
whole number, another number or a text, the first that fits.
-/

namespace TrajectorySafety.Yaml

open Number

/-- The words for nothing. -/
def isNull (t : String) : Bool := t == "null" || t == "Null" || t == "NULL" || t == "~"

/-- The words for the truth values. -/
def truth? (t : String) : Option Bool :=
  if t == "true" || t == "True" || t == "TRUE" then some true
  else if t == "false" || t == "False" || t == "FALSE" then some false
  else none

/-- Digits with a zero in front, which are no number but a text. -/
def hasLeadingZero (cs : List Char) : Bool :=
  match (splitSign cs).2 with
  | '0' :: d :: rest => (d :: rest).all isDigit
  | _ => false

/-- Digits after the mark of their base. -/
def marked? : List Char → Option Nat
  | '0' :: 'x' :: ds => natural? 16 ds
  | '0' :: 'o' :: ds => natural? 8 ds
  | '0' :: 'b' :: ds => natural? 2 ds
  | _ => none

/-- A whole number without a sign, in one of the four bases. -/
def whole? (cs : List Char) : Option Nat :=
  marked? cs <|> if hasLeadingZero cs then none else natural? 10 cs

/-- A number that is not negative and at most a limit; a plus sign may stand in front. -/
def upTo? (limit : Nat) (cs : List Char) : Option Nat :=
  (whole? (match cs with | '+' :: rest => rest | _ => cs)).filter (· ≤ limit)

/-- The magnitude of a number with a minus sign, at most a limit. -/
def minusUpTo? (limit : Nat) : List Char → Option Nat
  | '-' :: rest => (whole? rest).filter (· ≤ limit)
  | _ => none

/-- A number: a finite decimal numeral, or one of the words for infinities and NaN. -/
def number? (cs : List Char) : Option Float :=
  let magnitude := match cs with
    | '+' :: rest => rest
    | _ => cs
  let signs := cs != magnitude && (magnitude.head? == some '+' || magnitude.head? == some '-')
  let t := String.ofList magnitude
  let w := String.ofList cs
  if signs then none
  else if t == ".inf" || t == ".Inf" || t == ".INF" then some infinity
  else if w == "-.inf" || w == "-.Inf" || w == "-.INF" then some negInfinity
  else if w == ".nan" || w == ".NaN" || w == ".NAN" then some notANumber
  else (float? magnitude).filter (·.isFinite)

/-- Whether a scalar may be of a type other than text: it is plain, or a block with the tag of the
type. -/
def mayBe (type : String) (s : Scalar) : Bool :=
  match s.style with
  | .plain => true
  | .literal => s.tag == some (.type type)
  | .quoted => false

/-- A scalar read by a rule if it may be of a type. -/
def typed? {α : Type} (type : String) (rule : String → Option α) (s : Scalar) : Option α :=
  if mayBe type s then rule s.text else none

/-- The largest magnitudes of whole numbers of twice the usual width, which are refused. -/
def wideLimit : Nat := pow2 128 - 1

/-- A whole number where several types are possible, outermost `none` if it is none, innermost if
it is too large. -/
def wholeKind? (cs : List Char) : Option (Option Kind) :=
  match upTo? wordLimit cs, minusUpTo? (pow2 63) cs with
  | some n, _ => some (some (.count n))
  | none, some n => some (some (.minus n))
  | none, none =>
    if (upTo? wideLimit cs).isSome || (minusUpTo? (pow2 127) cs).isSome then some none else none

/-- The type of a plain scalar without a tag. -/
def plainKind? (t : String) : Option Kind :=
  if t.isEmpty || isNull t then some .null
  else
    match truth? t with
    | some b => some (.flag b)
    | none =>
      match wholeKind? t.toList with
      | some k => k
      | none =>
        match if hasLeadingZero t.toList then none else number? t.toList with
        | some x => some (.real x)
        | none => some (.text t)

/-- The type of a scalar with the tag of a type, which it must fit. -/
def typedKind? (type t : String) : Option Kind :=
  match type with
  | "bool" => (truth? t).map .flag
  | "int" => (wholeKind? t.toList).join
  | "float" => (number? t.toList).map .real
  | "null" => if isNull t then some .null else none
  | _ => some (.text t)

/-- The type of a scalar. One with a name of the document's own has none, unless the name cannot be
read. -/
def kind? (s : Scalar) : Option Kind :=
  match s.tag with
  | some (.type type) => typedKind? type s.text
  | some (.own (some _)) => none
  | some .other => some (.text s.text)
  | some (.own none) | none =>
    if s.style = .plain then plainKind? s.text else some (.text s.text)

/-- Whether a scalar stands for an absent value. -/
def absent? (s : Scalar) : Option Bool :=
  if s.style ≠ .plain then some false
  else
    match s.tag with
    | none => some (s.text.isEmpty || isNull s.text)
    | some (.type "null") => if isNull s.text then some true else none
    | some _ => some false

/-- The name of a variant without fields: any scalar, or a name of the document's own on nothing. -/
def variantName? : Node → Option String
  | .scalar s =>
    match s.tag with
    | some (.own (some name)) =>
      if s.style = .plain && (s.text.isEmpty || isNull s.text) then some name else none
    | _ => some s.text
  | _ => none

/-- The rules of YAML. -/
def dialect : Dialect where
  flag? := typed? "bool" truth?
  count? := typed? "int" fun t => upTo? wordLimit t.toList
  real? := typed? "float" fun t => number? t.toList
  text? s := some s.text
  absent? := absent?
  isVoid s := s.style = .plain && s.text.isEmpty
  kind? := kind?
  positional := false
  variantName? := variantName?

end TrajectorySafety.Yaml
