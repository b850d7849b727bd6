import TrajectorySafety.Document.Node
import TrajectorySafety.Number.Reading

/-!
JSON text as a document, and the rules by which its scalars are read.
-/

namespace TrajectorySafety.Json

open Number

/-- Drops white space in front. -/
def skip (cs : List Char) : List Char :=
  cs.dropWhile fun c => c == ' ' || c == '\n' || c == '\t' || c == '\r'

/-- Four hexadecimal digits, and what follows them. -/
def hex4 (cs : List Char) : Option (Nat × List Char) := do
  let digits := cs.take 4
  if digits.length = 4 then
    let n ← natural? 16 digits
    some (n, cs.drop 4)
  else none

/-- The second half of a pair of surrogates, and what follows it. -/
def lowSurrogate? : List Char → Option (Nat × List Char)
  | '\\' :: 'u' :: rest => do
    let (n, rest) ← hex4 rest
    if 0xDC00 ≤ n ∧ n ≤ 0xDFFF then some (n, rest) else none
  | _ => none

/-- The character of an escape that follows its backslash, and what follows it. A character outside
the first plane is a pair of surrogates; a lone surrogate stands for no character. -/
def escaped : List Char → Option (Option Char × List Char)
  | '"' :: rest => some ('"', rest)
  | '\\' :: rest => some ('\\', rest)
  | '/' :: rest => some ('/', rest)
  | 'b' :: rest => some ('\x08', rest)
  | 'f' :: rest => some ('\x0c', rest)
  | 'n' :: rest => some ('\n', rest)
  | 'r' :: rest => some ('\r', rest)
  | 't' :: rest => some ('\t', rest)
  | 'u' :: rest => do
    let (n, rest) ← hex4 rest
    if 0xDC00 ≤ n ∧ n ≤ 0xDFFF then some (none, rest)
    else if 0xD800 ≤ n ∧ n ≤ 0xDBFF then
      match lowSurrogate? rest with
      | some (m, rest) =>
        some (some (Char.ofNat (0x10000 + (n - 0xD800) * 0x400 + (m - 0xDC00))), rest)
      | none => some (none, rest)
    else some (some (Char.ofNat n), rest)
  | _ => none

/-- The characters of a text up to its closing quote, and what follows it. What stands for no
character is none. -/
def textBody : (fuel : Nat) → List Char → Option (List (Option Char) × List Char)
  | 0, _ => none
  | _, [] => none
  | fuel + 1, c :: rest =>
    if c = '"' then some ([], rest)
    else if c = '\\' then do
      let (e, rest) ← escaped rest
      let (body, rest) ← textBody fuel rest
      some (e :: body, rest)
    else if c.toNat < 0x20 then none
    else do
      let (body, rest) ← textBody fuel rest
      some (some c :: body, rest)

/-- The digits in front, at least one of them. -/
def someDigits (cs : List Char) : Option (List Char × List Char) :=
  let ds := cs.takeWhile isDigit
  if ds.isEmpty then none else some (ds, cs.dropWhile isDigit)

/-- The parts of a numeral: its sign, its whole digits, its digits after the point and its
exponent, of which the last two may be missing. -/
structure Numeral where
  negative : Bool
  whole : List Char
  fraction : Option (List Char)
  exponent : Option (Bool × List Char)
deriving Repr

/-- The parts of the numeral in front, and what follows it. A leading zero stands alone. -/
def numeral (cs : List Char) : Option (Numeral × List Char) := do
  let (negative, cs) := match cs with
    | '-' :: rest => (true, rest)
    | _ => (false, cs)
  let (whole, rest) ← match cs with
    | '0' :: rest => if (rest.takeWhile isDigit).isEmpty then some (['0'], rest) else none
    | _ => someDigits cs
  let (fraction, rest) ← match rest with
    | '.' :: rest => do
      let (ds, rest) ← someDigits rest
      some (some ds, rest)
    | _ => some (none, rest)
  let (exponent, rest) ← match rest with
    | c :: tail =>
      if c = 'e' ∨ c = 'E' then do
        let (down, tail) := splitSign tail
        let (ds, rest) ← someDigits tail
        some (some (down, ds), rest)
      else some (none, rest)
    | [] => some (none, rest)
  some (⟨negative, whole, fraction, exponent⟩, rest)

/-- Characters of numerals, none of which may follow a numeral. -/
def isNumeralChar (c : Char) : Bool :=
  isDigit c || c == '-' || c == '+' || c == '.' || c == 'e' || c == 'E'

/-- A bare scalar. -/
def bare (cs : List Char) : Node := .scalar ⟨.plain, none, String.ofList cs⟩

/-- A text scalar, if all of it stands for characters. -/
def quoted (cs : List (Option Char)) : Node :=
  match cs.mapM id with
  | some cs => .scalar ⟨.quoted, none, String.ofList cs⟩
  | none => .unreadable

/-- A literal word, and what follows it. -/
def word (w : String) (cs : List Char) : Option (Node × List Char) :=
  let ws := w.toList
  if cs.take ws.length = ws then some (bare ws, cs.drop ws.length) else none

mutual

/-- A value, and what follows it. -/
def value : (fuel : Nat) → List Char → Option (Node × List Char)
  | 0, _ => none
  | fuel + 1, cs =>
    match skip cs with
    | [] => none
    | c :: rest =>
      if c = '"' then do
        let (body, rest) ← textBody (fuel + 1) rest
        some (quoted body, rest)
      else if c = '[' then
        match skip rest with
        | ']' :: rest => some (.list none [], rest)
        | rest => do
          let (items, rest) ← values fuel rest
          some (.list none items, rest)
      else if c = '\x7b' then
        match skip rest with
        | '\x7d' :: rest => some (.record none [], rest)
        | rest => do
          let (fields, rest) ← members fuel rest
          some (.record none fields, rest)
      else if c = 't' then word "true" (c :: rest)
      else if c = 'f' then word "false" (c :: rest)
      else if c = 'n' then word "null" (c :: rest)
      else
        let (ds, rest) := (c :: rest).span isNumeralChar
        match numeral ds with
        | some (_, []) => some (bare ds, rest)
        | _ => none

/-- The values of a list up to its closing bracket, at least one of them. -/
def values : (fuel : Nat) → List Char → Option (List Node × List Char)
  | 0, _ => none
  | fuel + 1, cs => do
    let (item, rest) ← value fuel cs
    match skip rest with
    | ']' :: rest => some ([item], rest)
    | ',' :: rest => do
      let (items, rest) ← values fuel rest
      some (item :: items, rest)
    | _ => none

/-- The fields of a record up to its closing brace, at least one of them. -/
def members : (fuel : Nat) → List Char → Option (List (Node × Node) × List Char)
  | 0, _ => none
  | fuel + 1, cs =>
    match skip cs with
    | '"' :: rest => do
      let (name, rest) ← textBody (fuel + 1) rest
      match skip rest with
      | ':' :: rest => do
        let (item, rest) ← value fuel rest
        match skip rest with
        | '\x7d' :: rest => some ([(quoted name, item)], rest)
        | ',' :: rest => do
          let (fields, rest) ← members fuel rest
          some ((quoted name, item) :: fields, rest)
        | _ => none
      | _ => none
    | _ => none

end

/-- Reads one value with nothing but white space around it. -/
def parse (text : String) : Option Node := do
  let cs := text.toList
  let (node, rest) ← value (2 * cs.length + 2) cs
  if (skip rest).isEmpty then some node else none

/-- The double nearest to a numeral, unless that is an infinity. -/
def Numeral.real? (n : Numeral) : Option Float :=
  let fraction := n.fraction.getD []
  let e : Int := match n.exponent with
    | none => 0
    | some (down, ds) => if down then -(digitsNat ds : Int) else digitsNat ds
  let x := ofDecimal n.negative (digitsNat (n.whole ++ fraction)) (e - fraction.length)
  if x.isFinite then some x else none

/-- The numeral that a bare scalar is. -/
def numeral? (s : Scalar) : Option Numeral :=
  if s.style = .plain then (numeral s.text.toList).map Prod.fst else none

/-- Whether a scalar is the bare word. -/
def isWord (w : String) (s : Scalar) : Bool := s.style = .plain && s.text = w

/-- A truth value. -/
def flag? (s : Scalar) : Option Bool :=
  if isWord "true" s then some true else if isWord "false" s then some false else none

/-- A count is a whole number without sign, point and exponent. -/
def Numeral.count? (n : Numeral) : Option Nat :=
  if n.negative || n.fraction.isSome || n.exponent.isSome then none
  else
    let v := digitsNat n.whole
    if v ≤ wordLimit then some v else none

/-- The type of a scalar. -/
def kind? (s : Scalar) : Option Kind :=
  if s.style ≠ .plain then some (.text s.text)
  else if s.text = "null" then some .null
  else
    match flag? s, numeral? s with
    | some b, _ => some (.flag b)
    | none, some n =>
      match n.count? with
      | some v => some (.count v)
      | none => n.real?.map .real
    | none, none => none

/-- The rules of JSON. A record may be a list of its fields, and a variant without fields a record
of its name and nothing. -/
def dialect : Dialect where
  flag? := flag?
  count? s := (numeral? s).bind Numeral.count?
  real? s := (numeral? s).bind Numeral.real?
  text? s := if s.style = .plain then none else some s.text
  absent? s := some (isWord "null" s)
  isVoid _ := false
  kind? := kind?
  positional := true
  variantName?
    | .scalar s => if s.style = .plain then none else some s.text
    | .record _ [(.scalar name, .scalar nothing)] =>
      if isWord "null" nothing then some name.text else none
    | _ => none

end TrajectorySafety.Json
