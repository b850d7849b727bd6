import TrajectorySafety.Document.Datum
import TrajectorySafety.Number.Decimal

/-!
Plain data as JSON text, on one line or indented.
-/

namespace TrajectorySafety.Json

open Number

/-- Numbers are positional from `1e-5` up to below `1e16` and have an exponent with a sign
elsewhere. -/
def numberLayout : Layout where
  tie := .toEven
  positional := some (-5, 16)
  pointZero := true
  exponentPlus := true
  nan := "null"
  infinity := "null"
  negInfinity := "null"

/-- The lower-case hexadecimal digits of a number, padded to a width. -/
def hex (width n : Nat) : String :=
  let ds := Nat.toDigits 16 n
  String.ofList (List.replicate (width - ds.length) '0' ++ ds)

/-- A character inside a text. -/
def escape (c : Char) : String :=
  match c with
  | '"' => "\\\""
  | '\\' => "\\\\"
  | '\n' => "\\n"
  | '\r' => "\\r"
  | '\t' => "\\t"
  | '\x08' => "\\b"
  | '\x0c' => "\\f"
  | c => if c.toNat < 0x20 then "\\u" ++ hex 4 c.toNat else c.toString

/-- A text in quotes. -/
def quote (s : String) : String := "\"" ++ String.join (s.toList.map escape) ++ "\""

/-- The text of a datum that has no parts. -/
def leaf : Datum → String
  | .null => "null"
  | .flag b => if b then "true" else "false"
  | .count n => String.ofList (digitChars n)
  | .real x => numberLayout.render x
  | .text s => quote s
  | .list _ => "[]"
  | .record _ => "\x7b\x7d"

mutual

/-- A datum on one line. -/
def compact : Datum → String
  | .list items => "[" ++ ",".intercalate (compactItems items) ++ "]"
  | .record fields => "\x7b" ++ ",".intercalate (compactFields fields) ++ "\x7d"
  | d => leaf d

def compactItems : List Datum → List String
  | [] => []
  | d :: rest => compact d :: compactItems rest

def compactFields : List (String × Datum) → List String
  | [] => []
  | (name, d) :: rest => (quote name ++ ":" ++ compact d) :: compactFields rest

end

/-- Parts between brackets, one a line, at a depth. -/
def block (depth : Nat) (opening closing : String) (parts : List String) : String :=
  let indent := fun n => String.ofList (List.replicate (2 * n) ' ')
  if parts.isEmpty then opening ++ closing
  else
    opening ++ "\n" ++ indent (depth + 1) ++ (",\n" ++ indent (depth + 1)).intercalate parts ++
      "\n" ++ indent depth ++ closing

mutual

/-- A datum at a depth, one part a line, two spaces a level. -/
def prettyAt : (depth : Nat) → Datum → String
  | depth, .list items => block depth "[" "]" (prettyItems (depth + 1) items)
  | depth, .record fields => block depth "\x7b" "\x7d" (prettyFields (depth + 1) fields)
  | _, d => leaf d

def prettyItems : (depth : Nat) → List Datum → List String
  | _, [] => []
  | depth, d :: rest => prettyAt depth d :: prettyItems depth rest

def prettyFields : (depth : Nat) → List (String × Datum) → List String
  | _, [] => []
  | depth, (name, d) :: rest =>
    (quote name ++ ": " ++ prettyAt depth d) :: prettyFields depth rest

end

/-- A datum over several lines. -/
def pretty (d : Datum) : String := prettyAt 0 d

end TrajectorySafety.Json
