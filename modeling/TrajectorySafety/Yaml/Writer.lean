import TrajectorySafety.Document.Datum
import TrajectorySafety.Number.Decimal
import TrajectorySafety.Yaml.Dialect

/-!
Plain data as YAML text in block style.

A text is written plain where that is possible and it does not read as anything else, between single
quotes otherwise, and between double quotes if it has characters that need an escape. A text with
line breaks is written as a block if a block can hold it.
-/

namespace TrajectorySafety.Yaml

open Number

/-- Numbers are positional from `1e-5` up to below `1e16` and have an exponent elsewhere. -/
def numberLayout : Layout where
  tie := .toEven
  positional := some (-5, 16)
  pointZero := true
  exponentPlus := false
  nan := ".nan"
  infinity := ".inf"
  negInfinity := "-.inf"

/-- Characters that stand for themselves in any style. -/
def isPrintable (c : Char) : Bool :=
  let n := c.toNat
  n == 0x0A || (0x20 ≤ n && n ≤ 0x7E) || (0xA0 ≤ n && n ≤ 0xD7FF) ||
    (0xE000 ≤ n && n ≤ 0xFFFD && n != 0xFEFF) || 0x10000 ≤ n

/-- Whether a text reads as something else when it is written plain. -/
def readsOtherwise (t : String) : Bool :=
  hasLeadingZero t.toList ||
    match plainKind? t with
    | some (.text _) => false
    | _ => true

/-- Whether a first character, with others after it, makes a text no plain one. -/
def startsMarked (x : Char) (rest : List Char) : Bool :=
  "#,[]\x7b\x7d&*!|>'\"%@\x60".toList.contains x ||
    ((x == '?' || x == ':' || x == '-') && endsWord rest)

/-- Whether a later character makes a text no plain one: a colon at the end of a word, or a comment
sign after a blank. -/
def hasMarks : List Char → Bool
  | x :: y :: rest =>
    (y == ':' && endsWord rest) || ((isBlank x || isBreak x) && y == '#') || hasMarks (y :: rest)
  | _ => false

/-- Whether a text can be written plain. -/
def isPlain (cs : List Char) : Bool :=
  match cs with
  | [] => true
  | x :: rest =>
    cs.all (fun c => isPrintable c && !isBreak c) &&
      x != ' ' && cs.getLast? != some ' ' &&
      !("---".toList.isPrefixOf cs || "...".toList.isPrefixOf cs) &&
      !startsMarked x rest && !hasMarks cs

/-- Whether two neighbours satisfy a test. -/
def hasNeighbours (p : Char → Char → Bool) : List Char → Bool
  | x :: y :: rest => p x y || hasNeighbours p (y :: rest)
  | _ => false

/-- Whether a text can be written between single quotes or as a block: nothing to escape, and no
space in front of a line break. -/
def isUnescaped (cs : List Char) : Bool :=
  cs.all isPrintable && !hasNeighbours (fun x y => x == ' ' && isBreak y) cs

/-- Whether a text can be written between single quotes. -/
def isQuotable (cs : List Char) : Bool :=
  isUnescaped cs && !hasNeighbours (fun x y => isBreak x && y == ' ') cs

/-- Whether a text can be written as a block. -/
def isBlock (cs : List Char) : Bool :=
  isUnescaped cs && !cs.isEmpty && cs.getLast? != some ' '

/-- A number of spaces. -/
def spaces (n : Nat) : String := String.ofList (List.replicate n ' ')

/-- Hexadecimal digits of a number, in upper case and of a width. -/
def hex (width n : Nat) : String :=
  let ds := (Nat.toDigits 16 n).map Char.toUpper
  String.ofList (List.replicate (width - ds.length) '0' ++ ds)

/-- A character between double quotes. -/
def escaped (c : Char) : String :=
  match c with
  | '\x00' => "\\0"
  | '\x07' => "\\a"
  | '\x08' => "\\b"
  | '\t' => "\\t"
  | '\n' => "\\n"
  | '\x0b' => "\\v"
  | '\x0c' => "\\f"
  | '\r' => "\\r"
  | '\x1b' => "\\e"
  | '"' => "\\\""
  | '\\' => "\\\\"
  | '\x85' => "\\N"
  | '\u2028' => "\\L"
  | '\u2029' => "\\P"
  | c =>
    let n := c.toNat
    if isPrintable c then c.toString
    else if n ≤ 0xFF then "\\x" ++ hex 2 n
    else if n ≤ 0xFFFF then "\\u" ++ hex 4 n
    else "\\U" ++ hex 8 n

/-- A text between double quotes. -/
def doubleQuoted (cs : List Char) : String := "\"" ++ String.join (cs.map escaped) ++ "\""

/-- The characters of a text between single quotes. A line break is written twice, and what follows
it is indented; `broken` says whether the character before was one. -/
def singleChars (indent : Nat) : (broken : Bool) → List Char → String
  | broken, [] => if broken then spaces indent else ""
  | broken, c :: rest =>
    if isBreak c then
      (if !broken && c == '\n' then "\n" else "") ++ c.toString ++ singleChars indent true rest
    else
      (if broken then spaces indent else "") ++ (if c == '\'' then "''" else c.toString) ++
        singleChars indent false rest

/-- A text between single quotes. -/
def singleQuoted (indent : Nat) (cs : List Char) : String :=
  "'" ++ singleChars indent false cs ++ "'"

/-- The lines of a block, each that is not empty indented. -/
def blockChars (indent : Nat) : (start : Bool) → List Char → String
  | _, [] => ""
  | start, c :: rest =>
    if isBreak c then c.toString ++ blockChars indent true rest
    else (if start then spaces indent else "") ++ c.toString ++ blockChars indent false rest

/-- The header of a block: its indentation where the text starts with a blank, and what happens to
the line breaks at its end. -/
def header (cs : List Char) : String :=
  let hint := match cs with
    | x :: _ => if x == ' ' || isBreak x then "2" else ""
    | [] => ""
  let chomping := match cs.reverse with
    | [] => "-"
    | [x] => if isBreak x then "+" else "-"
    | x :: y :: _ => if !isBreak x then "-" else if isBreak y then "+" else ""
  "|" ++ hint ++ chomping

/-- A text as a block. -/
def blockText (indent : Nat) (cs : List Char) : String :=
  header cs ++ "\n" ++ blockChars indent true cs

/-- Ends a line, unless what stands on it already did: a block may end with a line break. -/
def line (text : String) : String :=
  if text.toList.getLast?.any isBreak then text else text ++ "\n"

/-- A text in the plainest style that can hold it. -/
def scalarText (indent : Nat) (t : String) : String :=
  let cs := t.toList
  if cs.contains '\n' then
    if isBlock cs then blockText indent cs else doubleQuoted cs
  else if isPlain cs && !readsOtherwise t then t
  else if isQuotable cs then singleQuoted indent cs
  else doubleQuoted cs

/-- The text of a datum that stands on a line; `indent` is that of the lines of a block. -/
def leaf (indent : Nat) : Datum → String
  | .null => "null"
  | .flag b => if b then "true" else "false"
  | .count n => String.ofList (digitChars n)
  | .real x => numberLayout.render x
  | .text t => scalarText indent t
  | .list _ => "[]"
  | .record _ => "\x7b\x7d"

mutual

/-- The text of a datum in pieces. Its first line starts at the place where it stands, with an
indentation for the others. -/
def blockAt : (indent : Nat) → Datum → List String
  | indent, .list (d :: rest) => itemsAt indent (d :: rest)
  | indent, .record (f :: rest) => fieldsAt indent (f :: rest)
  | indent, d => [line (leaf indent d)]

/-- The items of a list, each after a dash. -/
def itemsAt : (indent : Nat) → List Datum → List String
  | _, [] => []
  | indent, [d] => "- " :: blockAt (indent + 2) d
  | indent, d :: rest => "- " :: blockAt (indent + 2) d ++ spaces indent :: itemsAt indent rest

/-- The fields of a record. A list below a field is not indented. -/
def fieldsAt : (indent : Nat) → List (String × Datum) → List String
  | _, [] => []
  | indent, [(name, d)] => name :: ":" :: fieldAt indent d
  | indent, (name, d) :: rest =>
    name :: ":" :: fieldAt indent d ++ spaces indent :: fieldsAt indent rest

/-- What follows the name of a field. -/
def fieldAt : (indent : Nat) → Datum → List String
  | indent, .list (d :: rest) => "\n" :: spaces indent :: itemsAt indent (d :: rest)
  | indent, .record (f :: rest) =>
    "\n" :: spaces (indent + 2) :: fieldsAt (indent + 2) (f :: rest)
  | indent, d => [" ", line (leaf (indent + 2) d)]

end

/-- A datum as a document. -/
def render (d : Datum) : String := String.join (blockAt 0 d)

end TrajectorySafety.Yaml
