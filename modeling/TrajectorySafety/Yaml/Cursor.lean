/-!
A place in a YAML text: what is left of it, how many octets lie behind it, and its line and column.
-/

namespace TrajectorySafety.Yaml

/-- A place in a text. -/
structure Cursor where
  rest : List Char
  index : Nat := 0
  line : Nat := 0
  column : Nat := 0
deriving Repr

/-- A character that ends a line. -/
def isBreak (c : Char) : Bool :=
  c == '\n' || c == '\r' || c == '\x85' || c == '\u2028' || c == '\u2029'

/-- A space or a tab. -/
def isBlank (c : Char) : Bool := c == ' ' || c == '\t'

/-- Whether nothing, a blank or a line break comes next. -/
def endsWord : List Char → Bool
  | [] => true
  | c :: _ => isBlank c || isBreak c

/-- Characters of anchors, tag handles and directive names. -/
def isWordChar (c : Char) : Bool := c.isAlphanum || c == '_' || c == '-'

/-- The characters that a text may hold. -/
def isAllowed (c : Char) : Bool :=
  let n := c.toNat
  n == 0x09 || n == 0x0A || n == 0x0D || (0x20 ≤ n && n ≤ 0x7E) || n == 0x85 ||
    (0xA0 ≤ n && n ≤ 0xD7FF) || (0xE000 ≤ n && n ≤ 0xFFFD) || 0x10000 ≤ n

namespace Cursor

/-- The number of octets that characters take. -/
def octets (cs : List Char) : Nat := cs.foldl (fun n c => n + c.utf8Size) 0

/-- Passes over `n` characters of a line. -/
def skip (c : Cursor) (n : Nat) : Cursor :=
  { c with
    rest := c.rest.drop n
    index := c.index + octets (c.rest.take n)
    column := c.column + n }

/-- Passes over the characters of a line that satisfy a test, and gives them back. -/
def takeWhile (c : Cursor) (p : Char → Bool) : List Char × Cursor :=
  let taken := c.rest.takeWhile p
  (taken, c.skip taken.length)

/-- Passes over the characters of a line that satisfy a test. -/
def skipWhile (c : Cursor) (p : Char → Bool) : Cursor := (c.takeWhile p).2

/-- Passes over a line break and gives it back as text: any of the usual ones is a newline. -/
def takeBreak (c : Cursor) : List Char × Cursor :=
  match c.rest with
  | '\r' :: '\n' :: rest => (['\n'], { rest, index := c.index + 2, line := c.line + 1 })
  | b :: rest =>
    let text := if b == '\u2028' || b == '\u2029' then [b] else ['\n']
    (text, { rest, index := c.index + b.utf8Size, line := c.line + 1 })
  | [] => ([], c)

/-- Passes over a line break. -/
def skipBreak (c : Cursor) : Cursor := c.takeBreak.2

/-- Whether a line break comes next. -/
def atBreak (c : Cursor) : Bool :=
  match c.rest with
  | b :: _ => isBreak b
  | [] => false

/-- Whether the text is at its end or at the end of a line. -/
def atLineEnd (c : Cursor) : Bool := c.rest.isEmpty || c.atBreak

/-- Whether a line starts here with three of the given character and nothing attached to them. -/
def atMarker (c : Cursor) (mark : Char) : Bool :=
  c.column == 0 &&
    match c.rest with
    | a :: b :: d :: rest => a == mark && b == mark && d == mark && endsWord rest
    | _ => false

/-- Whether a document ends here: a line starts with `---` or `...`. -/
def atDocumentMarker (c : Cursor) : Bool := c.atMarker '-' || c.atMarker '.'

end Cursor

end TrajectorySafety.Yaml
