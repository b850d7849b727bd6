/-!
White space, trimming and lines, on lists of characters.
-/

namespace TrajectorySafety.Text

/-- Unicode white space: the 25 characters of the property. -/
def isBlank (c : Char) : Bool :=
  let n := c.toNat
  (0x09 ≤ n && n ≤ 0x0D) || n == 0x20 || n == 0x85 || n == 0xA0 || n == 0x1680 ||
    (0x2000 ≤ n && n ≤ 0x200A) || n == 0x2028 || n == 0x2029 || n == 0x202F || n == 0x205F ||
    n == 0x3000

/-- Drops white space in front. -/
def trimStart (cs : List Char) : List Char := cs.dropWhile isBlank

/-- Drops white space at the end. -/
def trimEnd (cs : List Char) : List Char := (cs.reverse.dropWhile isBlank).reverse

/-- Drops white space on both sides. -/
def trim (cs : List Char) : List Char := trimEnd (trimStart cs)

/-- Drops one carriage return at the end. -/
def dropReturn (cs : List Char) : List Char :=
  match cs.reverse with
  | '\r' :: rest => rest.reverse
  | _ => cs

/-- The lines of a text, with `current` (reversed) as what is already read of the first one. A
newline ends a line and takes one carriage return before it along; text after the last newline is a
line of its own, which keeps its carriage return. -/
def linesFrom : (current : List Char) → List Char → List (List Char)
  | [], [] => []
  | current, [] => [current.reverse]
  | current, '\n' :: rest => dropReturn current.reverse :: linesFrom [] rest
  | current, c :: rest => linesFrom (c :: current) rest

/-- The lines of a text. -/
def lines (cs : List Char) : List (List Char) := linesFrom [] cs

/-- The part before and the part after the first occurrence of a character. -/
def splitOnce (sep : Char) : List Char → Option (List Char × List Char)
  | [] => none
  | c :: rest =>
    if c = sep then some ([], rest)
    else (splitOnce sep rest).map fun (before, after) => (c :: before, after)

/-- What follows a given beginning. -/
def dropLeading? : (lead : List Char) → List Char → Option (List Char)
  | [], cs => some cs
  | _ :: _, [] => none
  | l :: lead, c :: cs => if l = c then dropLeading? lead cs else none

end TrajectorySafety.Text
