import TrajectorySafety.Yaml.Cursor
import TrajectorySafety.Number.Reading

/-!
Scalars of a YAML text: plain, quoted and block.

Inside a plain or quoted scalar a line break counts as one space, and each further one as a newline
(`Gap`).
-/

namespace TrajectorySafety.Yaml

open Number (natural?)

/-- Blanks and line breaks between two words of a scalar. -/
structure Gap where
  /-- Blanks before the first line break, backwards. -/
  blanks : List Char := []
  /-- The first line break. -/
  first : Option (List Char) := none
  /-- The line breaks after the first, backwards. -/
  further : List Char := []

/-- What a gap stands for, backwards. -/
def Gap.text (g : Gap) : List Char :=
  match g.first with
  | none => g.blanks
  | some ['\n'] => if g.further.isEmpty then [' '] else g.further
  | some b => g.further ++ b

/-- Reads a gap. In a plain scalar a tab must not stand where indentation is expected. -/
def gap (indent : Option Int) : (fuel : Nat) → Cursor → Gap → Option (Gap × Cursor)
  | 0, c, g => some (g, c)
  | fuel + 1, c, g =>
    match c.rest with
    | [] => some (g, c)
    | x :: _ =>
      if isBlank x then
        let misplaced := g.first.isSome && x == '\t' &&
          (match indent with
            | some n => (c.column : Int) < n
            | none => false)
        if misplaced then none
        else
          gap indent fuel (c.skip 1)
            (if g.first.isNone then { g with blanks := x :: g.blanks } else g)
      else if isBreak x then
        let (b, c) := c.takeBreak
        gap indent fuel c
          (match g.first with
            | none => { g with blanks := [], first := some b }
            | some _ => { g with further := b ++ g.further })
      else some (g, c)

/-- Characters that end a plain scalar inside brackets. -/
def isFlowEnd (c : Char) : Bool := c == ',' || c == '[' || c == ']' || c == '\x7b' || c == '\x7d'

/-- One word of a plain scalar: characters up to a blank, a line end, a colon before one of them,
or, inside brackets, a character that ends the scalar there. -/
def plainWord (flow : Bool) : List Char → Option (List Char)
  | [] => some []
  | x :: rest =>
    if isBlank x || isBreak x then some []
    else if flow && x == ':' &&
        (match rest with
          | y :: _ => isFlowEnd y || y == '?'
          | [] => false) then none
    else if (x == ':' && endsWord rest) || (flow && isFlowEnd x) then some []
    else (plainWord flow rest).map (x :: ·)

/-- A plain scalar, backwards, after what is already read of it. Says whether it ended after a line
break. -/
def plainRest (flow : Bool) (indent : Int) : (fuel : Nat) → Cursor → (sofar : List Char) → Gap →
    Option (List Char × Cursor × Bool)
  | 0, _, _, _ => none
  | fuel + 1, c, sofar, g =>
    if c.atDocumentMarker || c.rest.head? == some '#' then some (sofar, c, g.first.isSome)
    else do
      let w ← plainWord flow c.rest
      let sofar := if w.isEmpty then sofar else w.reverse ++ (g.text ++ sofar)
      let g := if w.isEmpty then g else {}
      let c := c.skip w.length
      match c.rest with
      | [] => some (sofar, c, g.first.isSome)
      | x :: _ =>
        if !(isBlank x || isBreak x) then some (sofar, c, g.first.isSome)
        else
          let (g, c) ← gap (some indent) fuel c g
          if !flow && (c.column : Int) < indent then some (sofar, c, g.first.isSome)
          else plainRest flow indent fuel c sofar g

/-- The number of hexadecimal digits of an escape. -/
def escapeWidth : Char → Option Nat
  | 'x' => some 2
  | 'u' => some 4
  | 'U' => some 8
  | _ => none

/-- The character of a one-letter escape. -/
def simpleEscape : Char → Option Char
  | '0' => some '\x00'
  | 'a' => some '\x07'
  | 'b' => some '\x08'
  | 't' => some '\t'
  | '\t' => some '\t'
  | 'n' => some '\n'
  | 'v' => some '\x0b'
  | 'f' => some '\x0c'
  | 'r' => some '\r'
  | 'e' => some '\x1b'
  | ' ' => some ' '
  | '"' => some '"'
  | '/' => some '/'
  | '\\' => some '\\'
  | 'N' => some '\x85'
  | '_' => some '\xa0'
  | 'L' => some '\u2028'
  | 'P' => some '\u2029'
  | _ => none

/-- The character of an escape after its backslash, and the number of characters that it takes. -/
def escape? : List Char → Option (Char × Nat)
  | [] => none
  | x :: rest =>
    match escapeWidth x with
    | none => (simpleEscape x).map (·, 1)
    | some width => do
      let ds := rest.take width
      let n ← natural? 16 ds
      if ds.length ≠ width || (0xD800 ≤ n && n ≤ 0xDFFF) || 0x10FFFF < n then none
      else some (Char.ofNat n, width + 1)

/-- A quoted scalar, backwards, after its opening quote and what is already read of it. In double
quotes a backslash escapes, and one at the end of a line joins it to the next. -/
def quotedRest (single : Bool) : (fuel : Nat) → Cursor → (sofar : List Char) →
    Option (List Char × Cursor)
  | 0, _, _ => none
  | fuel + 1, c, sofar =>
    match c.rest with
    | [] => none
    | x :: rest =>
      if c.atDocumentMarker then none
      else if isBlank x || isBreak x then do
        let (g, c) ← gap none (fuel + 1) c {}
        quotedRest single fuel c (g.text ++ sofar)
      else if single then
        if x == '\'' then
          if rest.head? == some '\'' then quotedRest single fuel (c.skip 2) ('\'' :: sofar)
          else some (sofar, c.skip 1)
        else quotedRest single fuel (c.skip 1) (x :: sofar)
      else if x == '"' then some (sofar, c.skip 1)
      else if x == '\\' then
        let next := c.skip 1
        if next.atBreak then do
          -- an escaped line break leaves no trace, and neither do the blanks after it
          let (g, c) ← gap none (fuel + 1) next.skipBreak { first := some [] }
          quotedRest single fuel c (g.text ++ sofar)
        else do
          let (e, width) ← escape? next.rest
          quotedRest single fuel (next.skip width) (e :: sofar)
      else quotedRest single fuel (c.skip 1) (x :: sofar)

/-- What happens to the line breaks at the end of a block scalar. -/
inductive Chomping where
  | strip
  | clip
  | keep
deriving DecidableEq

/-- The indentation and the line breaks, backwards, in front of a line of a block scalar. An
indentation of zero is still to be found: `widest` is the widest so far. -/
def blockBreaks (indent : Nat) : (fuel : Nat) → Cursor → (widest : Nat) → (breaks : List Char) →
    Option (Nat × List Char × Cursor)
  | 0, _, _, _ => none
  | fuel + 1, c, widest, breaks =>
    let spaces := (c.rest.takeWhile (· == ' ')).length
    let c := c.skip (if indent = 0 then spaces else min spaces (indent - c.column))
    let widest := max widest c.column
    let short := indent = 0 || c.column < indent
    if short && c.rest.head? == some '\t' then none
    else if c.atBreak then
      let (b, c) := c.takeBreak
      blockBreaks indent fuel c widest (b ++ breaks)
    else some (widest, breaks, c)

/-- The lines of a block scalar, backwards. `pending` is the line break that ended the line before,
`breaks` the empty lines after it, `blank` whether the line before started with a blank. -/
def blockLines (literal : Bool) (indent : Nat) : (fuel : Nat) → Cursor → (sofar : List Char) →
    (pending breaks : List Char) → (blank : Bool) →
    Option (List Char × List Char × List Char × Cursor)
  | 0, _, _, _, _, _ => none
  | fuel + 1, c, sofar, pending, breaks, blank =>
    match c.rest with
    | [] => some (sofar, pending, breaks, c)
    | x :: _ =>
      if c.column ≠ indent then some (sofar, pending, breaks, c)
      else do
        let startsBlank := isBlank x
        let folds := !literal && pending.head? == some '\n' && !blank && !startsBlank
        let joint :=
          if folds then if breaks.isEmpty then [' '] else breaks
          else breaks ++ pending
        let (line, c) := c.takeWhile fun y => !isBreak y
        let (pending, c) := c.takeBreak
        let (_, breaks, c) ← blockBreaks indent (fuel + 1) c 0 []
        let sofar := line.reverse ++ (joint ++ sofar)
        blockLines literal indent fuel c sofar pending breaks startsBlank

/-- The header of a block scalar: chomping and indentation in either order. -/
def blockHeader (c : Cursor) : Option (Chomping × Nat × Cursor) :=
  let chomping := fun (c : Cursor) =>
    match c.rest.head? with
    | some '+' => (Chomping.keep, c.skip 1)
    | some '-' => (Chomping.strip, c.skip 1)
    | _ => (Chomping.clip, c)
  let digit := fun (c : Cursor) =>
    match c.rest.head? with
    | some d =>
      if d == '0' then none
      else if d.isDigit then some (d.toNat - '0'.toNat, c.skip 1)
      else some (0, c)
    | none => some (0, c)
  match c.rest.head? with
  | some d =>
    if d == '+' || d == '-' then do
      let (ch, c) := chomping c
      let (n, c) ← digit c
      some (ch, n, c)
    else do
      let (n, c) ← digit c
      if n = 0 then some (.clip, 0, c)
      else
        let (ch, c) := chomping c
        some (ch, n, c)
  | none => some (.clip, 0, c)

/-- A block scalar, backwards, after its indicator, at an indentation of the surrounding block. -/
def blockScalar (literal : Bool) (outer : Int) (fuel : Nat) (c : Cursor) :
    Option (List Char × Cursor) := do
  let (chomping, increment, c) ← blockHeader c
  let c := c.skipWhile isBlank
  let c := if c.rest.head? == some '#' then c.skipWhile (fun x => !isBreak x) else c
  if !c.atLineEnd then none
  else
    let c := c.skipBreak
    let fixed := if increment = 0 then 0 else (max outer 0).toNat + increment
    let (widest, breaks, c) ← blockBreaks fixed (fuel + 1) c 0 []
    let indent := if fixed = 0 then max widest (max (outer + 1).toNat 1) else fixed
    let (text, pending, breaks, c) ← blockLines literal indent (fuel + 1) c [] [] breaks false
    some (match chomping with
      | .strip => (text, c)
      | .clip => (pending ++ text, c)
      | .keep => (breaks ++ (pending ++ text), c))

end TrajectorySafety.Yaml
