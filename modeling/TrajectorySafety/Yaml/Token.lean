import TrajectorySafety.Document.Node
import TrajectorySafety.Yaml.Scalar

/-!
The tokens of a YAML text.

Indentation opens and closes block collections. A value indicator after a node makes that node a
key, so the start of a node that may turn out to be one is remembered (`PendingKey`), and the key
indicator is put in front of it afterwards.
-/

namespace TrajectorySafety.Yaml

open Number (natural? digitValue?)

/-- The text of a tag; a character whose escape cannot be read is none. -/
abbrev TagText := List (Option Char)

/-- A piece of a YAML text. -/
inductive Token where
  | version (major minor : Nat)
  | tagDirective (handle : String) (head : TagText)
  | documentStart
  | documentEnd
  | blockSequence
  | blockMapping
  | blockEnd
  | flowSequence
  | flowSequenceEnd
  | flowMapping
  | flowMappingEnd
  | blockEntry
  | flowEntry
  | key
  | value
  | alias (name : String)
  | anchor (name : String)
  | tag (handle : String) (suffix : TagText)
  | scalar (style : Style) (text : String)
deriving Repr, DecidableEq

/-- The start of a node that may turn out to be a key. It must become one if it stands where the
block requires a key. -/
structure PendingKey where
  required : Bool
  /-- The number of tokens in front of it. -/
  position : Nat
  index : Nat
  line : Nat
  column : Nat
deriving Repr

/-- A text that is read up to a place. -/
structure Lexer where
  cursor : Cursor
  /-- The tokens so far, backwards. -/
  tokens : List Token := []
  /-- How many tokens there are so far. -/
  count : Nat := 0
  /-- The indentation of the block at hand; `-1` outside of all. -/
  indent : Int := -1
  /-- The indentations of the blocks around it. -/
  outer : List Int := []
  /-- The possible key of the block at hand. -/
  pending : Option PendingKey := none
  /-- The possible keys around the brackets that are open. They are looked at again when their
  bracket closes. -/
  flow : List (Option PendingKey) := []
  /-- Whether a key may start here. -/
  keyAllowed : Bool := true

namespace Lexer

/-- Whether a bracket is open. -/
def inFlow (s : Lexer) : Bool := !s.flow.isEmpty

/-- Adds a token. -/
def emit (s : Lexer) (t : Token) : Lexer :=
  { s with tokens := t :: s.tokens, count := s.count + 1 }

/-- Puts a token in front of those after the first `position`. -/
def insertAt (s : Lexer) (position : Nat) (t : Token) : Lexer :=
  let later := s.count - position
  { s with tokens := s.tokens.take later ++ t :: s.tokens.drop later, count := s.count + 1 }

/-- Passes over blanks, comments, line breaks and a byte order mark that starts a line, which takes
up a column. A tab counts as a blank only where no key may start. -/
def skipBlanks : (fuel : Nat) → Lexer → Lexer
  | 0, s => s
  | fuel + 1, s =>
    let c := s.cursor
    let c := if c.column == 0 && c.rest.head? == some '\ufeff' then c.skip 1 else c
    let tabs := s.inFlow || !s.keyAllowed
    let c := c.skipWhile fun x => x == ' ' || (tabs && x == '\t')
    let c := if c.rest.head? == some '#' then c.skipWhile (fun x => !isBreak x) else c
    if c.atBreak then
      skipBlanks fuel { s with cursor := c.skipBreak, keyAllowed := s.keyAllowed || !s.inFlow }
    else { s with cursor := c }

/-- Gives up a possible key; it must not be required. -/
def dropKey (k : Option PendingKey) : Option (Option PendingKey) :=
  match k with
  | some p => if p.required then none else some none
  | none => some none

/-- Gives up a possible key that is too far away: on another line or over 1024 octets ago. -/
def expireKey (c : Cursor) (k : Option PendingKey) : Option (Option PendingKey) :=
  match k with
  | some p => if p.line < c.line || p.index + 1024 < c.index then dropKey k else some k
  | none => some none

/-- Gives up the possible key at hand if it is too far away. -/
def expireKeys (s : Lexer) : Option Lexer := do
  let pending ← expireKey s.cursor s.pending
  return { s with pending }

/-- Gives up the possible key at hand. -/
def removeKey (s : Lexer) : Option Lexer := do
  let pending ← dropKey s.pending
  return { s with pending }

/-- Remembers a node that starts here as a possible key. -/
def saveKey (s : Lexer) : Option Lexer :=
  if s.keyAllowed then do
    let s ← s.removeKey
    let c := s.cursor
    return { s with pending := some {
      required := !s.inFlow && s.indent == c.column
      position := s.count
      index := c.index
      line := c.line
      column := c.column } }
  else some s

/-- Opens a block at a column that is further in, with its token at a position. -/
def openBlock (s : Lexer) (column : Nat) (position : Nat) (t : Token) : Lexer :=
  if !s.inFlow && s.indent < column then
    { s.insertAt position t with outer := s.indent :: s.outer, indent := column }
  else s

/-- Closes the blocks that are further in than a column; `outer` are the indentations around the
block at hand. -/
def closeBlocksFrom (column : Int) : (outer : List Int) → Lexer → Lexer
  | [], s => s
  | o :: outer, s =>
    if column < s.indent then
      closeBlocksFrom column outer ({ s with indent := o, outer }.emit .blockEnd)
    else s

/-- Closes the blocks that are further in than a column, unless a bracket is open. -/
def closeBlocks (s : Lexer) (column : Int) : Lexer :=
  if s.inFlow then s else closeBlocksFrom column s.outer s

/-- Ends whatever block is open, at a line that belongs to no block. -/
def leaveBlocks (s : Lexer) : Option Lexer := do
  let s ← (s.closeBlocks (-1)).removeKey
  return { s with keyAllowed := false }

/-- Passes over an indicator and adds its token. -/
def indicator (s : Lexer) (width : Nat) (t : Token) : Lexer :=
  { s with cursor := s.cursor.skip width }.emit t

/-- An opening bracket. -/
def openFlow (s : Lexer) (t : Token) : Option Lexer := do
  let s ← s.saveKey
  return { s with flow := s.pending :: s.flow, pending := none, keyAllowed := true }.indicator 1 t

/-- A closing bracket. -/
def closeFlow (s : Lexer) (t : Token) : Option Lexer := do
  let s ← s.removeKey
  let s := match s.flow with
    | k :: flow => { s with flow, pending := k }
    | [] => s
  return { s with keyAllowed := false }.indicator 1 t

/-- A comma between brackets. -/
def flowComma (s : Lexer) : Option Lexer := do
  let s ← s.removeKey
  return { s with keyAllowed := true }.indicator 1 .flowEntry

/-- Opens a block where an indicator of it may stand. -/
def openBlockHere (s : Lexer) (t : Token) : Option Lexer :=
  if s.inFlow then some s
  else if s.keyAllowed then some (s.openBlock s.cursor.column s.count t)
  else none

/-- A dash in front of an item. -/
def dash (s : Lexer) : Option Lexer := do
  let s ← s.openBlockHere .blockSequence
  let s ← s.removeKey
  return { s with keyAllowed := true }.indicator 1 .blockEntry

/-- A question mark in front of a key. -/
def keyMark (s : Lexer) : Option Lexer := do
  let s ← s.openBlockHere .blockMapping
  let s ← s.removeKey
  return { s with keyAllowed := !s.inFlow }.indicator 1 .key

/-- A colon in front of a value. The possible key at hand becomes one. -/
def valueMark (s : Lexer) : Option Lexer :=
  match s.pending with
  | some p =>
    let s := (s.insertAt p.position .key).openBlock p.column p.position .blockMapping
    some ({ s with pending := none, keyAllowed := false }.indicator 1 .value)
  | none => do
    let s ← s.openBlockHere .blockMapping
    return { s with keyAllowed := !s.inFlow }.indicator 1 .value

/-- Adds a token that ends at a place and may start a key. -/
def node (s : Lexer) (read : Cursor → Option (Token × Cursor)) : Option Lexer := do
  let s ← s.saveKey
  let (t, c) ← read s.cursor
  return { s with cursor := c, keyAllowed := false }.emit t

/-- The name of an alias or an anchor after its indicator. -/
def nodeName (make : String → Token) (c : Cursor) : Option (Token × Cursor) :=
  let (name, c) := (c.skip 1).takeWhile isWordChar
  let ends := endsWord c.rest ||
    match c.rest with
    | x :: _ => "?:,]\x7d%@\x60".toList.contains x
    | [] => true
  if name.isEmpty || !ends then none else some (make (String.ofList name), c)

/-- One escaped octet. -/
def octet : List Char → Option Nat
  | '%' :: a :: b :: _ => natural? 16 [a, b]
  | _ => none

/-- The number of octets of a character, and the bits that the first of them has. -/
def octetCount (first : Nat) : Option (Nat × Nat) :=
  if first < 0x80 then some (1, first)
  else if 0xC0 ≤ first && first < 0xE0 then some (2, first - 0xC0)
  else if 0xE0 ≤ first && first < 0xF0 then some (3, first - 0xE0)
  else if 0xF0 ≤ first && first < 0xF8 then some (4, first - 0xF0)
  else none

/-- The octets that continue a character. -/
def furtherOctets : (n : Nat) → (value : Nat) → List Char → Option Nat
  | 0, value, _ => some value
  | n + 1, value, cs => do
    let o ← octet cs
    if 0x80 ≤ o && o < 0xC0 then furtherOctets n (value * 64 + (o - 0x80)) (cs.drop 3) else none

/-- The smallest value that needs a number of octets. -/
def leastOf : (octets : Nat) → Nat
  | 2 => 0x80
  | 3 => 0x800
  | 4 => 0x10000
  | _ => 0

/-- A character that is written as escaped octets, and the length of its escape. More octets than
the value needs, and values that no character has, cannot be read. -/
def escapedOctets (cs : List Char) : Option (Option Char × Nat) := do
  let first ← octet cs
  let (n, value) ← octetCount first
  let value ← furtherOctets (n - 1) value (cs.drop 3)
  let readable := leastOf n ≤ value && value.isValidChar
  return (if readable then some (Char.ofNat value) else none, 3 * n)

/-- Characters of a tag; commas and brackets only where no bracket can be meant. -/
def isTagChar (wide : Bool) (c : Char) : Bool :=
  isWordChar c || ";/?:@&=+$.%!~*'()".toList.contains c ||
    (wide && (c == ',' || c == '[' || c == ']'))

/-- The characters of a tag. -/
def tagText (wide : Bool) : (fuel : Nat) → Cursor → Option (TagText × Cursor)
  | 0, c => some ([], c)
  | fuel + 1, c =>
    match c.rest with
    | '%' :: _ => do
      let (x, width) ← escapedOctets c.rest
      let (rest, c) ← tagText wide fuel (c.skip width)
      return (x :: rest, c)
    | x :: _ =>
      if isTagChar wide x then do
        let (rest, c) ← tagText wide fuel (c.skip 1)
        return (some x :: rest, c)
      else some ([], c)
    | [] => some ([], c)

/-- A tag handle: an exclamation mark, and a word with another one after it if there is one. -/
def tagHandle (c : Cursor) : Option (List Char × Cursor) :=
  if c.rest.head? == some '!' then
    let (name, c) := (c.skip 1).takeWhile isWordChar
    if c.rest.head? == some '!' then some ('!' :: name ++ ['!'], c.skip 1)
    else some ('!' :: name, c)
  else none

/-- A tag up to its first null character. -/
def cutTag (text : TagText) : TagText := text.takeWhile (· != some '\x00')

/-- A tag without a handle, between angle brackets. -/
def verbatimTag (fuel : Nat) (c : Cursor) : Option (Token × Cursor) := do
  let (text, c) ← tagText true fuel (c.skip 2)
  if text.isEmpty || c.rest.head? != some '>' then none
  else some (.tag "" (cutTag text), c.skip 1)

/-- A tag with a handle. What follows a single exclamation mark is the suffix; if nothing does, the
mark itself is. -/
def handledTag (fuel : Nat) (c : Cursor) : Option (Token × Cursor) := do
  let (handle, c) ← tagHandle c
  let (text, c) ← tagText false fuel c
  if handle.length > 1 && handle.getLast? == some '!' then
    if text.isEmpty then none else some (.tag (String.ofList handle) (cutTag text), c)
  else
    let suffix := (handle.drop 1).map some ++ cutTag text
    if suffix.isEmpty then some (.tag "" [some '!'], c) else some (.tag "!" suffix, c)

/-- A tag, which ends with its word, or at a comma between brackets. -/
def nodeTag (inFlow : Bool) (fuel : Nat) (c : Cursor) : Option (Token × Cursor) := do
  let (t, c) ← if (c.rest.drop 1).head? == some '<' then verbatimTag fuel c else handledTag fuel c
  if endsWord c.rest || (inFlow && c.rest.head? == some ',') then some (t, c) else none

/-- A number of a version. -/
def versionPart (c : Cursor) : Option (Nat × Cursor) := do
  let (ds, c) := c.takeWhile Number.isDigit
  let n ← natural? 10 ds
  if 9 < ds.length then none else some (n, c)

/-- The parameters of a directive, by its name. -/
def directiveBody (name : String) (fuel : Nat) (c : Cursor) : Option (Token × Cursor) :=
  let c := c.skipWhile isBlank
  match name with
  | "YAML" => do
    let (major, c) ← versionPart c
    if c.rest.head? != some '.' then none
    else
      let (minor, c) ← versionPart (c.skip 1)
      return (.version major minor, c)
  | "TAG" => do
    let (handle, c) ← tagHandle c
    if handle.length > 1 && handle.getLast? != some '!' then none
    else if !(c.rest.head?.any isBlank) then none
    else
      let c := c.skipWhile isBlank
      let (text, c) ← tagText true fuel c
      if text.isEmpty || !endsWord c.rest then none
      else return (.tagDirective (String.ofList handle) (cutTag text), c)
  | _ => none

/-- A directive, alone on its line but for a comment. -/
def directive (s : Lexer) (fuel : Nat) : Option Lexer := do
  let s ← s.leaveBlocks
  let (name, c) := (s.cursor.skip 1).takeWhile isWordChar
  if !endsWord c.rest then none
  else
    let (t, c) ← directiveBody (String.ofList name) fuel c
    let c := c.skipWhile isBlank
    let c := if c.rest.head? == some '#' then c.skipWhile (fun x => !isBreak x) else c
    if c.atLineEnd then return { s with cursor := c.skipBreak }.emit t else none

/-- The line that starts or ends a document. -/
def documentMark (s : Lexer) (t : Token) : Option Lexer := do
  let s ← s.leaveBlocks
  return s.indicator 3 t

/-- A block scalar. -/
def block (s : Lexer) (literal : Bool) (fuel : Nat) : Option Lexer := do
  let s ← s.removeKey
  let (text, c) ← blockScalar literal s.indent fuel (s.cursor.skip 1)
  let t := Token.scalar (if literal then .literal else .quoted) (String.ofList text.reverse)
  return { s with cursor := c, keyAllowed := true }.emit t

/-- A quoted scalar. -/
def quotedScalar (single : Bool) (fuel : Nat) (c : Cursor) : Option (Token × Cursor) := do
  let (text, c) ← quotedRest single (fuel + 1) (c.skip 1) []
  return (.scalar .quoted (String.ofList text.reverse), c)

/-- A plain scalar. After a line break a key may start again. -/
def plain (s : Lexer) (fuel : Nat) : Option Lexer := do
  let s ← s.saveKey
  let (text, c, broken) ← plainRest s.inFlow (s.indent + 1) (fuel + 1) s.cursor [] {}
  let t := Token.scalar .plain (String.ofList text.reverse)
  return { s with cursor := c, keyAllowed := broken }.emit t

/-- Whether a plain scalar may start with a character that has others after it. -/
def startsPlain (inFlow : Bool) (x : Char) (rest : List Char) : Bool :=
  !(isBlank x || isBreak x || "-?:,[]\x7b\x7d#&*!|>'\"%@\x60".toList.contains x) ||
    (x == '-' && !(rest.head?.any isBlank)) ||
    (!inFlow && (x == '?' || x == ':') && !endsWord rest)

/-- The next token or tokens, which start with a character that has others after it. The fuel is no
less than what is left of the text. -/
def step (s : Lexer) (fuel : Nat) (x : Char) (rest : List Char) : Option Lexer :=
  let marks := s.inFlow || endsWord rest
  if s.cursor.column == 0 && x == '%' then s.directive fuel
  else if s.cursor.atMarker '-' then s.documentMark .documentStart
  else if s.cursor.atMarker '.' then s.documentMark .documentEnd
  else if x == '[' then s.openFlow .flowSequence
  else if x == '\x7b' then s.openFlow .flowMapping
  else if x == ']' then s.closeFlow .flowSequenceEnd
  else if x == '\x7d' then s.closeFlow .flowMappingEnd
  else if x == ',' then s.flowComma
  else if x == '-' && endsWord rest then s.dash
  else if x == '?' && marks then s.keyMark
  else if x == ':' && marks then s.valueMark
  else if x == '*' then s.node (nodeName .alias)
  else if x == '&' then s.node (nodeName .anchor)
  else if x == '!' then s.node (nodeTag s.inFlow fuel)
  else if x == '|' && !s.inFlow then s.block true fuel
  else if x == '>' && !s.inFlow then s.block false fuel
  else if x == '\'' then s.node (quotedScalar true fuel)
  else if x == '"' then s.node (quotedScalar false fuel)
  else if startsPlain s.inFlow x rest then s.plain fuel
  else none

/-- All tokens up to the end of the text. Each step passes over a character at least, so fuel for
all of them is enough. -/
def run : (fuel : Nat) → Lexer → Option (List Token)
  | 0, _ => none
  | fuel + 1, s => do
    let s ← (s.skipBlanks (fuel + 1)).expireKeys
    let s := s.closeBlocks s.cursor.column
    match s.cursor.rest with
    | [] => do
      let s ← s.leaveBlocks
      return s.tokens.reverse
    | x :: rest => do
      let s ← s.step fuel x rest
      run fuel s

end Lexer

/-- The tokens of a text. -/
def tokens (text : String) : Option (List Token) :=
  let cs := text.toList
  if cs.all isAllowed then Lexer.run (cs.length + 1) { cursor := { rest := cs } } else none

end TrajectorySafety.Yaml
