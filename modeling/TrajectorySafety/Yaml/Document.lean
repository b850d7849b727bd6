import TrajectorySafety.Yaml.Token

/-!
The document that a YAML text holds.

The reader walks over the tokens with the nodes that have been named so far (`Anchors`). A name may
be used from the start of its node on, also inside of it.
-/

namespace TrajectorySafety.Yaml

/-- The names of nodes and the named nodes. The number of a name is how many names there were
before. A name that is given again gets a new number but is no new name, so the next new name shares
that number, and both stand for the node that starts last. -/
structure Anchors where
  /-- The number of each name. -/
  numbers : List (String × Nat) := []
  /-- The named nodes with their numbers, in the order of their starts. -/
  nodes : Array (Nat × Node) := #[]

/-- What a reader of tokens leaves behind. -/
structure Progress (α : Type) where
  result : α
  anchors : Anchors
  rest : List Token

/-- What stands in front of the content of a node. -/
structure Properties where
  anchor : Option String := none
  tag : Option (String × TagText) := none

/-- The properties of a node: an anchor and a tag, in either order. -/
def properties : List Token → Properties × List Token
  | .anchor a :: .tag h t :: rest => ({ anchor := some a, tag := some (h, t) }, rest)
  | .tag h t :: .anchor a :: rest => ({ anchor := some a, tag := some (h, t) }, rest)
  | .anchor a :: rest => ({ anchor := some a }, rest)
  | .tag h t :: rest => ({ tag := some (h, t) }, rest)
  | rest => ({}, rest)

/-- The handles of tags that a document knows. -/
abbrev Handles := List (String × TagText)

/-- The namespace of the types that every document knows. -/
def commonSpace : String := "tag:yaml.org,2002:"

/-- What the full text of a tag says. -/
def meaning (text : TagText) : Tag :=
  match text with
  | some '!' :: rest => .own ((rest.mapM id).map String.ofList)
  | _ =>
    let space := commonSpace.toList
    match text.mapM id with
    | some cs =>
      if space.isPrefixOf cs then .type (String.ofList (cs.drop space.length)) else .other
    | none => .other

/-- What a tag says; its handle must be known. -/
def resolveTag (handles : Handles) : Option (String × TagText) → Option (Option Tag)
  | none => some none
  | some (handle, suffix) =>
    if handle.isEmpty then some (some (meaning suffix))
    else (handles.lookup handle).map fun head => some (meaning (head ++ suffix))

/-- A node without any text. -/
def emptyScalar (tag : Option Tag) : Node := .scalar ⟨.plain, tag, ""⟩

/-- The tokens after which nothing is left of an item or a value. -/
def Token.isBlockBoundary : Token → Bool
  | .blockEntry | .key | .value | .blockEnd => true
  | _ => false

/-- Which token, if any, comes next. -/
def nextIs (p : Token → Bool) : List Token → Bool
  | t :: _ => p t
  | [] => false

namespace Anchors

/-- Names a node that starts here, if it has a name. -/
def start (anchors : Anchors) : (name : Option String) → Anchors
  | some a =>
    let number := anchors.numbers.length
    { numbers := (a, number) :: anchors.numbers.filter (·.1 != a)
      nodes := anchors.nodes.push (number, .alias number) }
  | none => anchors

/-- Completes the node that was the `place`-th to get a name, if it has one. -/
def complete (anchors : Anchors) (place : Nat) (name : Option String) (node : Node) : Anchors :=
  if name.isSome then
    { anchors with nodes := anchors.nodes.modify place fun (number, _) => (number, node) }
  else anchors

/-- The number of a name. -/
def number? (anchors : Anchors) (a : String) : Option Nat := anchors.numbers.lookup a

/-- The nodes that numbers stand for, the latest start first. -/
def targets (anchors : Anchors) : List (Nat × Node) := anchors.nodes.toList.reverse

end Anchors

mutual

/-- A node. Between block tokens it may be a block, and after a key a sequence that is not
indented. -/
def node (handles : Handles) (inBlock indentless : Bool) :
    (fuel : Nat) → Anchors → List Token → Option (Progress Node)
  | 0, _, _ => none
  | _ + 1, anchors, .alias a :: rest => do
    let number ← anchors.number? a
    return ⟨.alias number, anchors, rest⟩
  | fuel + 1, anchors, ts => do
    let (p, ts) := properties ts
    let tag ← resolveTag handles p.tag
    let place := anchors.nodes.size
    let started := anchors.start p.anchor
    let complete := fun (n : Node) (anchors : Anchors) (rest : List Token) =>
      (⟨n, anchors.complete place p.anchor n, rest⟩ : Progress Node)
    match ts with
    | .scalar style text :: rest => return complete (.scalar ⟨style, tag, text⟩) started rest
    | .flowSequence :: rest => do
      let r ← flowItems handles true fuel started rest
      return complete (.list tag r.result) r.anchors r.rest
    | .flowMapping :: rest => do
      let r ← flowFields handles true fuel started rest
      return complete (.record tag r.result) r.anchors r.rest
    | .blockEntry :: _ =>
      if indentless then do
        let r ← plainItems handles fuel started ts
        return complete (.list tag r.result) r.anchors r.rest
      else if p.anchor.isSome || p.tag.isSome then
        return complete (emptyScalar tag) started ts
      else none
    | .blockSequence :: rest =>
      if inBlock then do
        let r ← blockItems handles fuel started rest
        return complete (.list tag r.result) r.anchors r.rest
      else if p.anchor.isSome || p.tag.isSome then
        return complete (emptyScalar tag) started ts
      else none
    | .blockMapping :: rest =>
      if inBlock then do
        let r ← blockFields handles fuel started rest
        return complete (.record tag r.result) r.anchors r.rest
      else if p.anchor.isSome || p.tag.isSome then
        return complete (emptyScalar tag) started ts
      else none
    | _ =>
      if p.anchor.isSome || p.tag.isSome then return complete (emptyScalar tag) started ts
      else none

/-- A node of a block, or nothing in front of a token that ends it. -/
def blockNode (handles : Handles) (indentless : Bool) (ends : Token → Bool) :
    (fuel : Nat) → Anchors → List Token → Option (Progress Node)
  | 0, _, _ => none
  | fuel + 1, anchors, ts =>
    if nextIs ends ts then some ⟨emptyScalar none, anchors, ts⟩
    else node handles true indentless fuel anchors ts

/-- The items of a block sequence up to its end. -/
def blockItems (handles : Handles) :
    (fuel : Nat) → Anchors → List Token → Option (Progress (List Node))
  | 0, _, _ => none
  | _ + 1, anchors, .blockEnd :: rest => some ⟨[], anchors, rest⟩
  | fuel + 1, anchors, .blockEntry :: rest => do
    let ends := fun (t : Token) => t == .blockEntry || t == .blockEnd
    let item ← blockNode handles false ends fuel anchors rest
    let items ← blockItems handles fuel item.anchors item.rest
    return { items with result := item.result :: items.result }
  | _ + 1, _, _ => none

/-- The items of a sequence that is not indented, up to the first token that is no item. -/
def plainItems (handles : Handles) :
    (fuel : Nat) → Anchors → List Token → Option (Progress (List Node))
  | 0, _, _ => none
  | fuel + 1, anchors, .blockEntry :: rest => do
    let item ← blockNode handles false Token.isBlockBoundary fuel anchors rest
    let items ← plainItems handles fuel item.anchors item.rest
    return { items with result := item.result :: items.result }
  | _ + 1, anchors, ts => some ⟨[], anchors, ts⟩

/-- The fields of a block mapping up to its end. -/
def blockFields (handles : Handles) :
    (fuel : Nat) → Anchors → List Token → Option (Progress (List (Node × Node)))
  | 0, _, _ => none
  | _ + 1, anchors, .blockEnd :: rest => some ⟨[], anchors, rest⟩
  | fuel + 1, anchors, .key :: rest => do
    let ends := fun (t : Token) => t == .key || t == .value || t == .blockEnd
    let k ← blockNode handles true ends fuel anchors rest
    let v ← match k.rest with
      | .value :: rest => blockNode handles true ends fuel k.anchors rest
      | rest => some ⟨emptyScalar none, k.anchors, rest⟩
    let fields ← blockFields handles fuel v.anchors v.rest
    return { fields with result := (k.result, v.result) :: fields.result }
  | _ + 1, _, _ => none

/-- The items of a sequence in brackets up to its end, each but the first after a comma. An item
with a key is a mapping of one field. -/
def flowItems (handles : Handles) (first : Bool) :
    (fuel : Nat) → Anchors → List Token → Option (Progress (List Node))
  | 0, _, _ => none
  | fuel + 1, anchors, ts => do
    if nextIs (· == .flowSequenceEnd) ts then return ⟨[], anchors, ts.drop 1⟩
    let ts ← if first then some ts else match ts with
      | .flowEntry :: rest => some rest
      | _ => none
    match ts with
    | .flowSequenceEnd :: rest => return ⟨[], anchors, rest⟩
    | .key :: rest => do
      let pair ← flowPair handles fuel anchors rest
      let items ← flowItems handles false fuel pair.anchors pair.rest
      return { items with result := .record none [pair.result] :: items.result }
    | ts => do
      let item ← node handles false false fuel anchors ts
      let items ← flowItems handles false fuel item.anchors item.rest
      return { items with result := item.result :: items.result }

/-- The field of a mapping that stands among the items of a sequence in brackets. An empty key takes
the token after it along. -/
def flowPair (handles : Handles) :
    (fuel : Nat) → Anchors → List Token → Option (Progress (Node × Node))
  | 0, _, _ => none
  | fuel + 1, anchors, ts => do
    let ends := fun (t : Token) => t == .flowEntry || t == .flowSequenceEnd
    let k ←
      if nextIs (fun t => t == .value || ends t) ts then
        some ⟨emptyScalar none, anchors, ts.drop 1⟩
      else node handles false false fuel anchors ts
    let v ← match k.rest with
      | .value :: rest => flowValue handles ends fuel k.anchors rest
      | rest => some ⟨emptyScalar none, k.anchors, rest⟩
    return ⟨(k.result, v.result), v.anchors, v.rest⟩

/-- A value between brackets, or nothing in front of a token that ends it. -/
def flowValue (handles : Handles) (ends : Token → Bool) :
    (fuel : Nat) → Anchors → List Token → Option (Progress Node)
  | 0, _, _ => none
  | fuel + 1, anchors, ts =>
    if nextIs ends ts then some ⟨emptyScalar none, anchors, ts⟩
    else node handles false false fuel anchors ts

/-- The fields of a mapping in braces up to its end, each but the first after a comma. A field may
lack its value. -/
def flowFields (handles : Handles) (first : Bool) :
    (fuel : Nat) → Anchors → List Token → Option (Progress (List (Node × Node)))
  | 0, _, _ => none
  | fuel + 1, anchors, ts => do
    if nextIs (· == .flowMappingEnd) ts then return ⟨[], anchors, ts.drop 1⟩
    let ts ← if first then some ts else match ts with
      | .flowEntry :: rest => some rest
      | _ => none
    let ends := fun (t : Token) => t == .flowEntry || t == .flowMappingEnd
    match ts with
    | .flowMappingEnd :: rest => return ⟨[], anchors, rest⟩
    | .key :: rest => do
      let k ← flowValue handles (fun t => t == .value || ends t) fuel anchors rest
      let v ← match k.rest with
        | .value :: rest => flowValue handles ends fuel k.anchors rest
        | rest => some ⟨emptyScalar none, k.anchors, rest⟩
      let fields ← flowFields handles false fuel v.anchors v.rest
      return { fields with result := (k.result, v.result) :: fields.result }
    | ts => do
      let k ← node handles false false fuel anchors ts
      let fields ← flowFields handles false fuel k.anchors k.rest
      return { fields with result := (k.result, emptyScalar none) :: fields.result }

end

/-- The directives in front of a document: at most one version, which must be 1.1 or 1.2, and tag
handles, none of them twice. -/
def directives : (seen : Bool) → Handles → List Token → Option (Handles × List Token)
  | seen, handles, .version major minor :: rest =>
    if seen || major ≠ 1 || (minor ≠ 1 && minor ≠ 2) then none else directives true handles rest
  | seen, handles, .tagDirective handle head :: rest =>
    if (handles.lookup handle).isSome then none
    else directives seen (handles ++ [(handle, head)]) rest
  | _, handles, rest => some (handles, rest)

/-- The handles of a document: its own, then the usual ones. -/
def allHandles (own : Handles) : Handles :=
  own ++ [("!", [some '!']), ("!!", commonSpace.toList.map some)]

/-- Whether nothing but document ends follow. -/
def atStreamEnd (ts : List Token) : Bool := ts.all (· == .documentEnd)

/-- Whether a token cannot be part of a document. -/
def Token.isOutside : Token → Bool
  | .version .. | .tagDirective .. | .documentStart | .documentEnd => true
  | _ => false

/-- The only document of a text: with its start marked, which it must be after directives, or
not. A text without tokens holds none, which counts as an empty scalar. -/
def document (ts : List Token) : Option Document := do
  let fuel := 4 * ts.length + 4
  let blank : Document := ⟨emptyScalar none, []⟩
  let whole := fun (own : Handles) (ts : List Token) => do
    let n ← node (allHandles own) true false fuel {} ts
    if atStreamEnd n.rest then return ⟨n.result, n.anchors.targets⟩ else none
  match ts with
  | [] => return blank
  | t :: _ =>
    if t.isOutside && t != .documentEnd then do
      let (own, ts) ← directives false [] ts
      match ts with
      | .documentStart :: rest =>
        if rest.isEmpty || nextIs Token.isOutside rest then
          if atStreamEnd rest then return blank else none
        else whole own rest
      | _ => none
    else whole [] ts

/-- Reads the document of a text. -/
def parse (text : String) : Option Document := do
  let ts ← tokens text
  document ts

end TrajectorySafety.Yaml
