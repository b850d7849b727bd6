import TrajectorySafety.Document.Node
import TrajectorySafety.Number.Binary

/-!
Reading values from documents.

Most settings have a fixed type, and the scalar is read as that type (`real`, `count`, `flag`,
`text`). Where several types are possible, the whole value is taken first (`content`), its scalars
get the types that they have of their own, and must then fit (`openReal`, `openCount`, …).

Aliases are followed where a value is read, and only so often (`Reading`), so that a document that
repeats itself without end is refused, unless what repeats itself is passed over.
-/

namespace TrajectorySafety

variable {α : Type}

/-- A value that is read with a number of aliases that may still be followed. -/
abbrev Reading (α : Type) := StateT Nat Option α

/-- A value that needs no alias to be followed. -/
def Reading.of (x : Option α) : Reading α := fun left => x.map (·, left)

/-- The fields of a record: their names, each with the other names that it goes by, and whether
further fields are refused. -/
structure Shape where
  names : List (String × List String)
  closed : Bool

/-- The name under which a record knows a field. -/
def Shape.canonical? (shape : Shape) (name : String) : Option String :=
  (shape.names.find? fun (n, others) => n == name || others.contains name).map Prod.fst

/-- The fields that a record has, by name. -/
abbrev Fields := List (String × Node)

namespace Fields

variable {m : Type → Type} [Alternative m]

/-- A field that must be there. -/
def required (fields : Fields) (name : String) (read : Node → m α) : m α :=
  match fields.lookup name with
  | some n => read n
  | none => failure

/-- A field that has a value of its own when it is missing. -/
def default (fields : Fields) (name : String) (value : α) (read : Node → m α) : m α :=
  match fields.lookup name with
  | some n => read n
  | none => pure value

/-- Adds a field; it must not be there already. -/
def add (fields : Fields) (name : String) (value : Node) : Option Fields :=
  if (fields.lookup name).isSome then none else some (fields ++ [(name, value)])

end Fields

/-- A scalar read by a rule. -/
def Node.scalarBy (rule : Scalar → Option α) : Node → Option α
  | .scalar s => rule s
  | _ => none

/-- Whether a tag is a readable name of the document's own, which makes a value unfit where any type
may stand. -/
def Tag.isNamed : Option Tag → Bool
  | some (.own (some _)) => true
  | _ => false

namespace Dialect

variable (d : Dialect)

/-- A number where several types are possible; a whole number will do. -/
def openReal : Node → Option Float := Node.scalarBy fun s =>
  match d.kind? s with
  | some (.real x) => some x
  | some (.count n) => some (Number.ofNat n)
  | some (.minus n) => some (if n = 0 then 0 else -(Number.ofNat n))
  | _ => none

def openCount : Node → Option Nat := Node.scalarBy fun s =>
  match d.kind? s with
  | some (.count n) => some n
  | some (.minus 0) => some 0
  | _ => none

def openText : Node → Option String := Node.scalarBy fun s =>
  match d.kind? s with
  | some (.text t) => some t
  | _ => none

/-- A list where several types are possible. -/
def openList (read : Node → Option α) : Node → Option (List α)
  | .list tag items => if Tag.isNamed tag then none else items.mapM read
  | _ => none

/-- A value that may be absent, where several types are possible. -/
def openOptional (read : Node → Option α) : Node → Option (Option α)
  | .scalar s =>
    match d.kind? s with
    | some .null => some none
    | _ => (read (.scalar s)).map some
  | n => (read n).map some

/-- The name of a field, or its position among the names. -/
def openName (names : List String) (key : Node) : Option String :=
  match key with
  | .scalar s =>
    match d.kind? s with
    | some (.text t) => if names.contains t then some t else none
    | some (.count i) => names[i]?
    | _ => none
  | _ => none

/-- The fields of a record where several types are possible; all of them must be known. -/
def openFieldsFrom (names : List String) : Fields → List (Node × Node) → Option Fields
  | found, [] => some found
  | found, (key, value) :: rest => do
    let name ← d.openName names key
    let found ← found.add name value
    openFieldsFrom names found rest

/-- The fields of a record by their names, or in their order in a list. -/
inductive Body where
  | named (fields : List (Node × Node))
  | ordered (items : List Node)

/-- The fields of a body, of which all must be known. -/
def openFields (names : List String) : Body → Option Fields
  | .named fields => d.openFieldsFrom names [] fields
  | .ordered items => if items.length ≤ names.length then some (names.zip items) else none

/-- Whether a key is the given text. -/
def isKey (name : String) (key : Node) : Bool := d.openText key == some name

/-- The one field of a record under a name, as a text, and the other fields. In a list it is the
first of them. -/
def tagged (name : String) : Node → Option (String × Body)
  | .record tag fs =>
    if Tag.isNamed tag then none
    else
      match fs.partition fun f => d.isKey name f.1 with
      | ([(_, value)], others) => (Node.scalarBy d.text? value).map (·, .named others)
      | _ => none
  | .list tag (value :: items) =>
    if Tag.isNamed tag then none
    else (Node.scalarBy d.text? value).map (·, .ordered items)
  | _ => none

end Dialect

/-- A document that values are read from: its rules, and the nodes that its aliases stand for. -/
structure Source where
  rules : Dialect
  targets : List (Nat × Node)

namespace Source

variable (d : Source)

/-- The node that is meant by a node. -/
def follow : Node → Reading Node
  | .alias number => fun
    | 0 => none
    | left + 1 => (d.targets.lookup number).map (·, left)
  | n => pure n

/-- A scalar read by a rule. -/
def scalarBy (rule : Scalar → Option α) (n : Node) : Reading α := do
  let n ← d.follow n
  Reading.of (n.scalarBy rule)

def real : Node → Reading Float := d.scalarBy d.rules.real?

def count : Node → Reading Nat := d.scalarBy d.rules.count?

def flag : Node → Reading Bool := d.scalarBy d.rules.flag?

def text : Node → Reading String := d.scalarBy d.rules.text?

/-- A value that may be absent. -/
def optional (read : Node → Reading α) (n : Node) : Reading (Option α) := do
  match ← d.follow n with
  | .scalar s => do
    if ← Reading.of (d.rules.absent? s) then return none
    let a ← read (.scalar s)
    return some a
  | n => do
    let a ← read n
    return some a

/-- A list of values. -/
def list (read : Node → Reading α) (n : Node) : Reading (List α) := do
  match ← d.follow n with
  | .list _ items => items.mapM read
  | .scalar s => if d.rules.isVoid s then return [] else failure
  | _ => failure

/-- A list of exactly two values. -/
def pair (read : Node → Reading α) (n : Node) : Reading (α × α) := do
  match ← d.follow n with
  | .list _ [a, b] => do
    let a ← read a
    let b ← read b
    return (a, b)
  | _ => failure

/-- The fields of a record of a shape. None may stand twice. -/
def fieldsFrom (shape : Shape) : Fields → List (Node × Node) → Reading Fields
  | found, [] => return found
  | found, (key, value) :: rest => do
    let name ← d.text key
    match shape.canonical? name with
    | some n => do
      let found ← Reading.of (found.add n value)
      fieldsFrom shape found rest
    | none => if shape.closed then failure else fieldsFrom shape found rest

/-- The fields of a record of a shape, which a dialect may also write as a list. -/
def fields (shape : Shape) (n : Node) : Reading Fields := do
  match ← d.follow n with
  | .record _ fs => d.fieldsFrom shape [] fs
  | .list _ items =>
    if d.rules.positional && items.length ≤ shape.names.length then
      return (shape.names.map Prod.fst).zip items
    else failure
  | .scalar s => if d.rules.isVoid s then return [] else failure
  | _ => failure

/-- A variant without fields, by its name. -/
def variant (ofName : String → Option α) (n : Node) : Reading α := do
  let n ← d.follow n
  Reading.of ((d.rules.variantName? n).bind ofName)

/-- A node with all aliases in it replaced by what they stand for, down to a depth of lists and
records. -/
def expand : (depth : Nat) → Node → Reading Node
  | 0, n => do
    match ← d.follow n with
    | .scalar s => return .scalar s
    | _ => failure
  | depth + 1, n => do
    match ← d.follow n with
    | .list tag items => do
      let items ← items.mapM (expand depth)
      return .list tag items
    | .record tag fields => do
      let fields ← fields.mapM fun (key, value) => do
        let key ← expand depth key
        let value ← expand depth value
        return (key, value)
      return .record tag fields
    | n => return n

/-- How deep a value of any type may be. -/
def depthLimit : Nat := 128

/-- A value that may be of several types, read by a rule once it is complete. -/
def content (rule : Node → Option α) (n : Node) : Reading α := do
  let n ← d.expand depthLimit n
  Reading.of (rule n)

end Source

/-- How many aliases may be followed in a document. -/
def Document.aliasLimit (doc : Document) : Nat := 100 * doc.root.size

/-- Reads a value from a document under the rules of a dialect. -/
def Document.read (doc : Document) (rules : Dialect) (read : Source → Node → Reading α) :
    Option α :=
  (read ⟨rules, doc.targets⟩ doc.root).run' doc.aliasLimit

end TrajectorySafety
