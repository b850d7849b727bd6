/-!
Documents as they were written: scalars with their text, lists and records.

A node does not say whether `1.0` is a number or a text; that is decided by the setting that it is
read for, under the rules of the `Dialect` that it was written in. A node may also be an alias of
another, even of one that it is part of; the nodes that aliases stand for are kept beside the tree.
-/

namespace TrajectorySafety

/-- How a scalar was written. -/
inductive Style where
  /-- Bare: it may be a number, a flag, nothing or a text. -/
  | plain
  /-- As a block that keeps its line breaks. -/
  | literal
  /-- In quotes or folded: always a text. -/
  | quoted
deriving Repr, DecidableEq

/-- What a tag in front of a node says. -/
inductive Tag where
  /-- A type that every document knows. -/
  | type (name : String)
  /-- A name of the document's own, if it can be read. -/
  | own (name : Option String)
  /-- Anything else. -/
  | other
deriving Repr, DecidableEq

/-- A scalar with its style, its tag and its text. -/
structure Scalar where
  style : Style
  tag : Option Tag
  text : String
deriving Repr, DecidableEq

/-- A document tree. -/
inductive Node where
  | scalar (value : Scalar)
  | list (tag : Option Tag) (items : List Node)
  | record (tag : Option Tag) (fields : List (Node × Node))
  /-- The node that a number stands for. -/
  | alias (number : Nat)
  /-- A text with an escape that stands for no character. It can be passed over, but not read. -/
  | unreadable
deriving Repr, Inhabited

mutual

/-- How many pieces a node is written in: one for a scalar or an alias, and two around the parts of
a list or a record. -/
def Node.size : Node → Nat
  | .list _ items => Node.sizeOfItems items + 2
  | .record _ fields => Node.sizeOfFields fields + 2
  | _ => 1

def Node.sizeOfItems : List Node → Nat
  | [] => 0
  | n :: rest => n.size + Node.sizeOfItems rest

def Node.sizeOfFields : List (Node × Node) → Nat
  | [] => 0
  | (key, value) :: rest => key.size + value.size + Node.sizeOfFields rest

end

/-- A document: its tree, and the nodes that the numbers of its aliases stand for. -/
structure Document where
  root : Node
  targets : List (Nat × Node) := []
deriving Repr

/-- What a scalar turns out to be where its type is open. -/
inductive Kind where
  | null
  | flag (value : Bool)
  | count (value : Nat)
  /-- A whole number with a minus sign. -/
  | minus (magnitude : Nat)
  | real (value : Float)
  | text (value : String)
deriving Repr

/-- The rules of one way of writing documents. -/
structure Dialect where
  /-- A truth value. -/
  flag? : Scalar → Option Bool
  /-- A count that fits a word. -/
  count? : Scalar → Option Nat
  /-- A number. -/
  real? : Scalar → Option Float
  /-- A text. -/
  text? : Scalar → Option String
  /-- Whether a scalar stands for an absent value; `none` if it is neither absent nor present. -/
  absent? : Scalar → Option Bool
  /-- Whether a scalar stands for an empty list or record. -/
  isVoid : Scalar → Bool
  /-- The type that a scalar has of its own, where any type may stand. -/
  kind? : Scalar → Option Kind
  /-- Whether a record may be written as the list of its fields. -/
  positional : Bool
  /-- The name of a variant without fields, other than as a text. -/
  variantName? : Node → Option String

end TrajectorySafety
