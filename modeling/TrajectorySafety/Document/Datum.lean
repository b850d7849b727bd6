/-!
Plain data: what a value looks like once it is to be written down.
-/

namespace TrajectorySafety

/-- A tree of plain data. The fields of a record keep their order. -/
inductive Datum where
  | null
  | flag (value : Bool)
  | count (value : Nat)
  | real (value : Float)
  | text (value : String)
  | list (items : List Datum)
  | record (fields : List (String × Datum))
deriving Repr, Inhabited

namespace Datum

/-- A datum for an absent value is `null`. -/
def optional {α : Type} (encode : α → Datum) : Option α → Datum
  | some a => encode a
  | none => null

/-- A list of encoded values. -/
def listOf {α : Type} (encode : α → Datum) (values : List α) : Datum := list (values.map encode)

end Datum

end TrajectorySafety
