import TrajectorySafety.Error
import TrajectorySafety.Text.Blank

/-!
The comparison of a constraint. A constraint describes what is unsafe: the comparison holds there.
-/

namespace TrajectorySafety

/-- A comparison with a threshold. -/
inductive Operator where
  | ge
  | le
  | gt
  | lt
deriving Repr, DecidableEq

namespace Operator

/-- Whether `value op threshold`; with a NaN it never does. -/
def holds : Operator → (value threshold : Float) → Bool
  | ge, v, c => c ≤ v
  | le, v, c => v ≤ c
  | gt, v, c => c < v
  | lt, v, c => v < c

def symbol : Operator → String
  | ge => ">="
  | le => "<="
  | gt => ">"
  | lt => "<"

/-- Whether the upper end of an interval is the one that can satisfy the comparison. -/
def usesUpper : Operator → Bool
  | ge | gt => true
  | le | lt => false

/-- The operator of a token without blanks around it and in lower case. -/
def ofToken? : String → Option Operator
  | ">=" | "ge" => some ge
  | "<=" | "le" => some le
  | ">" | "gt" => some gt
  | "<" | "lt" => some lt
  | _ => none

/-- A token with blanks around it removed and its ASCII letters in lower case. -/
def normalise (token : String) : String :=
  String.ofList ((Text.trim token.toList).map Char.toLower)

/-- The operator of a token: its symbol, or its two letters in any mix of cases. -/
def parse (token : String) : Except Fault Operator :=
  match ofToken? (normalise token) with
  | some op => .ok op
  | none => .error (.unknownOperator (normalise token))

end Operator

end TrajectorySafety
