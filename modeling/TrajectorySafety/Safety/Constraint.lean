import TrajectorySafety.Safety.Operator

/-!
Constraints on the coordinates of a state, and the declarative records that they are resolved from.
-/

namespace TrajectorySafety

/-- A state is unsafe where `x[coordinate] op threshold`. -/
structure Constraint where
  coordinate : Nat
  op : Operator
  threshold : Float
deriving Repr

def Constraint.text (c : Constraint) : String :=
  s!"x[{c.coordinate}] {c.op.symbol} {Number.text c.threshold}"

/-- What is wrong with the constraints from position `i` on, for states of a dimension. -/
def constraintFault? (dimension : Nat) : (i : Nat) → List Constraint → Option Fault
  | _, [] => none
  | i, c :: rest =>
    if dimension ≤ c.coordinate then some (.constraintCoordinate i c.coordinate dimension)
    else if !c.threshold.isFinite then some (.constraintThreshold i)
    else constraintFault? dimension (i + 1) rest

/-- Checks that there are constraints, on coordinates that exist and with finite thresholds. -/
def validateConstraints (constraints : List Constraint) (dimension : Nat) : Except Fault Unit :=
  if constraints.isEmpty then .error .noConstraints
  else
    match constraintFault? dimension 0 constraints with
    | some fault => .error fault
    | none => .ok ()

/-- A state variable by its position or its name. -/
inductive StateVariable where
  | index (i : Nat)
  | name (n : String)
deriving Repr, DecidableEq

def StateVariable.text : StateVariable → String
  | index i => s!"{i}"
  | name n => s!"'{n}'"

/-- A constraint as it is declared. The threshold is required, but its absence is found only when
the record is resolved. -/
structure ConstraintRecord where
  state : StateVariable
  op : String
  value : Option Float
deriving Repr

/-- The names of the state variables and the declared constraints. -/
structure ConstraintSpec where
  names : List String := []
  records : List ConstraintRecord := []
deriving Repr

namespace ConstraintSpec

/-- The first name that stands twice. -/
def firstRepeated (seen : List String) : List String → Option String
  | [] => none
  | n :: rest => if seen.contains n then some n else firstRepeated (n :: seen) rest

/-- The coordinate of a variable of record `i`. With no names listed any index will do. -/
def resolveVariable (names : List String) (i : Nat) : StateVariable → Except Fault Nat
  | .index c =>
    if !names.isEmpty && names.length ≤ c then
      .error (.variableIndex i c names.length)
    else .ok c
  | .name n =>
    match names.idxOf? n with
    | some c => .ok c
    | none => .error (.unknownVariable i n)

/-- The constraint of record `i`: its variable, then its operator, then its threshold. -/
def resolveRecord (names : List String) (i : Nat) (r : ConstraintRecord) :
    Except Fault Constraint := do
  let coordinate ← resolveVariable names i r.state
  match Operator.parse r.op with
  | .error _ => .error (.recordOperator i (Operator.normalise r.op))
  | .ok op =>
    match r.value with
    | none => .error (.missingThreshold i)
    | some threshold => return ⟨coordinate, op, threshold⟩

/-- The constraints of the records from position `i` on. -/
def resolveFrom (names : List String) : (i : Nat) → List ConstraintRecord →
    Except Fault (List Constraint)
  | _, [] => .ok []
  | i, r :: rest => do
    let c ← resolveRecord names i r
    let cs ← resolveFrom names (i + 1) rest
    return c :: cs

/-- The constraints of a declaration, in order. -/
def resolve (spec : ConstraintSpec) : Except Fault (List Constraint) :=
  match firstRepeated [] spec.names with
  | some n => .error (.repeatedVariable n)
  | none => resolveFrom spec.names 0 spec.records

end ConstraintSpec

end TrajectorySafety
