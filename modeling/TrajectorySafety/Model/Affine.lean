import TrajectorySafety.Model

/-!
Affine dynamics with a bounded disturbance: `x' = A x + b + u`, each coordinate of `u` drawn
uniformly up to its noise to both sides of zero.
-/

namespace TrajectorySafety

open TrajectorySafety.Random

/-- The parameters of affine dynamics. -/
structure Affine where
  matrix : List (List Float)
  offset : List Float
  noise : List Float
deriving Repr

namespace Affine

/-- The first row that is too short, too long or not finite. -/
def rowFault? (n : Nat) : (i : Nat) → List (List Float) → Option Fault
  | _, [] => none
  | i, row :: rest =>
    if row.length ≠ n then some (.matrixRow i row.length n)
    else if row.any fun v => !v.isFinite then some (.matrixEntry i)
    else rowFault? n (i + 1) rest

/-- What is wrong with a vector of `n` finite numbers. -/
def vectorFault? (field : String) (n : Nat) (values : List Float) : Option Fault :=
  if values.length ≠ n then some (.vectorLength field values.length n)
  else if values.any fun v => !v.isFinite then some (.vectorEntry field)
  else none

/-- What is wrong with the parameters. -/
def fault? (a : Affine) : Option Fault :=
  let n := a.matrix.length
  if n = 0 then some .emptyMatrix
  else
    rowFault? n 0 a.matrix <|> vectorFault? "model.offset" n a.offset <|>
      vectorFault? "model.noise" n a.noise <|>
      (a.noise.findIdx? fun w => w < 0).map .negativeNoise

/-- Affine dynamics with a square matrix; a missing offset or noise is zero. -/
def make (matrix : List (List Float)) (offset noise : Option (List Float)) : Except Fault Affine :=
  let zeros := List.replicate matrix.length (0 : Float)
  let a : Affine := ⟨matrix, offset.getD zeros, noise.getD zeros⟩
  match a.fault? with
  | some fault => .error fault
  | none => .ok a

/-- The product of a row and a state. -/
def dot (row x : List Float) : Float := (row.zip x).foldl (fun sum (a, v) => sum + a * v) 0

/-- The disturbance of one coordinate: a draw only if there is any noise. -/
def disturbance (w : Float) (g : Generator) : Float × Generator :=
  if 0 < w then g.between (-w) w else (0, g)

/-- The coordinates of the successor, row by row; `none` as soon as one is not finite. -/
def rows (x : List Float) : List (List Float × Float × Float) → Generator →
    Option (List Float) × Generator
  | [], g => (some [], g)
  | (row, b, w) :: rest, g =>
    let (u, g) := disturbance w g
    let value := dot row x + b + u
    if value.isFinite then
      let (others, g) := rows x rest g
      (others.map (value :: ·), g)
    else (none, g)

/-- One step. A state of the wrong dimension is a failure of the model. -/
def apply (a : Affine) (s : State) (g : Generator) : Except Error Step × Generator :=
  if s.dimension ≠ a.matrix.length then
    (.error (.model s!"affine model expects {a.matrix.length} coordinates, got {s.dimension}"), g)
  else
    match rows s.coordinates (a.matrix.zip (a.offset.zip a.noise)) g with
    | (some values, g) => (.ok (.next ⟨values⟩), g)
    | (none, g) => (.ok .diverged, g)

end Affine

/-- The step model of affine dynamics. -/
def StepModel.affine (a : Affine) : StepModel Unit :=
  let next := fun (s : State) (g : Generator) (m : Unit) =>
    let (answer, g) := a.apply s g
    ({ answer, generator := g, memory := m } : Reply Unit Step)
  { name := "affine", dimension := some a.matrix.length, batched := true, next,
    nextBatch := StepModel.oneByOne next }

end TrajectorySafety
