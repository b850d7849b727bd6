import TrajectorySafety.Guard
import TrajectorySafety.Random.Generator

/-!
Step models: the system under verification as a black box that answers one state with the next.

A model may draw from the generator that it is handed, keep a memory between calls, fail, and ask
for the run to be cancelled. `Reply` is all that a call leaves behind.
-/

namespace TrajectorySafety

open TrajectorySafety.Random

/-- What a call of a model leaves behind: its answer or failure, the generator after its draws, its
memory, and whether it asked to cancel the run. -/
structure Reply (μ α : Type) where
  answer : Except Error α
  generator : Generator
  memory : μ
  cancels : Bool := false

/-- The dynamics of a system with a memory of type `μ`. -/
structure StepModel (μ : Type) where
  name : String
  /-- The dimension of the states, if it is fixed. -/
  dimension : Option Nat
  /-- Whether many states are stepped by one call. -/
  batched : Bool
  /-- The successor of one state. -/
  next : State → Generator → μ → Reply μ Step
  /-- The successors of several states, in their order. -/
  nextBatch : List State → Generator → μ → Reply μ (List Step)

namespace StepModel

variable {μ : Type}

/-- Steps several states one after the other, up to the first failure. -/
def oneByOne (next : State → Generator → μ → Reply μ Step) :
    List State → Generator → μ → Reply μ (List Step)
  | [], g, m => ⟨.ok [], g, m, false⟩
  | s :: rest, g, m =>
    let r := next s g m
    match r.answer with
    | .error e => ⟨.error e, r.generator, r.memory, r.cancels⟩
    | .ok step =>
      let others := oneByOne next rest r.generator r.memory
      ⟨others.answer.map (step :: ·), others.generator, others.memory, r.cancels || others.cancels⟩

/-- A model that steps every state by itself. -/
def ofNext (name : String) (dimension : Option Nat)
    (next : State → Generator → μ → Reply μ Step) : StepModel μ :=
  { name, dimension, batched := false, next, nextBatch := oneByOne next }

/-- The model that never moves. -/
def identity (dimension : Nat) : StepModel Unit :=
  let next := fun (s : State) (g : Generator) (m : Unit) =>
    ({ answer := .ok (.next s), generator := g, memory := m } : Reply Unit Step)
  { name := "identity", dimension := some dimension, batched := true, next,
    nextBatch := oneByOne next }

end StepModel

end TrajectorySafety
