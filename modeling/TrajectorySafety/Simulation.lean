import TrajectorySafety.Event
import TrajectorySafety.Model

/-!
Trajectories from a model, one by one or in lockstep.

A computation of type `Sim μ` runs in a `World`: the generator that draws come from, the memory of
the model, the cancel flag and the diagnostics so far. It ends in a value or an error, and the world
that it leaves behind is there in both cases.

Memory is not limited here, but the length of a list is: no list has room for more than `stateLimit`
states. Room is made beforehand for the initial states of a batch and for the states of a trajectory
that is simulated by itself, and asking for too much of it stops the program (`Sim.reserve`).
-/

namespace TrajectorySafety

open TrajectorySafety.Random

/-- The most states that a list has room for: a state takes 24 bytes of it, and a list takes fewer
than 2^63 bytes. -/
def stateLimit : Nat := 9223372036854775807 / 24

/-- What a simulation changes besides its result. -/
structure World (μ : Type) where
  generator : Generator
  memory : μ
  /-- Whether somebody asked to cancel the run; once set it stays. -/
  cancelled : Bool := false
  events : Array Event := #[]

/-- A computation that ends in a value or an error, in a world. -/
abbrev Sim (μ : Type) := EStateM Error (World μ)

namespace Sim

variable {μ α β : Type}

/-- A call of a model. -/
def call (f : Generator → μ → Reply μ α) : Sim μ α := fun w =>
  let r := f w.generator w.memory
  let w := { w with
    generator := r.generator
    memory := r.memory
    cancelled := w.cancelled || r.cancels }
  match r.answer with
  | .ok a => .ok a w
  | .error e => .error e w

/-- Notes a diagnostic. -/
def note (e : Event) : Sim μ Unit := modify fun w => { w with events := w.events.push e }

/-- Makes room for a number of states, or stops the program. -/
def reserve (count : Nat) : Sim μ Unit :=
  if count ≤ stateLimit then pure () else throw .capacity

/-- A state drawn from a box. -/
def draw (b : Box) : Sim μ State := fun w =>
  let (s, g) := w.generator.sampleBox b
  .ok s { w with generator := g }

@[simp] theorem pure_apply (a : α) (w : World μ) : (pure a : Sim μ α) w = .ok a w := rfl

@[simp] theorem bind_apply (x : Sim μ α) (f : α → Sim μ β) (w : World μ) :
    (x >>= f) w = match x w with
      | .ok a w => f a w
      | .error e w => .error e w := by
  simp only [bind, EStateM.bind]
  cases x w <;> rfl

@[simp] theorem get_apply (w : World μ) : (get : Sim μ (World μ)) w = .ok w w := rfl

@[simp] theorem modify_apply (f : World μ → World μ) (w : World μ) :
    (modify f : Sim μ PUnit) w = .ok () (f w) := rfl

@[simp] theorem note_apply (e : Event) (w : World μ) :
    note e w = .ok () { w with events := w.events.push e } := rfl

theorem reserve_of_le {count : Nat} (h : count ≤ stateLimit) :
    (reserve count : Sim μ Unit) = pure () := if_pos h

theorem reserve_of_lt {count : Nat} (h : stateLimit < count) :
    (reserve count : Sim μ Unit) = throw .capacity := if_neg (Nat.not_le.2 h)

end Sim

/-- A model, the guard for its states, and the number of states of a trajectory. -/
structure Simulator (μ : Type) where
  model : StepModel μ
  guard : Guard
  horizon : Nat
  horizon_pos : 0 < horizon

/-- The trajectories of one batch, in the order of their initial states. -/
structure Batch where
  trajectories : List Trajectory
deriving Repr

/-- How many trajectories of a batch were cut off. -/
def Batch.diverged (b : Batch) : Nat := b.trajectories.countP Trajectory.isTruncated

namespace Simulator

variable {μ : Type}

/-- A simulator; trajectories have at least one state. -/
def make (model : StepModel μ) (guard : Guard) (horizon : Nat) : Except Fault (Simulator μ) :=
  if h : 0 < horizon then .ok ⟨model, guard, horizon, h⟩ else .error .zeroHorizon

/-- The state of a step at a time, or `none` with a diagnostic if the guard rejects it. -/
def accept (sim : Simulator μ) (step : Step) (time : Nat) : Sim μ (Option State) :=
  match sim.guard.screen step time with
  | .ok s => pure (some s)
  | .error e => do
    Sim.note (.truncated sim.model.name e.message)
    return none

/-- A state and up to `steps` successors of it, the first of them at `time`. -/
def path (sim : Simulator μ) : (steps time : Nat) → State → Sim μ (List State)
  | 0, _, s => pure [s]
  | n + 1, time, s => do
    let step ← Sim.call (sim.model.next s)
    match ← sim.accept step time with
    | none => return [s]
    | some next =>
      let rest ← sim.path n (time + 1) next
      return s :: rest

/-- One trajectory from its initial state. Room is made for as many states as the horizon, however
few there will be. -/
def simulate (sim : Simulator μ) (initial : State) : Sim μ Trajectory := do
  Sim.reserve sim.horizon
  let states ← sim.path (sim.horizon - 1) 1 initial
  return ⟨states, sim.horizon⟩

/-- Trajectories from several initial states, one after the other. -/
def simulateAll (sim : Simulator μ) : List State → Sim μ (List Trajectory)
  | [] => pure []
  | s :: rest => do
    let t ← sim.simulate s
    let ts ← sim.simulateAll rest
    return t :: ts

/-- A trajectory in the making. -/
structure Track where
  latest : State
  /-- The states before the latest, backwards. -/
  earlier : List State
  /-- Whether it still goes on. -/
  active : Bool

/-- The states so far, forwards. -/
def Track.states (t : Track) : List State := (t.latest :: t.earlier).reverse

/-- The latest states of the tracks that go on. -/
def frontier (tracks : List Track) : List State := (tracks.filter Track.active).map Track.latest

/-- Hands one answer to each active track, in order; a rejected answer ends its track. -/
def distribute (sim : Simulator μ) (time : Nat) : List Track → List Step → Sim μ (List Track)
  | [], _ => pure []
  | tracks, [] => pure tracks
  | t :: rest, step :: steps =>
    if t.active then do
      let t ← match ← sim.accept step time with
        | some s => pure ⟨s, t.latest :: t.earlier, true⟩
        | none => pure { t with active := false }
      let ts ← sim.distribute time rest steps
      return t :: ts
    else do
      let ts ← sim.distribute time rest (step :: steps)
      return t :: ts

/-- Up to `rounds` rounds in lockstep, the first of them at `time`: the model answers all active
tracks by one call, with one answer for each. -/
def lockstep (sim : Simulator μ) : (rounds time : Nat) → List Track → Sim μ (List Track)
  | 0, _, tracks => pure tracks
  | n + 1, time, tracks =>
    let front := frontier tracks
    if front.isEmpty then pure tracks
    else do
      let steps ← Sim.call (sim.model.nextBatch front)
      if steps.length ≠ front.length then
        throw (.model (s!"{sim.model.name} returned {steps.length} states " ++
          s!"for a batch of {front.length}"))
      else
        let tracks ← sim.distribute time tracks steps
        sim.lockstep n (time + 1) tracks

/-- Trajectories from several initial states, in lockstep. Room is made for their states as they
come. -/
def simulateLockstep (sim : Simulator μ) (initials : List State) : Sim μ (List Trajectory) := do
  let tracks ← sim.lockstep (sim.horizon - 1) 1 (initials.map fun s => ⟨s, [], true⟩)
  return tracks.map fun t => ⟨t.states, sim.horizon⟩

/-- A number of states drawn from a box, one after the other. -/
def drawAll (region : Box) : (count : Nat) → Sim μ (List State)
  | 0 => pure []
  | n + 1 => do
    let s ← Sim.draw region
    let rest ← drawAll region n
    return s :: rest

/-- A number of initial states from a box. Room for all of them is made before the first is
drawn. -/
def initials (region : Box) (count : Nat) : Sim μ (List State) := do
  Sim.reserve count
  drawAll region count

/-- A batch of trajectories: all initial states are drawn first, then each is simulated in the way
that the model prefers. -/
def batch (sim : Simulator μ) (region : Box) (count : Nat) : Sim μ Batch := do
  let starts ← initials region count
  let ts ← if sim.model.batched then sim.simulateLockstep starts else sim.simulateAll starts
  return ⟨ts⟩

end Simulator

end TrajectorySafety
