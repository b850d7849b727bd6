import TrajectorySafety.Simulation

/-!
Properties of computations that the simulator inherits from its model.

A property that holds of the basic computations, and of a sequence if it holds of its parts, is
closed (`Sim.Closed`). Every function of the simulator is built from such parts and from calls of
the model, so a closed property of the calls is one of the batches (`closed_batch`). One such
property is to leave the cancel flag as it was (`calm_batch`).
-/

namespace TrajectorySafety

open TrajectorySafety.Random

/-- A property that holds of the basic computations, and of a sequence of computations if it holds
of its parts. -/
structure Sim.Closed {μ : Type} (P : ∀ {α : Type}, Sim μ α → Prop) : Prop where
  pure : ∀ {α : Type} (a : α), P (Pure.pure a : Sim μ α)
  throw : ∀ {α : Type} (err : Error), P (MonadExcept.throw err : Sim μ α)
  note : ∀ event, P (note event)
  draw : ∀ region, P (draw region)
  bind : ∀ {α β : Type} {x : Sim μ α} {f : α → Sim μ β}, P x → (∀ a, P (f a)) → P (x >>= f)

/-- A closed property that holds of all calls of a model. -/
structure StepModel.Has {μ : Type} (m : StepModel μ) (P : ∀ {α : Type}, Sim μ α → Prop) : Prop where
  closed : Sim.Closed P
  next : ∀ s, P (Sim.call (m.next s))
  nextBatch : ∀ ss, P (Sim.call (m.nextBatch ss))

theorem Sim.Closed.reserve {μ : Type} {P : ∀ {α : Type}, Sim μ α → Prop} (hP : Sim.Closed P)
    (count : Nat) : P (reserve count) := by
  unfold Sim.reserve
  split
  · exact hP.pure ()
  · exact hP.throw _

namespace Simulator

variable {μ : Type} {P : ∀ {α : Type}, Sim μ α → Prop}

theorem closed_accept (sim : Simulator μ) (hP : Sim.Closed P) (step : Step) (time : Nat) :
    P (sim.accept step time) := by
  unfold accept
  cases sim.guard.screen step time with
  | ok s => exact hP.pure _
  | error err => exact hP.bind (hP.note _) fun _ => hP.pure _

/-! ## One trajectory at a time -/

theorem closed_path (sim : Simulator μ) (hm : sim.model.Has P) (n time : Nat) (s : State) :
    P (sim.path n time s) := by
  have hP := hm.closed
  induction n generalizing time s with
  | zero => exact hP.pure _
  | succ n ih =>
    refine hP.bind (hm.next s) fun step => ?_
    refine hP.bind (sim.closed_accept hP step time) fun o => ?_
    cases o with
    | none => exact hP.pure _
    | some next => exact hP.bind (ih (time + 1) next) fun _ => hP.pure _

theorem closed_simulate (sim : Simulator μ) (hm : sim.model.Has P) (s : State) :
    P (sim.simulate s) := by
  have hP := hm.closed
  refine hP.bind (hP.reserve _) fun _ => ?_
  exact hP.bind (sim.closed_path hm _ 1 s) fun _ => hP.pure _

theorem closed_simulateAll (sim : Simulator μ) (hm : sim.model.Has P) (starts : List State) :
    P (sim.simulateAll starts) := by
  have hP := hm.closed
  induction starts with
  | nil => exact hP.pure _
  | cons s rest ih =>
    refine hP.bind (sim.closed_simulate hm s) fun t => ?_
    exact hP.bind ih fun _ => hP.pure _

/-! ## In lockstep -/

theorem closed_distribute (sim : Simulator μ) (hP : Sim.Closed P) (time : Nat)
    (tracks : List Track) (steps : List Step) : P (sim.distribute time tracks steps) := by
  induction tracks generalizing steps with
  | nil => exact hP.pure _
  | cons t rest ih =>
    cases steps with
    | nil =>
      rw [distribute]
      · exact hP.pure _
      · simp
    | cons step steps =>
      rw [distribute]
      by_cases ha : t.active = true
      · rw [if_pos ha]
        refine hP.bind (sim.closed_accept hP step time) fun o => ?_
        cases o with
        | none =>
          simp only [pure_bind]
          exact hP.bind (ih steps) fun _ => hP.pure _
        | some s =>
          simp only [pure_bind]
          exact hP.bind (ih steps) fun _ => hP.pure _
      · rw [if_neg ha]
        exact hP.bind (ih (step :: steps)) fun _ => hP.pure _

theorem closed_lockstep (sim : Simulator μ) (hm : sim.model.Has P) (n time : Nat)
    (tracks : List Track) : P (sim.lockstep n time tracks) := by
  have hP := hm.closed
  induction n generalizing time tracks with
  | zero => exact hP.pure _
  | succ n ih =>
    rw [lockstep]
    split
    · exact hP.pure _
    · refine hP.bind (hm.nextBatch _) fun steps => ?_
      split
      · exact hP.throw _
      · exact hP.bind (sim.closed_distribute hP time tracks steps) fun tracks' =>
          ih (time + 1) tracks'

theorem closed_simulateLockstep (sim : Simulator μ) (hm : sim.model.Has P)
    (starts : List State) : P (sim.simulateLockstep starts) :=
  hm.closed.bind (sim.closed_lockstep hm _ 1 _) fun _ => hm.closed.pure _

/-! ## A batch -/

theorem closed_drawAll (hP : Sim.Closed P) (region : Box) (count : Nat) :
    P (drawAll region count) := by
  induction count with
  | zero => exact hP.pure _
  | succ n ih =>
    refine hP.bind (hP.draw region) fun s => ?_
    exact hP.bind ih fun _ => hP.pure _

theorem closed_batch (sim : Simulator μ) (hm : sim.model.Has P) (region : Box) (count : Nat) :
    P (sim.batch region count) := by
  have hP := hm.closed
  refine hP.bind (hP.bind (hP.reserve count) fun _ => closed_drawAll hP region count)
    fun starts => ?_
  cases sim.model.batched with
  | true => exact hP.bind (sim.closed_simulateLockstep hm starts) fun _ => hP.pure _
  | false => exact hP.bind (sim.closed_simulateAll hm starts) fun _ => hP.pure _

end Simulator

/-! ## The cancel flag -/

/-- Where `x` ends in a value, it leaves the cancel flag as it was. -/
def Sim.Calm {μ α : Type} (x : Sim μ α) : Prop :=
  ∀ w a v, x w = .ok a v → v.cancelled = w.cancelled

/-- A model that never asks for the run to be cancelled. -/
structure StepModel.NeverCancels {μ : Type} (m : StepModel μ) : Prop where
  next : ∀ s g memory, (m.next s g memory).cancels = false
  nextBatch : ∀ ss g memory, (m.nextBatch ss g memory).cancels = false

theorem StepModel.cancels_oneByOne {μ : Type} {next : State → Generator → μ → Reply μ Step}
    (h : ∀ s g memory, (next s g memory).cancels = false) (ss : List State) (g : Generator)
    (memory : μ) : (oneByOne next ss g memory).cancels = false := by
  induction ss generalizing g memory with
  | nil => rfl
  | cons s rest ih =>
    cases ha : (next s g memory).answer with
    | error err => simp only [oneByOne, ha, h]
    | ok step => simp only [oneByOne, ha, h, ih, Bool.or_false]

namespace Sim

variable {μ α β : Type}

/-- The world that a computation leaves, whether it ends in a value or in an error. -/
def left (x : Sim μ α) (w : World μ) : World μ :=
  match x w with
  | .ok _ v => v
  | .error _ v => v

theorem left_of_ok {x : Sim μ α} {w v : World μ} {a : α} (h : x w = .ok a v) : x.left w = v := by
  simp only [left, h]

theorem left_of_error {x : Sim μ α} {w v : World μ} {err : Error} (h : x w = .error err v) :
    x.left w = v := by
  simp only [left, h]

/-- A computation that leaves the cancel flag as given where it found it so. -/
def KeepsFlag (flag : Bool) (x : Sim μ α) : Prop :=
  ∀ w, w.cancelled = flag → (x.left w).cancelled = flag

theorem keepsFlag_bind {flag : Bool} {x : Sim μ α} {f : α → Sim μ β} (hx : KeepsFlag flag x)
    (hf : ∀ a, KeepsFlag flag (f a)) : KeepsFlag flag (x >>= f) := by
  intro w hw
  have hleft := hx w hw
  cases hu : x w with
  | ok a u =>
    rw [left_of_ok hu] at hleft
    have hbind : (x >>= f).left w = (f a).left u := by simp only [left, bind_apply, hu]
    exact hbind ▸ hf a u hleft
  | error err u =>
    rw [left_of_error hu] at hleft
    have hbind : (x >>= f) w = .error err u := by simp only [bind_apply, hu]
    rwa [left_of_error hbind]

theorem cancelled_call (f : Generator → μ → Reply μ α) (w : World μ) :
    ((call f).left w).cancelled = (w.cancelled || (f w.generator w.memory).cancels) := by
  unfold left call
  cases ha : (f w.generator w.memory).answer with
  | ok a => simp only [ha]
  | error err => simp only [ha]

/-- No call takes the flag down, and one that does not ask to cancel leaves it down. -/
theorem keepsFlag_call {flag : Bool} {f : Generator → μ → Reply μ α}
    (h : flag = true ∨ ∀ g memory, (f g memory).cancels = false) : KeepsFlag flag (call f) := by
  intro w hw
  rw [cancelled_call, hw]
  obtain rfl | hcalm := h
  · rfl
  · rw [hcalm, Bool.or_false]

theorem closed_keepsFlag (flag : Bool) : Closed (μ := μ) (KeepsFlag flag) where
  pure _ := fun _ hw => hw
  throw _ := fun _ hw => hw
  note _ := fun _ hw => hw
  draw _ := fun _ hw => hw
  bind := keepsFlag_bind

end Sim

/-- A batch never takes the cancel flag down, and raises it only where its model asks for that. -/
theorem Simulator.keepsFlag_batch {μ : Type} (sim : Simulator μ) {flag : Bool}
    (h : flag = true ∨ sim.model.NeverCancels) (region : Box) (count : Nat) :
    (sim.batch region count).KeepsFlag flag :=
  sim.closed_batch ⟨Sim.closed_keepsFlag flag, fun s => Sim.keepsFlag_call (h.imp_right (·.next s)),
    fun ss => Sim.keepsFlag_call (h.imp_right (·.nextBatch ss))⟩ region count

/-- A batch of a model that never asks to cancel leaves the cancel flag as it was. -/
theorem Simulator.calm_batch {μ : Type} (sim : Simulator μ) (hm : sim.model.NeverCancels)
    (region : Box) (count : Nat) : (sim.batch region count).Calm := by
  intro w b v hb
  have hkept := sim.keepsFlag_batch (.inr hm) region count w rfl
  rwa [Sim.left_of_ok hb] at hkept

end TrajectorySafety
