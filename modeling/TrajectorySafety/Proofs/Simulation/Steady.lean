import TrajectorySafety.Proofs.Simulation.Closure

/-!
Models whose steps depend on the state and the generator only.

Such a model may keep a memory, and may ask for the run to be cancelled, but its memory does not
show in its answers (`StepModel.Steady`). What a computation shows is its value or error and the
generator that it leaves. For a steady model this depends on the generator at the start alone: the
rest of the world can be exchanged (`Sim.Replays`, `replays_batch`).
-/

namespace TrajectorySafety

open TrajectorySafety.Random

/-- A model that answers a state in the same way, with the same draws, whatever its memory. -/
structure StepModel.Steady {μ : Type} (m : StepModel μ) : Prop where
  next : ∀ s g memory memory',
    (m.next s g memory).answer = (m.next s g memory').answer ∧
      (m.next s g memory).generator = (m.next s g memory').generator
  nextBatch : ∀ ss g memory memory',
    (m.nextBatch ss g memory).answer = (m.nextBatch ss g memory').answer ∧
      (m.nextBatch ss g memory).generator = (m.nextBatch ss g memory').generator

/-- A model without a memory is steady, whatever it draws. -/
theorem StepModel.steady_of_subsingleton {μ : Type} [Subsingleton μ] (m : StepModel μ) :
    m.Steady := by
  constructor
  · intro s g memory memory'
    rw [Subsingleton.elim memory memory']
    exact ⟨rfl, rfl⟩
  · intro ss g memory memory'
    rw [Subsingleton.elim memory memory']
    exact ⟨rfl, rfl⟩

/-- A model that steps every state by itself is steady if its steps are. -/
theorem StepModel.steady_ofNext {μ : Type} (name : String) (dimension : Option Nat)
    {next : State → Generator → μ → Reply μ Step}
    (h : ∀ s g memory memory', (next s g memory).answer = (next s g memory').answer ∧
      (next s g memory).generator = (next s g memory').generator) :
    (ofNext name dimension next).Steady := by
  refine ⟨h, fun ss => ?_⟩
  show ∀ g memory memory', (oneByOne next ss g memory).answer =
      (oneByOne next ss g memory').answer ∧
    (oneByOne next ss g memory).generator = (oneByOne next ss g memory').generator
  induction ss with
  | nil =>
    intro g memory memory'
    exact ⟨rfl, rfl⟩
  | cons s rest ih =>
    intro g memory memory'
    obtain ⟨ha, hg⟩ := h s g memory memory'
    simp only [oneByOne, ha]
    cases (next s g memory').answer with
    | error err => exact ⟨rfl, hg⟩
    | ok step =>
      obtain ⟨hothers, hgen⟩ := ih (next s g memory').generator (next s g memory).memory
        (next s g memory').memory
      simp only [hg, hothers, hgen, and_self]

namespace Sim

variable {μ α β : Type}

/-- What a computation shows: its value or error, and the generator that it leaves. -/
def shown (x : Sim μ α) (w : World μ) : Except Error α × Generator :=
  match x w with
  | .ok a v => (.ok a, v.generator)
  | .error err v => (.error err, v.generator)

/-- What a computation shows depends on the generator at its start alone. -/
def Replays (x : Sim μ α) : Prop :=
  ∀ w w' : World μ, w.generator = w'.generator → x.shown w = x.shown w'

theorem shown_of_ok {x : Sim μ α} {w v : World μ} {a : α} (h : x w = .ok a v) :
    x.shown w = (.ok a, v.generator) := by
  simp only [shown, h]

theorem shown_of_error {x : Sim μ α} {w v : World μ} {err : Error} (h : x w = .error err v) :
    x.shown w = (.error err, v.generator) := by
  simp only [shown, h]

/-- A value that a computation is seen to end in. -/
theorem exists_ok_of_any {x : Sim μ α} {w : World μ} {p : α → Bool}
    (h : (x.shown w).1.toOption.any p = true) : ∃ a v, x w = .ok a v ∧ p a = true := by
  cases hx : x w with
  | ok a v =>
    rw [shown_of_ok hx] at h
    exact ⟨a, v, rfl, h⟩
  | error err v =>
    rw [shown_of_error hx] at h
    cases h

theorem shown_bind (x : Sim μ α) (f : α → Sim μ β) (w : World μ) :
    (x >>= f).shown w = match x w with
      | .ok a v => (f a).shown v
      | .error err v => (.error err, v.generator) := by
  simp only [shown, bind_apply]
  cases x w with
  | ok a v => rfl
  | error err v => rfl

theorem replays_pure (a : α) : Replays (pure a : Sim μ α) := by
  intro w w' hg
  simp only [shown, pure_apply, hg]

theorem replays_throw (err : Error) : Replays (throw err : Sim μ α) := by
  intro w w' hg
  have hshown : ∀ v : World μ, (throw err : Sim μ α).shown v = (.error err, v.generator) :=
    fun _ => rfl
  rw [hshown, hshown, hg]

theorem replays_note (event : Event) : Replays (note event : Sim μ Unit) := by
  intro w w' hg
  simp only [shown, note_apply, hg]

theorem replays_draw (b : Box) : Replays (draw b : Sim μ State) := by
  intro w w' hg
  simp only [shown, draw, hg]

theorem replays_bind {x : Sim μ α} {f : α → Sim μ β} (hx : Replays x) (hf : ∀ a, Replays (f a)) :
    Replays (x >>= f) := by
  intro w w' hg
  have hshown := hx w w' hg
  rw [shown_bind, shown_bind]
  cases hw : x w with
  | ok a v =>
    cases hw' : x w' with
    | ok a' v' =>
      rw [shown_of_ok hw, shown_of_ok hw'] at hshown
      obtain ⟨ha, hv⟩ := Prod.mk.inj hshown
      obtain rfl := Except.ok.inj ha
      exact hf a v v' hv
    | error err v' =>
      rw [shown_of_ok hw, shown_of_error hw'] at hshown
      cases (Prod.mk.inj hshown).1
  | error err v =>
    cases hw' : x w' with
    | ok a' v' =>
      rw [shown_of_error hw, shown_of_ok hw'] at hshown
      cases (Prod.mk.inj hshown).1
    | error err' v' =>
      rw [shown_of_error hw, shown_of_error hw'] at hshown
      obtain ⟨herr, hv⟩ := Prod.mk.inj hshown
      obtain rfl := Except.error.inj herr
      simp only [hv]

theorem shown_call (f : Generator → μ → Reply μ α) (w : World μ) :
    (call f).shown w =
      ((f w.generator w.memory).answer, (f w.generator w.memory).generator) := by
  unfold shown call
  cases ha : (f w.generator w.memory).answer with
  | ok a => simp only [ha]
  | error err => simp only [ha]

theorem replays_call {f : Generator → μ → Reply μ α}
    (h : ∀ g memory memory', (f g memory).answer = (f g memory').answer ∧
      (f g memory).generator = (f g memory').generator) : Replays (call f) := by
  intro w w' hg
  obtain ⟨ha, hgen⟩ := h w'.generator w.memory w'.memory
  rw [shown_call, shown_call, hg, ha, hgen]

end Sim

theorem StepModel.Steady.has_replays {μ : Type} {m : StepModel μ} (hm : m.Steady) :
    m.Has Sim.Replays where
  closed := ⟨Sim.replays_pure, Sim.replays_throw, Sim.replays_note, Sim.replays_draw,
    Sim.replays_bind⟩
  next s := Sim.replays_call (hm.next s)
  nextBatch ss := Sim.replays_call (hm.nextBatch ss)

/-- A batch of a steady model is determined by the generator that it is drawn with. -/
theorem Simulator.replays_batch {μ : Type} (sim : Simulator μ) (hm : sim.model.Steady)
    (region : Box) (count : Nat) : (sim.batch region count).Replays :=
  sim.closed_batch hm.has_replays region count

end TrajectorySafety
