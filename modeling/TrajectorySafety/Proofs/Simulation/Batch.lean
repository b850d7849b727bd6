import TrajectorySafety.Simulation

/-!
What a batch of trajectories looks like, and when drawing one cannot fail.

`Sim.Ends x fails Q` says that `x`, started in any world, ends in a value with `Q`, or in an error
if `fails` allows errors. With `fails` true it is a statement about the values only; with `fails`
false it says that `x` always ends in a value. `StepModel.Keeps` is the same for the answers of a
model, and one argument for each function of the simulator serves both readings.

Main statement: a batch that there is room for (`Simulator.HasRoom`) has as many trajectories as
were asked for, each with at least one and at most as many states as the horizon, all of them with
the property that the model keeps, and every state after the first let through by the guard
(`ends_batch`). A batch of more initial states than a list has room for ends with the first thing it
does (`batch_of_lt`).
-/

namespace TrajectorySafety

open TrajectorySafety.Random

/-! ## Computations and how they end -/

/-- A reply with an answer that has `Q`, or with a failure where failures are allowed. -/
def Reply.Meets {μ α : Type} (r : Reply μ α) (fails : Prop) (Q : α → Prop) : Prop :=
  match r.answer with
  | .ok a => Q a
  | .error _ => fails

theorem Reply.meets_iff {μ α : Type} {r : Reply μ α} {fails : Prop} {Q : α → Prop} :
    r.Meets fails Q ↔ (∀ a, r.answer = .ok a → Q a) ∧ ∀ err, r.answer = .error err → fails := by
  unfold Meets
  cases r.answer with
  | ok a => simp
  | error err => simp

namespace Sim

variable {μ α β : Type} {fails : Prop}

/-- In every world `x` ends in a value with `Q`, or in an error where errors are allowed. -/
def Ends (x : Sim μ α) (fails : Prop) (Q : α → Prop) : Prop :=
  ∀ w, match x w with
    | .ok a _ => Q a
    | .error _ _ => fails

theorem ends_pure {Q : α → Prop} {a : α} (h : Q a) : Ends (pure a : Sim μ α) fails Q :=
  fun _ => h

theorem ends_bind {x : Sim μ α} {f : α → Sim μ β} {P : α → Prop} {Q : β → Prop}
    (hx : Ends x fails P) (hf : ∀ a, P a → Ends (f a) fails Q) : Ends (x >>= f) fails Q := by
  intro w
  have h := hx w
  rw [bind_apply]
  cases hxw : x w with
  | ok a w' =>
    rw [hxw] at h
    exact hf a h w'
  | error e w' =>
    rw [hxw] at h
    exact h

theorem ends_mono {x : Sim μ α} {P Q : α → Prop} (hx : Ends x fails P) (h : ∀ a, P a → Q a) :
    Ends x fails Q := by
  intro w
  have hw := hx w
  cases hxw : x w with
  | ok a w' =>
    rw [hxw] at hw
    exact h a hw
  | error e w' =>
    rw [hxw] at hw
    exact hw

theorem ends_note (e : Event) : Ends (note e : Sim μ Unit) fails fun _ => True :=
  fun _ => trivial

theorem ends_draw (b : Box) :
    Ends (draw b : Sim μ State) fails fun s => ∃ g : Generator, s = (g.sampleBox b).1 :=
  fun w => ⟨w.generator, rfl⟩

theorem ends_call {f : Generator → μ → Reply μ α} {Q : α → Prop}
    (h : ∀ g m, (f g m).Meets fails Q) : Ends (call f) fails Q := by
  intro w
  have hw := h w.generator w.memory
  unfold Reply.Meets at hw
  unfold call
  cases ha : (f w.generator w.memory).answer with
  | ok a =>
    rw [ha] at hw
    simpa [ha] using hw
  | error e =>
    rw [ha] at hw
    simpa [ha] using hw

theorem ends_throw {e : Error} {Q : α → Prop} (h : fails) : Ends (throw e : Sim μ α) fails Q :=
  fun _ => h

theorem ends_reserve {count : Nat} (h : count ≤ stateLimit ∨ fails) :
    Ends (reserve count : Sim μ Unit) fails fun _ => True := by
  by_cases hroom : count ≤ stateLimit
  · rw [reserve_of_le hroom]
    exact ends_pure trivial
  · rw [reserve_of_lt (Nat.not_le.1 hroom)]
    exact ends_throw (h.resolve_left hroom)

end Sim

/-- A model that answers states with the property `P` by states with `P`, and gives a batch as many
answers as it has states; it fails, or miscounts, only where failures are allowed. -/
structure StepModel.Keeps {μ : Type} (m : StepModel μ) (fails : Prop) (P : State → Prop) :
    Prop where
  next : ∀ s g memory, P s →
    (m.next s g memory).Meets fails fun step => ∀ s', step = .next s' → P s'
  nextBatch : ∀ ss g memory, (∀ s ∈ ss, P s) →
    (m.nextBatch ss g memory).Meets fails fun steps =>
      (steps.length = ss.length ∨ fails) ∧ ∀ s', Step.next s' ∈ steps → P s'

theorem StepModel.keeps_trivial {μ : Type} (m : StepModel μ) : m.Keeps True fun _ => True := by
  constructor
  · intro s g memory _
    exact Reply.meets_iff.2 ⟨fun _ _ _ _ => trivial, fun _ _ => trivial⟩
  · intro ss g memory _
    exact Reply.meets_iff.2 ⟨fun _ _ => ⟨.inr trivial, fun _ _ => trivial⟩, fun _ _ => trivial⟩

namespace Simulator

variable {μ : Type} {fails : Prop} {P : State → Prop}

/-! ## One trajectory at a time -/

/-- States of a trajectory in the making: a first one, and later ones that the guard let through,
all with the property `P`. -/
structure Grown (sim : Simulator μ) (P : State → Prop) (states : List State) : Prop where
  nonempty : states ≠ []
  keeps : ∀ s ∈ states, P s
  guarded : ∀ s ∈ states.tail, sim.guard.inspect s = none

theorem grown_singleton (sim : Simulator μ) {s : State} (hs : P s) : sim.Grown P [s] :=
  ⟨by simp, by simpa using hs, by simp⟩

theorem grown_cons {sim : Simulator μ} {s next : State} {rest : List State} (hs : P s)
    (hn : sim.guard.inspect next = none) (hr : sim.Grown P (next :: rest)) :
    sim.Grown P (s :: next :: rest) := by
  refine ⟨by simp, ?_, ?_⟩
  · intro x hx
    rcases List.mem_cons.1 hx with rfl | hx
    · exact hs
    · exact hr.keeps x hx
  · intro x hx
    rcases List.mem_cons.1 hx with rfl | hx
    · exact hn
    · exact hr.guarded x hx

theorem grown_concat {sim : Simulator μ} {states : List State} {next : State}
    (hs : sim.Grown P states) (hp : P next) (hn : sim.guard.inspect next = none) :
    sim.Grown P (states ++ [next]) := by
  refine ⟨by simp, ?_, ?_⟩
  · intro x hx
    rcases List.mem_append.1 hx with hx | hx
    · exact hs.keeps x hx
    · rw [List.mem_singleton.1 hx]
      exact hp
  · intro x hx
    rw [List.tail_append_of_ne_nil hs.nonempty] at hx
    rcases List.mem_append.1 hx with hx | hx
    · exact hs.guarded x hx
    · rw [List.mem_singleton.1 hx]
      exact hn

/-- What is accepted is the successor that the step names, and the guard lets it through. -/
theorem ends_accept (sim : Simulator μ) (step : Step) (time : Nat) :
    Sim.Ends (sim.accept step time) fails fun o =>
      ∀ s, o = some s → step = .next s ∧ sim.guard.inspect s = none := by
  unfold accept Guard.screen
  cases step with
  | diverged =>
    exact Sim.ends_bind (Sim.ends_note _) fun _ _ => Sim.ends_pure (by simp)
  | next s =>
    simp only [Guard.accept]
    cases hi : sim.guard.inspect s with
    | some d => exact Sim.ends_bind (Sim.ends_note _) fun _ _ => Sim.ends_pure (by simp)
    | none => exact Sim.ends_pure (by simp [hi])

theorem ends_path (sim : Simulator μ) (hm : sim.model.Keeps fails P) (n time : Nat) (s : State)
    (hs : P s) :
    Sim.Ends (sim.path n time s) fails fun states =>
      sim.Grown P states ∧ states.head? = some s ∧ states.length ≤ n + 1 := by
  induction n generalizing time s with
  | zero => exact Sim.ends_pure ⟨sim.grown_singleton hs, rfl, by simp⟩
  | succ n ih =>
    refine Sim.ends_bind (Sim.ends_call fun g m => hm.next s g m hs) fun step hstep => ?_
    refine Sim.ends_bind (sim.ends_accept step time) fun o ho => ?_
    cases o with
    | none => exact Sim.ends_pure ⟨sim.grown_singleton hs, rfl, by simp⟩
    | some next =>
      obtain ⟨hnext, hguard⟩ := ho next rfl
      refine Sim.ends_bind (ih (time + 1) next (hstep next hnext)) fun rest hrest => ?_
      obtain ⟨hgrown, hhead, hlen⟩ := hrest
      cases rest with
      | nil => simp at hhead
      | cons first rest =>
        obtain rfl : first = next := by simpa using hhead
        exact Sim.ends_pure ⟨grown_cons hs hguard hgrown, rfl, by simpa using hlen⟩

/-- A trajectory as the simulator makes it. -/
structure Produced (sim : Simulator μ) (P : State → Prop) (t : Trajectory) : Prop where
  grown : sim.Grown P t.states
  horizon : t.horizon = sim.horizon
  length_le : t.length ≤ sim.horizon

theorem ends_simulate (sim : Simulator μ) (hm : sim.model.Keeps fails P)
    (hroom : sim.horizon ≤ stateLimit ∨ fails) (s : State) (hs : P s) :
    Sim.Ends (sim.simulate s) fails (sim.Produced P) := by
  refine Sim.ends_bind (Sim.ends_reserve hroom) fun _ _ => ?_
  refine Sim.ends_bind (sim.ends_path hm _ 1 s hs) fun states h => ?_
  obtain ⟨hgrown, -, hlen⟩ := h
  have hpos := sim.horizon_pos
  refine Sim.ends_pure ⟨hgrown, rfl, ?_⟩
  simp only [Trajectory.length]
  omega

theorem ends_simulateAll (sim : Simulator μ) (hm : sim.model.Keeps fails P)
    (hroom : sim.horizon ≤ stateLimit ∨ fails) (starts : List State) (hs : ∀ s ∈ starts, P s) :
    Sim.Ends (sim.simulateAll starts) fails fun ts =>
      ts.length = starts.length ∧ ∀ t ∈ ts, sim.Produced P t := by
  induction starts with
  | nil => exact Sim.ends_pure ⟨rfl, by simp⟩
  | cons s rest ih =>
    rw [List.forall_mem_cons] at hs
    refine Sim.ends_bind (sim.ends_simulate hm hroom s hs.1) fun t ht => ?_
    refine Sim.ends_bind (ih hs.2) fun ts hts => ?_
    refine Sim.ends_pure ⟨by simp [hts.1], ?_⟩
    rw [List.forall_mem_cons]
    exact ⟨ht, hts.2⟩

/-! ## In lockstep -/

/-- The tracks of a round at `time`, each grown to at most `time` states. -/
def OnTrack (sim : Simulator μ) (P : State → Prop) (time : Nat) (tracks : List Track) : Prop :=
  ∀ t ∈ tracks, sim.Grown P t.states ∧ t.states.length ≤ time

theorem onTrack_cons {sim : Simulator μ} {time : Nat} {t : Track} {tracks : List Track} :
    sim.OnTrack P time (t :: tracks) ↔
      (sim.Grown P t.states ∧ t.states.length ≤ time) ∧ sim.OnTrack P time tracks := by
  simp [OnTrack]

theorem onTrack_mono {sim : Simulator μ} {time later : Nat} {tracks : List Track}
    (h : sim.OnTrack P time tracks) (hle : time ≤ later) : sim.OnTrack P later tracks :=
  fun t ht => ⟨(h t ht).1, Nat.le_trans (h t ht).2 hle⟩

theorem states_advance (s : State) (t : Track) :
    Track.states ⟨s, t.latest :: t.earlier, true⟩ = t.states ++ [s] := by
  simp [Track.states]

theorem mem_frontier {s : State} {tracks : List Track} (h : s ∈ frontier tracks) :
    ∃ t ∈ tracks, s ∈ t.states := by
  obtain ⟨t, ht, rfl⟩ := List.mem_map.1 h
  exact ⟨t, (List.mem_filter.1 ht).1, by simp [Track.states]⟩

theorem ends_distribute (sim : Simulator μ) (time : Nat) (tracks : List Track) (steps : List Step)
    (ht : sim.OnTrack P time tracks) (hs : ∀ s, Step.next s ∈ steps → P s) :
    Sim.Ends (sim.distribute time tracks steps) fails fun tracks' =>
      tracks'.length = tracks.length ∧ sim.OnTrack P (time + 1) tracks' := by
  induction tracks generalizing steps with
  | nil => exact Sim.ends_pure ⟨rfl, by simp [OnTrack]⟩
  | cons t rest ih =>
    rw [onTrack_cons] at ht
    cases steps with
    | nil =>
      rw [distribute]
      · exact Sim.ends_pure ⟨rfl, onTrack_cons.2 ⟨⟨ht.1.1, by omega⟩, onTrack_mono ht.2 (by omega)⟩⟩
      · simp
    | cons step steps =>
      rw [distribute]
      -- an idle track takes no answer, an active one takes the first
      cases ha : t.active with
      | false =>
        simp only [Bool.false_eq_true, if_false]
        refine Sim.ends_bind (ih (step :: steps) ht.2 hs) fun ts hts => ?_
        exact Sim.ends_pure ⟨by simp [hts.1], onTrack_cons.2 ⟨⟨ht.1.1, by omega⟩, hts.2⟩⟩
      | true =>
        simp only [if_true]
        refine Sim.ends_bind (sim.ends_accept step time) fun o ho => ?_
        have hrest := ih steps ht.2 fun s h => hs s (List.mem_cons_of_mem _ h)
        cases o with
        | none =>
          simp only [pure_bind]
          refine Sim.ends_bind hrest fun ts hts => ?_
          have hlen : t.states.length ≤ time + 1 := by omega
          exact Sim.ends_pure ⟨by simp [hts.1], onTrack_cons.2 ⟨⟨ht.1.1, hlen⟩, hts.2⟩⟩
        | some s =>
          obtain ⟨rfl, hguard⟩ := ho s rfl
          have hgrown := grown_concat ht.1.1 (hs s (by simp)) hguard
          rw [← states_advance] at hgrown
          simp only [pure_bind]
          refine Sim.ends_bind hrest fun ts hts => ?_
          refine Sim.ends_pure ⟨by simp [hts.1], onTrack_cons.2 ⟨⟨hgrown, ?_⟩, hts.2⟩⟩
          rw [states_advance, List.length_append, List.length_singleton]
          omega

theorem ends_lockstep (sim : Simulator μ) (hm : sim.model.Keeps fails P) (n time : Nat)
    (tracks : List Track) (ht : sim.OnTrack P time tracks) :
    Sim.Ends (sim.lockstep n time tracks) fails fun tracks' =>
      tracks'.length = tracks.length ∧ sim.OnTrack P (time + n) tracks' := by
  induction n generalizing time tracks with
  | zero => exact Sim.ends_pure ⟨rfl, ht⟩
  | succ n ih =>
    rw [lockstep]
    split
    · exact Sim.ends_pure ⟨rfl, onTrack_mono ht (by omega)⟩
    · have hfront : ∀ s ∈ frontier tracks, P s := by
        intro s hs
        obtain ⟨t, htm, hst⟩ := mem_frontier hs
        exact (ht t htm).1.keeps s hst
      refine Sim.ends_bind (Sim.ends_call fun g m => hm.nextBatch _ g m hfront)
        fun steps hsteps => ?_
      split
      · next hlen => exact Sim.ends_throw (hsteps.1.resolve_left hlen)
      · refine Sim.ends_bind (sim.ends_distribute time tracks steps ht hsteps.2)
          fun tracks' ht' => ?_
        refine Sim.ends_mono (ih (time + 1) tracks' ht'.2) fun final hfinal => ?_
        rw [show time + (n + 1) = time + 1 + n by omega]
        exact ⟨hfinal.1.trans ht'.1, hfinal.2⟩

theorem ends_simulateLockstep (sim : Simulator μ) (hm : sim.model.Keeps fails P)
    (starts : List State) (hs : ∀ s ∈ starts, P s) :
    Sim.Ends (sim.simulateLockstep starts) fails fun ts =>
      ts.length = starts.length ∧ ∀ t ∈ ts, sim.Produced P t := by
  have hstart : sim.OnTrack P 1 (starts.map fun s => ⟨s, [], true⟩) := by
    intro t ht
    obtain ⟨s, hsm, rfl⟩ := List.mem_map.1 ht
    exact ⟨sim.grown_singleton (hs s hsm), by simp [Track.states]⟩
  refine Sim.ends_bind (sim.ends_lockstep hm _ 1 _ hstart) fun tracks ht => ?_
  refine Sim.ends_pure ⟨by simpa using ht.1, ?_⟩
  intro t htm
  obtain ⟨track, htrack, rfl⟩ := List.mem_map.1 htm
  have hpos := sim.horizon_pos
  have hlen := (ht.2 track htrack).2
  refine ⟨(ht.2 track htrack).1, rfl, ?_⟩
  simp only [Trajectory.length]
  omega

/-! ## A batch -/

theorem dimension_sampleBox (g : Generator) (b : Box) :
    (g.sampleBox b).1.dimension = b.dimension := by
  have key : ∀ (is : List Interval) (g : Generator),
      (Generator.sampleIntervals is g).1.length = is.length := by
    intro is
    induction is with
    | nil => intro g; rfl
    | cons i is ih => intro g; simp [Generator.sampleIntervals, ih]
  exact key b.intervals g

theorem ends_drawAll (region : Box) (count : Nat)
    (hP : ∀ g : Generator, P (g.sampleBox region).1) :
    Sim.Ends (drawAll region count : Sim μ (List State)) fails fun starts =>
      starts.length = count ∧ ∀ s ∈ starts, P s := by
  induction count with
  | zero => exact Sim.ends_pure ⟨rfl, by simp⟩
  | succ n ih =>
    refine Sim.ends_bind (Sim.ends_draw region) fun s hs => ?_
    refine Sim.ends_bind ih fun rest hrest => ?_
    refine Sim.ends_pure ⟨by simp [hrest.1], ?_⟩
    rw [List.forall_mem_cons]
    obtain ⟨g, rfl⟩ := hs
    exact ⟨hP g, hrest.2⟩

/-- There is room for a number of initial states and, where trajectories are simulated one by one,
for the states of each of them. -/
structure HasRoom (sim : Simulator μ) (count : Nat) : Prop where
  initials : count ≤ stateLimit
  states : sim.model.batched = true ∨ sim.horizon ≤ stateLimit

/-- Every trajectory of a batch is as the simulator makes them, and there are as many as were asked
for. -/
theorem ends_batch (sim : Simulator μ) (hm : sim.model.Keeps fails P) (region : Box) (count : Nat)
    (hroom : sim.HasRoom count ∨ fails) (hP : ∀ g : Generator, P (g.sampleBox region).1) :
    Sim.Ends (sim.batch region count) fails fun b =>
      b.trajectories.length = count ∧ ∀ t ∈ b.trajectories, sim.Produced P t := by
  have hinitials : Sim.Ends (initials region count : Sim μ (List State)) fails fun starts =>
      starts.length = count ∧ ∀ s ∈ starts, P s :=
    Sim.ends_bind (Sim.ends_reserve (hroom.imp_left HasRoom.initials)) fun _ _ =>
      ends_drawAll region count hP
  refine Sim.ends_bind hinitials fun starts hs => ?_
  have hpack : ∀ ts : List Trajectory,
      (ts.length = starts.length ∧ ∀ t ∈ ts, sim.Produced P t) →
      Sim.Ends (pure ⟨ts⟩ : Sim μ Batch) fails fun b =>
        b.trajectories.length = count ∧ ∀ t ∈ b.trajectories, sim.Produced P t :=
    fun ts hts => Sim.ends_pure ⟨hts.1.trans hs.1, hts.2⟩
  cases hbatched : sim.model.batched with
  | true => exact Sim.ends_bind (sim.ends_simulateLockstep hm starts hs.2) hpack
  | false =>
    have hstates : sim.horizon ≤ stateLimit ∨ fails :=
      hroom.imp_left fun h => h.states.resolve_left (by simp [hbatched])
    exact Sim.ends_bind (sim.ends_simulateAll hm hstates starts hs.2) hpack

end Simulator

end TrajectorySafety
