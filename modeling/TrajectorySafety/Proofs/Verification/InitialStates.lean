import TrajectorySafety.Proofs.Random.Draws
import TrajectorySafety.Proofs.Simulation.Shape
import TrajectorySafety.Proofs.Verification.Configured

/-!
Where trajectories start.

The trajectories of a batch start with the states that were drawn from its region
(`head?_of_batch`), and so does the reference trajectory of a configuration
(`head?_of_referenceLog`). The guard does not inspect these states, so whether they lie in the
region is a matter of the draws alone: they do exactly if no interval of the region is so wide that
its width overflows.
-/

namespace TrajectorySafety

open TrajectorySafety.Random

/-- Every interval has a finite width. -/
def Box.HasWidths (b : Box) : Prop := ∀ i ∈ b.intervals, i.width.isFinite = true

/-! ## Batches -/

namespace Simulator

variable {μ : Type} {sim : Simulator μ}

/-- Every trajectory of a batch starts with a state that was drawn from the region. -/
theorem head?_of_batch {region : Box} {count : Nat} {w v : World μ} {b : Batch}
    (h : sim.batch region count w = .ok b v) {t : Trajectory} (ht : t ∈ b.trajectories) :
    ∃ g : Generator, t.states.head? = some (g.sampleBox region).1 := by
  obtain ⟨told, htold, htells, -⟩ := told_of_batch h
  rw [← htold] at ht
  obtain ⟨p, hp, rfl⟩ := List.mem_map.1 ht
  obtain ⟨k, hk, rfl⟩ := List.getElem_of_mem hp
  have htell := htells.get (htells.length_eq.symm ▸ hk) hk
  rw [List.get_eq_getElem, List.getElem_map] at htell
  exact ⟨_, htell.2.initial⟩

end Simulator

/-! ## References -/

/-- A reference trajectory is simulated from a state that was drawn from the region. -/
theorem head?_of_referenceFrom {μ : Type} {sim : Simulator μ} {recorder : LogRecorder}
    {region : Box} {w v : World μ} {made : Trajectory × UncertaintyLog}
    (h : referenceFrom sim recorder region w = .ok made v) :
    ∃ g : Generator, made.1.states.head? = some (g.sampleBox region).1 := by
  obtain ⟨initial, u, hdraw, h⟩ := Sim.bind_eq_ok_iff.1 h
  cases hdraw
  obtain ⟨t, u', hsimulate, h⟩ := Sim.bind_eq_ok_iff.1 h
  obtain ⟨asked, htells, -⟩ := Simulator.told_of_simulate hsimulate
  -- whatever is noted and recorded then, the trajectory is returned as it is
  suffices made.1 = t by
    rw [this]
    exact ⟨_, htells.2.initial⟩
  split at h
  on_goal 1 => obtain ⟨_, _, _, h⟩ := Sim.bind_eq_ok_iff.1 h
  all_goals
    obtain ⟨w', _, _, h⟩ := Sim.bind_eq_ok_iff.1 h
    obtain ⟨answer, g, hrecord⟩ : ∃ answer g, recorder.record t w'.generator = (answer, g) :=
      ⟨_, _, rfl⟩
    rw [hrecord] at h
    obtain ⟨_, _, _, h⟩ := Sim.bind_eq_ok_iff.1 h
    cases answer with
    | error fault => cases h
    | ok log =>
      obtain ⟨_, _, _, h⟩ := Sim.bind_eq_ok_iff.1 h
      cases h
      rfl

theorem ofBounds_of_initialIntervals {k : Nat} {bounds : List (Float × Float)}
    {is : List Interval} (h : Config.initialIntervals k bounds = .ok is) :
    (bounds.mapM fun (lo, hi) => Interval.make lo hi) = .ok is := by
  induction bounds generalizing k is with
  | nil => exact h
  | cons p rest ih =>
    obtain ⟨lo, hi⟩ := p
    rw [Config.initialIntervals] at h
    rw [List.mapM_cons, bind_eq_ok_iff]
    cases hmake : Interval.make lo hi with
    | error fault =>
      rw [hmake] at h
      cases h
    | ok i =>
      rw [hmake] at h
      obtain ⟨others, hothers, rfl⟩ := map_eq_ok_iff.1 h
      exact ⟨i, hmake, bind_eq_ok_iff.2 ⟨others, ih hothers, rfl⟩⟩

/-- The region of a configuration is the box of its bounds. -/
theorem ofBounds_of_initialRegion {c : Config} {region : Box} (h : c.initialRegion = .ok region) :
    Box.ofBounds c.log.initialSet = .ok region := by
  unfold Config.initialRegion at h
  split at h
  · cases h
  · obtain ⟨is, his, rfl⟩ := map_eq_ok_iff.1 h
    exact map_eq_ok_iff.2 ⟨is, ofBounds_of_initialIntervals his, rfl⟩

theorem head?_of_referenceLog {μ : Type} {c : Config} {model : StepModel μ} {memory : μ}
    {made : Trajectory × UncertaintyLog} {w : World μ}
    (h : referenceLog c model memory = .ok made w) :
    ∃ region, c.initialRegion = .ok region ∧
      ∃ g : Generator, made.1.states.head? = some (g.sampleBox region).1 := by
  unfold referenceLog at h
  simp only at h
  split at h
  · cases h
  · next sim recorder region hsetup =>
    obtain ⟨region', hregion, hsetup⟩ := bind_eq_ok_iff.1 hsetup
    obtain ⟨recorder', -, hsetup⟩ := bind_eq_ok_iff.1 hsetup
    obtain ⟨sim', -, hsetup⟩ := bind_eq_ok_iff.1 hsetup
    cases hsetup
    exact ⟨region, hregion, head?_of_referenceFrom h⟩

/-! ## Starting inside -/

/-- A state that is drawn from an accepted box has its dimension, and lies in it exactly if every
interval of the box has a finite width. So do the initial states of every batch drawn from the box,
and the initial state of the reference trajectory of every configuration with these bounds. -/
theorem drawn_inside_iff {bounds : List (Float × Float)} {region : Box}
    (hbounds : Box.ofBounds bounds = .ok region) :
    (∀ g : Generator, (g.sampleBox region).1.dimension = region.dimension ∧
      (region.contains (g.sampleBox region).1 = true ↔ region.HasWidths)) ∧
    (∀ (μ : Type) (sim : Simulator μ) count w b v, sim.batch region count w = .ok b v →
      ∀ t ∈ b.trajectories, ∃ s, t.states.head? = some s ∧
        (region.contains s = true ↔ region.HasWidths)) ∧
    ∀ (μ : Type) (c : Config) (model : StepModel μ) memory made w, c.log.initialSet = bounds →
      referenceLog c model memory = .ok made w → c.initialRegion = .ok region ∧
        ∃ s, made.1.states.head? = some s ∧ (region.contains s = true ↔ region.HasWidths) := by
  have hvalid := Box.valid_of_ofBounds hbounds
  refine ⟨?_, ?_, ?_⟩
  · intro g
    exact ⟨Simulator.dimension_sampleBox g region, g.contains_sampleBox_iff hvalid⟩
  · intro μ sim count w b v hbatch t ht
    obtain ⟨g, hhead⟩ := Simulator.head?_of_batch hbatch ht
    exact ⟨_, hhead, g.contains_sampleBox_iff hvalid⟩
  · intro μ c model memory made w hset hreference
    obtain ⟨region', hregion, g, hhead⟩ := head?_of_referenceLog hreference
    have hsame := ofBounds_of_initialRegion hregion
    rw [hset, hbounds] at hsame
    cases hsame
    exact ⟨hregion, _, hhead, g.contains_sampleBox_iff hvalid⟩

/-- Between 0.85 and 0.95 in both coordinates. -/
def square : Box := ⟨[⟨0.85, 0.95⟩, ⟨0.85, 0.95⟩]⟩

/-- A short reference that starts in the square. -/
def squareConfig : Config :=
  { log := { initialSet := [(0.85, 0.95), (0.85, 0.95)] }, sampling := { horizon := 3 } }

/-- A batch and a reference that start in the square. -/
theorem drawn_inside_square :
    (∃ b v, Simulator.doubling.batch square 3 ⟨.ofSeed 42, (), false, #[]⟩ = .ok b v ∧
      ∃ t ∈ b.trajectories, ∃ s, t.states.head? = some s ∧ square.contains s = true) ∧
    ∃ made w s, referenceLog squareConfig (.identity 2) () = .ok made w ∧
      made.1.states.head? = some s ∧ square.contains s = true := by
  have hbounds : Box.ofBounds [(0.85, 0.95), (0.85, 0.95)] = .ok square := rfl
  have hwidths : square.HasWidths := by
    unfold Box.HasWidths
    decide
  obtain ⟨-, hbatches, hreferences⟩ := drawn_inside_iff hbounds
  constructor
  · obtain ⟨b, v, hb, hlength⟩ : ∃ b v,
        Simulator.doubling.batch square 3 ⟨.ofSeed 42, (), false, #[]⟩ = .ok b v ∧
          (b.trajectories.length == 3) = true := Sim.exists_ok_of_any (by decide +kernel)
    rw [beq_iff_eq] at hlength
    have ht : b.trajectories[0] ∈ b.trajectories := List.getElem_mem _
    obtain ⟨s, hs, hiff⟩ := hbatches Unit _ _ _ b v hb _ ht
    exact ⟨b, v, hb, _, ht, s, hs, hiff.2 hwidths⟩
  · let reference : Sim Unit (Trajectory × UncertaintyLog) := fun _ =>
      referenceLog squareConfig (.identity 2) ()
    obtain ⟨made, w, hmade, -⟩ : ∃ made w, reference ⟨.ofSeed 42, (), false, #[]⟩ = .ok made w ∧
        (made.1.length == 3) = true := Sim.exists_ok_of_any (by decide +kernel)
    obtain ⟨-, s, hs, hiff⟩ := hreferences Unit squareConfig _ _ made w rfl hmade
    exact ⟨made, w, s, hmade, hs, hiff.2 hwidths⟩

/-- An accepted box with a width that overflows. -/
def overflowing : Box := ⟨[⟨-1e308, 1e308⟩]⟩

/-- Infinity is drawn from it. -/
theorem drawn_outside :
    Box.ofBounds [(-1e308, 1e308)] = .ok overflowing ∧
      ((Generator.ofSeed 1).sampleBox overflowing).1.coordinates = [Number.infinity] ∧
      overflowing.contains ((Generator.ofSeed 1).sampleBox overflowing).1 = false := by
  have hmake : Interval.make (-1e308) 1e308 = .ok ⟨-1e308, 1e308⟩ :=
    (Interval.make_eq_ok_iff _ _ _).2 ⟨rfl, by decide +kernel⟩
  refine ⟨?_, by decide +kernel, by decide +kernel⟩
  simp only [Box.ofBounds, List.mapM_cons, List.mapM_nil, hmake]
  rfl

end TrajectorySafety
