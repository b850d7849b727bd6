import TrajectorySafety.Config
import TrajectorySafety.Proofs.Simulation.Batch

/-!
The models that a configuration can choose step many states by one call. They never fail on states
of their own dimension, and answer them by states of that dimension (`ModelChoice.keeps_of_build`).
-/

namespace TrajectorySafety

open TrajectorySafety.Random

namespace StepModel

variable {μ : Type} {fails : Prop} {P : State → Prop}

/-- What a step keeps, stepping several states one after the other keeps. -/
theorem keeps_oneByOne {next : State → Generator → μ → Reply μ Step}
    (h : ∀ s g memory, P s → (next s g memory).Meets fails fun step => ∀ s', step = .next s' → P s')
    (ss : List State) (g : Generator) (memory : μ) (hs : ∀ s ∈ ss, P s) :
    (oneByOne next ss g memory).Meets fails fun steps =>
      (steps.length = ss.length ∨ fails) ∧ ∀ s', Step.next s' ∈ steps → P s' := by
  induction ss generalizing g memory with
  | nil => exact ⟨.inl rfl, by simp⟩
  | cons s rest ih =>
    rw [List.forall_mem_cons] at hs
    have hfirst := h s g memory hs.1
    have hrest := ih (next s g memory).generator (next s g memory).memory hs.2
    unfold Reply.Meets at hfirst hrest ⊢
    rw [oneByOne]
    cases ha : (next s g memory).answer with
    | error err =>
      rw [ha] at hfirst
      exact hfirst
    | ok step =>
      rw [ha] at hfirst
      simp only
      cases hr : (oneByOne next rest (next s g memory).generator (next s g memory).memory).answer
        with
      | error err =>
        rw [hr] at hrest
        exact hrest
      | ok steps =>
        rw [hr] at hrest
        refine ⟨hrest.1.imp_left fun hl => by simp [hl], ?_⟩
        intro s' hm
        rcases List.mem_cons.1 hm with heq | hm
        · exact hfirst s' heq.symm
        · exact hrest.2 s' hm

end StepModel

namespace Affine

theorem rows_length {x : List Float} {ps : List (List Float × Float × Float)} {g : Generator}
    {values : List Float} (h : (rows x ps g).1 = some values) : values.length = ps.length := by
  induction ps generalizing g values with
  | nil =>
    cases h
    rfl
  | cons p rest ih =>
    obtain ⟨row, b, w⟩ := p
    rw [rows] at h
    simp only at h
    split at h
    · obtain ⟨others, hothers, rfl⟩ := Option.map_eq_some_iff.1 h
      simp [ih hothers]
    · cases h

/-- Accepted dynamics have a matrix, and an offset and a noise for each of its rows. -/
theorem make_eq_ok {matrix : List (List Float)} {offset noise : Option (List Float)} {a : Affine}
    (h : make matrix offset noise = .ok a) :
    a.matrix = matrix ∧ a.matrix.length ≠ 0 ∧ a.offset.length = a.matrix.length ∧
      a.noise.length = a.matrix.length := by
  unfold make at h
  simp only at h
  split at h
  · cases h
  · next hf =>
    cases h
    unfold fault? at hf
    simp only at hf
    split at hf
    · cases hf
    · next hn =>
      simp only [Option.orElse_eq_orElse, Option.orElse_eq_or, Option.or_eq_none_iff] at hf
      obtain ⟨-, ho, hw, -⟩ := hf
      have hlen : ∀ {field : String} {values : List Float},
          vectorFault? field matrix.length values = none → values.length = matrix.length := by
        intro field values hv
        unfold vectorFault? at hv
        by_cases hl : values.length = matrix.length
        · exact hl
        · simp [hl] at hv
      exact ⟨rfl, hn, hlen ho, hlen hw⟩

theorem keeps_affine {a : Affine} (ho : a.offset.length = a.matrix.length)
    (hn : a.noise.length = a.matrix.length) :
    (StepModel.affine a).Keeps False fun s => s.dimension = a.matrix.length := by
  have hnext : ∀ (s : State) (g : Generator) (memory : Unit), s.dimension = a.matrix.length →
      ((StepModel.affine a).next s g memory).Meets False fun step =>
        ∀ s', step = .next s' → s'.dimension = a.matrix.length := by
    intro s g memory hs
    unfold Reply.Meets
    simp only [StepModel.affine, apply, hs, ne_eq, not_true, if_false]
    cases hr : rows s.coordinates (a.matrix.zip (a.offset.zip a.noise)) g with
    | mk values g' =>
      cases values with
      | none =>
        rintro s' heq
        cases heq
      | some values =>
        rintro s' heq
        cases heq
        have hlen := rows_length (congrArg Prod.fst hr)
        simpa [State.dimension, ho, hn] using hlen
  exact ⟨hnext, StepModel.keeps_oneByOne hnext⟩

end Affine

end TrajectorySafety
