import TrajectorySafety.Guard
import TrajectorySafety.Proofs.Number.Order

/-!
What the guard lets through.

A step is rejected when the model reports a divergence or the guard finds something wrong with the
successor (`Guard.rejects`); otherwise its successor is accepted. An accepted state is finite where
the guard asks for it (`finite_of_inspect`), and no coordinate of it exceeds the largest magnitude
(`within_of_inspect`).
-/

namespace TrajectorySafety

/-! ## Accepted states -/

/-- All coordinates of a state are finite. -/
def State.Finite (s : State) : Prop := ∀ x ∈ s.coordinates, x.isFinite = true

/-- No coordinate of a state exceeds a bound in absolute value. -/
def State.Within (s : State) (bound : Float) : Prop := ∀ x ∈ s.coordinates, ¬ bound < x.abs

namespace Number

theorem lt_larger_left {a b c : Float} (h : c < a) : c < larger a b := by
  have ha : a.isNaN = false := ((lt_iff c a).1 h).2.1
  unfold larger
  rw [ha, if_neg Bool.false_ne_true]
  split
  · exact h
  · split
    · next hle => exact lt_of_lt_of_le h hle
    · exact h

theorem lt_larger_right {a b c : Float} (h : c < b) : c < larger a b := by
  have hb : b.isNaN = false := ((lt_iff c b).1 h).2.1
  unfold larger
  rw [hb, if_neg Bool.false_ne_true]
  split
  · exact h
  · next ha =>
    split
    · exact h
    · next hle =>
      have hba : b < a := lt_of_not_le hb (Bool.eq_false_of_not_eq_true ha) hle
      exact lt_of_lt_of_le h (le_of_lt hba)

end Number

/-- What a coordinate exceeds, the largest magnitude exceeds. -/
theorem State.lt_maxAbs {s : State} {x bound : Float} (hx : x ∈ s.coordinates)
    (h : bound < x.abs) : bound < s.maxAbs := by
  obtain ⟨before, after, hsplit⟩ := List.append_of_mem hx
  rw [maxAbs, hsplit, List.foldl_append, List.foldl_cons]
  exact List.foldlRecOn (motive := (bound < ·)) after _ (Number.lt_larger_right h)
    fun m hm y _ => Number.lt_larger_left hm

namespace Guard

theorem inspect_eq_none_iff {g : Guard} {s : State} :
    g.inspect s = none ↔ (g.checkFinite = true → s.firstNonFinite = none) ∧ g.excess s = none := by
  unfold inspect
  cases g.checkFinite with
  | false => simp
  | true =>
    cases s.firstNonFinite with
    | some i => simp
    | none => simp

theorem finite_of_inspect {g : Guard} {s : State} (hg : g.checkFinite = true)
    (h : g.inspect s = none) : s.Finite := by
  have hnone := (inspect_eq_none_iff.1 h).1 hg
  intro x hx
  simpa using List.findIdx?_eq_none_iff.1 hnone x hx

theorem within_of_inspect {g : Guard} {s : State} {bound : Float}
    (hg : g.maxMagnitude = some bound) (h : g.inspect s = none) : s.Within bound := by
  have hnone := (inspect_eq_none_iff.1 h).2
  intro x hx hexceeds
  rw [excess, hg] at hnone
  simp only [State.lt_maxAbs hx hexceeds, if_true] at hnone
  cases hnone

/-! ## Rejected steps -/

/-- Whether a step is rejected: the model diverged, or there is something wrong with the
successor. -/
def rejects (g : Guard) : Step → Bool
  | .diverged => true
  | .next s => (g.inspect s).isSome

theorem rejects_next {g : Guard} {s : State} (h : g.inspect s = none) :
    g.rejects (.next s) = false := by
  rw [rejects, h, Option.isSome_none]

theorem toOption_accept_eq_none_iff {g : Guard} {step : Step} :
    (g.accept step).toOption = none ↔ g.rejects step = true := by
  cases step with
  | diverged => exact ⟨fun _ => rfl, fun _ => rfl⟩
  | next s =>
    rw [accept, rejects]
    cases g.inspect s with
    | some d => exact ⟨fun _ => rfl, fun _ => rfl⟩
    | none => exact ⟨fun h => (by cases h), fun h => (by cases h)⟩

theorem toOption_accept_eq_some_iff {g : Guard} {step : Step} {s : State} :
    (g.accept step).toOption = some s ↔ step = .next s ∧ g.inspect s = none := by
  cases step with
  | diverged => exact ⟨fun h => (by cases h), fun h => (by cases h.1)⟩
  | next s' =>
    rw [accept]
    constructor
    · intro h
      cases hs : g.inspect s' with
      | some d =>
        rw [hs] at h
        cases h
      | none =>
        rw [hs] at h
        obtain rfl := Option.some.inj h
        exact ⟨rfl, hs⟩
    · intro ⟨hstep, hs⟩
      cases hstep
      rw [hs]
      rfl

end Guard

end TrajectorySafety
