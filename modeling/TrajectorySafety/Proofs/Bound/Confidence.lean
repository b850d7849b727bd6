import TrajectorySafety.Proofs.Bound.Quotient

/-!
More confidence, more samples.

A rule asks for the least whole number, from one on, that is not below its quotient
(`count_le_iff`). With the plain quotient the number of samples grows with the confidence, whatever
is rounded off, because only the divisor changes. With a uniform prior both parts change, and in
opposite directions: the exact quotient grows with the confidence, but the computed one need not. It
then falls past a whole number that both exact quotients are within their `slack` of.
-/

namespace TrajectorySafety

open Number

namespace Number

theorem ceilNat_le_iff {x : Float} (hx : x.isFinite = true) (limit n : ℕ) :
    ceilNat limit x ≤ n ↔ limit ≤ n ∨ value x ≤ n := by
  obtain ⟨b, hb⟩ := ofFloat?_of_isFinite hx
  rw [value_of_ofFloat? hb]
  unfold ceilNat
  simp only [hb]
  by_cases hneg : b.negative
  · have hle : signed b.negative b.magnitude ≤ n := by
      rw [hneg, signed, if_pos rfl]
      linarith [magnitude_nonneg b, Nat.cast_nonneg (α := ℚ) n]
    rw [if_pos hneg]
    exact iff_of_true (Nat.zero_le n) (.inr hle)
  · have hden := ratio_den_pos b
    have hden' : (0 : ℚ) < b.ratio.2 := by exact_mod_cast hden
    rw [if_neg hneg, min_le_iff, signed, if_neg hneg, ← ratio_eq_magnitude, div_le_iff₀ hden',
      Nat.div_le_iff_le_mul_add_pred hden]
    refine or_congr_right ?_
    rw [← Nat.cast_mul, Nat.cast_le, Nat.mul_comm]
    omega

end Number

namespace SampleRule

theorem count_le_iff {x : Float} (hx : x.isFinite = true) {n : ℕ} :
    count x ≤ n ↔ 1 ≤ n ∧ (wordLimit ≤ n ∨ value x ≤ n) := by
  rw [count, max_le_iff, ceilNat_le_iff hx, and_comm]

/-- A count falls exactly where a quotient falls past a whole number. -/
theorem count_le_count_iff {x y : Float} (hx : x.isFinite = true) (hy : y.isFinite = true) :
    count x ≤ count y ↔ ∀ n : ℕ, 1 ≤ n → n < wordLimit → value y ≤ n → value x ≤ n := by
  constructor
  · intro hle n hn hlimit hyn
    obtain hword | hxn := ((count_le_iff hx).1 (hle.trans ((count_le_iff hy).2 ⟨hn, .inr hyn⟩))).2
    · exact absurd hlimit (Nat.not_lt.2 hword)
    · exact hxn
  · intro h
    obtain ⟨hone, hcut⟩ := (count_le_iff hy).1 (Nat.le_refl (count y))
    refine (count_le_iff hx).2 ⟨hone, ?_⟩
    by_cases hlimit : wordLimit ≤ count y
    · exact .inl hlimit
    · exact .inr (h _ hone (Nat.not_le.1 hlimit) (hcut.resolve_left hlimit))

theorem one_le_count (x : Float) : 1 ≤ count x := Nat.le_max_right _ _

variable {budget confidence : Float}

theorem jeffreys_eq (h : Accepted budget confidence) :
    jeffreys budget confidence = .ok (count (quotient budget confidence)) := by
  rw [jeffreys, checkInputs_eq_ok h]
  rfl

theorem betaPosterior_eq (h : Accepted budget confidence) :
    betaPosterior budget confidence =
      .ok (count (quotient (odds budget confidence) confidence)) := by
  rw [betaPosterior, checkInputs_eq_ok h]
  rfl

/-- All logarithms that the rules take of their inputs are near the exact ones. -/
structure LogsNear (budget confidence : Float) : Prop where
  budget_near : LnNear budget
  confidence_near : LnNear confidence
  odds_near : LnNear (odds budget confidence)

theorem isFinite_plain_quotient (h : Accepted budget confidence)
    (hln : LogsNear budget confidence) : (quotient budget confidence).isFinite = true := by
  have hbudget := h.one_lt_value
  exact isFinite_quotient h hln.confidence_near hln.budget_near h.budget_finite (by linarith)

theorem isFinite_odds_quotient (h : Accepted budget confidence)
    (hln : LogsNear budget confidence) :
    (quotient (odds budget confidence) confidence).isFinite = true :=
  isFinite_quotient h hln.confidence_near hln.odds_near (abs_odds_sub_le h).1 (half_le_odds h)

section
variable {budget c₁ c₂ : Float} (h₁ : Accepted budget c₁) (h₂ : Accepted budget c₂)
variable (hln₁ : LogsNear budget c₁) (hln₂ : LogsNear budget c₂)
include h₁ h₂ hln₁ hln₂

/-- With the plain quotient only the divisor changes. -/
theorem count_quotient_le (hmono : ln c₁ ≤ ln c₂) :
    count (quotient budget c₁) ≤ count (quotient budget c₂) := by
  have hfinite₁ := isFinite_plain_quotient h₁ hln₁
  have hfinite₂ := isFinite_plain_quotient h₂ hln₂
  have hle := quotient_le h₁ hln₁.confidence_near hln₁.budget_near h₂ hln₂.confidence_near hmono
    (hln₁.budget_near.nonneg h₁.one_lt_value)
  rw [le_iff_value hfinite₁ hfinite₂] at hle
  exact (count_le_count_iff hfinite₁ hfinite₂).2 fun n _ _ hn => hle.trans hn

theorem count_odds_le_iff :
    count (quotient (odds budget c₁) c₁) ≤ count (quotient (odds budget c₂) c₂) ↔
      ∀ n : ℕ, 1 ≤ n → n < wordLimit → value (quotient (odds budget c₂) c₂) ≤ n →
        value (quotient (odds budget c₁) c₁) ≤ n :=
  count_le_count_iff (isFinite_odds_quotient h₁ hln₁) (isFinite_odds_quotient h₂ hln₂)

/-- Where the computed quotients fall past a whole number, the exact ones are close to it. -/
theorem exists_close_of_count_lt (hle : c₁ ≤ c₂)
    (hlt : count (quotient (odds budget c₂) c₂) < count (quotient (odds budget c₁) c₁)) :
    ∃ n : ℕ, 1 ≤ n ∧
      n - slack (value budget) (value c₁) ≤ exactQuotient (value budget) (value c₁) ∧
      exactQuotient (value budget) (value c₁) ≤ exactQuotient (value budget) (value c₂) ∧
      exactQuotient (value budget) (value c₂) ≤ n + slack (value budget) (value c₂) := by
  have hfalls := mt (count_odds_le_iff h₁ h₂ hln₁ hln₂).2 (Nat.not_le.2 hlt)
  simp only [not_forall, exists_prop, not_le] at hfalls
  obtain ⟨n, hn, -, hbelow, habove⟩ := hfalls
  have hbelow' : (value (quotient (odds budget c₂) c₂) : ℝ) ≤ n := by exact_mod_cast hbelow
  have habove' : (n : ℝ) < value (quotient (odds budget c₁) c₁) := by exact_mod_cast habove
  have herror₁ := (abs_le.1 (abs_quotient_sub_le h₁ hln₁.odds_near hln₁.confidence_near)).2
  have herror₂ := (abs_le.1 (abs_quotient_sub_le h₂ hln₂.odds_near hln₂.confidence_near)).1
  have hvalue : (value c₁ : ℝ) ≤ value c₂ := by
    exact_mod_cast (le_iff_value h₁.confidence_finite h₂.confidence_finite).1 hle
  refine ⟨n, hn, by linarith, ?_, by linarith⟩
  exact exactQuotient_mono (by exact_mod_cast h₁.one_lt_value) (by exact_mod_cast h₁.value_pos)
    hvalue (by exact_mod_cast h₂.value_lt_one)

end

/-- With the plain quotient, more confidence never needs fewer samples. With a uniform prior it
needs fewer exactly where the computed quotient falls past a whole number, and such a number is
within the `slack` of both exact quotients, which do not fall. -/
theorem samples_grow_iff {budget c₁ c₂ : Float} (h₁ : Accepted budget c₁)
    (h₂ : Accepted budget c₂) (hln₁ : LogsNear budget c₁) (hln₂ : LogsNear budget c₂)
    (hle : c₁ ≤ c₂) (hmono : ln c₁ ≤ ln c₂) :
    (∃ k₁ k₂, jeffreys budget c₁ = .ok k₁ ∧ jeffreys budget c₂ = .ok k₂ ∧ 1 ≤ k₁ ∧ k₁ ≤ k₂) ∧
    ∃ k₁ k₂, betaPosterior budget c₁ = .ok k₁ ∧ betaPosterior budget c₂ = .ok k₂ ∧
      1 ≤ k₁ ∧ 1 ≤ k₂ ∧
      (k₁ ≤ k₂ ↔ ∀ n : ℕ, 1 ≤ n → n < wordLimit → value (quotient (odds budget c₂) c₂) ≤ n →
        value (quotient (odds budget c₁) c₁) ≤ n) ∧
      (k₂ < k₁ → ∃ n : ℕ, 1 ≤ n ∧
        n - slack (value budget) (value c₁) ≤ exactQuotient (value budget) (value c₁) ∧
        exactQuotient (value budget) (value c₁) ≤ exactQuotient (value budget) (value c₂) ∧
        exactQuotient (value budget) (value c₂) ≤ n + slack (value budget) (value c₂)) := by
  refine ⟨⟨_, _, jeffreys_eq h₁, jeffreys_eq h₂, one_le_count _, ?_⟩,
    _, _, betaPosterior_eq h₁, betaPosterior_eq h₂, one_le_count _, one_le_count _, ?_, ?_⟩
  · exact count_quotient_le h₁ h₂ hln₁ hln₂ hmono
  · exact count_odds_le_iff h₁ h₂ hln₁ hln₂
  · exact exists_close_of_count_lt h₁ h₂ hln₁ hln₂ hle

/-- From a half to three quarters, against a threshold of five. -/
theorem samples_grow_five :
    (∃ k₁ k₂, jeffreys 5 0.5 = .ok k₁ ∧ jeffreys 5 0.75 = .ok k₂ ∧ 1 ≤ k₁ ∧ k₁ ≤ k₂) ∧
    ∃ k₁ k₂, betaPosterior 5 0.5 = .ok k₁ ∧ betaPosterior 5 0.75 = .ok k₂ ∧ 1 ≤ k₁ ∧ k₁ ≤ k₂ := by
  have h₁ : Accepted 5 0.5 := ⟨by decide, by decide, by decide, by decide⟩
  have h₂ : Accepted 5 0.75 := ⟨by decide, by decide, by decide, by decide⟩
  have hfive : LnNear 5 :=
    lnNear_of_series 110 (by decide +kernel) (by decide +kernel) rfl (by decide +kernel)
  have hln₁ : LogsNear 5 0.5 := ⟨hfive,
    lnNear_of_series 40 (by decide +kernel) (by decide +kernel) rfl (by decide +kernel),
    lnNear_of_series 70 (by decide +kernel) (by decide +kernel) rfl (by decide +kernel)⟩
  have hln₂ : LogsNear 5 0.75 := ⟨hfive,
    lnNear_of_series 30 (by decide +kernel) (by decide +kernel) rfl (by decide +kernel),
    lnNear_of_series 40 (by decide +kernel) (by decide +kernel) rfl (by decide +kernel)⟩
  have hquotient : value (quotient (odds 5 0.5) 0.5) ≤ value (quotient (odds 5 0.75) 0.75) := by
    decide +kernel
  obtain ⟨hplain, k₁, k₂, hk₁, hk₂, hone, -, hiff, -⟩ :=
    samples_grow_iff h₁ h₂ hln₁ hln₂ (by decide +kernel) (by decide +kernel)
  exact ⟨hplain, k₁, k₂, hk₁, hk₂, hone, hiff.2 fun n _ _ hn => hquotient.trans hn⟩

/-- Two confidences so close to one that the rounding of the odds decides: all logarithms are near
the exact ones and do not fall, but the number of samples does. -/
theorem samples_fall :
    LogsNear 4 (Float.ofBits 0x3feffffffffffffb) ∧ LogsNear 4 (Float.ofBits 0x3feffffffffffffd) ∧
      Float.ofBits 0x3feffffffffffffb ≤ Float.ofBits 0x3feffffffffffffd ∧
      ln (Float.ofBits 0x3feffffffffffffb) ≤ ln (Float.ofBits 0x3feffffffffffffd) ∧
      betaPosterior 4 (Float.ofBits 0x3feffffffffffffb) = .ok 4 ∧
      betaPosterior 4 (Float.ofBits 0x3feffffffffffffd) = .ok 3 := by
  have h₁ : Accepted 4 (Float.ofBits 0x3feffffffffffffb) :=
    ⟨by decide, by decide, by decide, by decide⟩
  have h₂ : Accepted 4 (Float.ofBits 0x3feffffffffffffd) :=
    ⟨by decide, by decide, by decide, by decide⟩
  have hfour : LnNear 4 :=
    lnNear_of_series 90 (by decide +kernel) (by decide +kernel) rfl (by decide +kernel)
  refine ⟨⟨hfour, ?_, ?_⟩, ⟨hfour, ?_, ?_⟩, by decide, by decide +kernel, ?_, ?_⟩
  · exact lnNear_of_series 3 (by decide +kernel) (by decide +kernel) rfl (by decide +kernel)
  · exact lnNear_of_series 3 (by decide +kernel) (by decide +kernel) rfl (by decide +kernel)
  · exact lnNear_of_series 3 (by decide +kernel) (by decide +kernel) rfl (by decide +kernel)
  · exact lnNear_of_series 3 (by decide +kernel) (by decide +kernel) rfl (by decide +kernel)
  · rw [betaPosterior_eq h₁]
    exact congrArg Except.ok (by decide +kernel)
  · rw [betaPosterior_eq h₂]
    exact congrArg Except.ok (by decide +kernel)

end SampleRule

end TrajectorySafety
