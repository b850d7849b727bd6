import TrajectorySafety.Bound
import TrajectorySafety.Proofs.Number.Infinity
import TrajectorySafety.Proofs.Number.Logarithms

/-!
The quotients that the rules round up to a number of samples.

Both rules divide a logarithm by that of the confidence. `exactQuotient` is what the one with a
uniform prior would divide if numbers were exact; it grows with the confidence
(`exactQuotient_mono`), by the concavity of powers. The computed quotient is always finite
(`isFinite_quotient`) and is off the exact one by no more than `slack` (`abs_quotient_sub_le`): the
argument of the logarithm is rounded twice, each logarithm is within one unit in the last place, and
the division rounds once more. Where the confidence is close to one the first of these weighs most,
because there the logarithm that it is divided by is small.
-/

namespace TrajectorySafety

open Number

namespace SampleRule

/-! ## Exact quotients -/

/-- `ln (c + B (1 - c)) / -ln c` -/
noncomputable def exactQuotient (budget confidence : ℝ) : ℝ :=
  Real.log (confidence + budget * (1 - confidence)) / -Real.log confidence

theorem one_le_mix {b c : ℝ} (hb : 1 < b) (hc : c < 1) : 1 ≤ c + b * (1 - c) := by nlinarith

/-- A power with an exponent below one is concave, and one is the mean of `c + b (1 - c)` and `c`
with weights `1` and `b - 1`. -/
theorem rpow_mix_le {b c t : ℝ} (hb : 1 < b) (hc : 0 < c) (hc1 : c < 1) (ht : 0 ≤ t) (ht1 : t ≤ 1) :
    (c + b * (1 - c)) ^ t ≤ c ^ t + b * (1 - c ^ t) := by
  have hb0 : 0 < b := by linarith
  have hodds : 0 ≤ c + b * (1 - c) := by linarith [one_le_mix hb hc1]
  have hfirst : 0 ≤ 1 / b := by positivity
  have hsecond : 0 ≤ (b - 1) / b := div_nonneg (by linarith) hb0.le
  have hsum : 1 / b + (b - 1) / b = 1 := by field_simp; ring
  have hconcave := (Real.concaveOn_rpow ht ht1).2 (Set.mem_Ici.2 hodds) (Set.mem_Ici.2 hc.le)
    hfirst hsecond hsum
  have hone : 1 / b * (c + b * (1 - c)) + (b - 1) / b * c = 1 := by field_simp; ring
  simp only [smul_eq_mul] at hconcave
  rw [hone, Real.one_rpow] at hconcave
  have hscaled := mul_le_mul_of_nonneg_left hconcave hb0.le
  have hexpand : b * (1 / b * (c + b * (1 - c)) ^ t + (b - 1) / b * c ^ t) =
      (c + b * (1 - c)) ^ t + (b - 1) * c ^ t := by field_simp
  rw [hexpand] at hscaled
  linarith

theorem exactQuotient_mono {b c d : ℝ} (hb : 1 < b) (hc : 0 < c) (hcd : c ≤ d) (hd : d < 1) :
    exactQuotient b c ≤ exactQuotient b d := by
  have hd0 : 0 < d := hc.trans_le hcd
  have hc1 : c < 1 := hcd.trans_lt hd
  have hlogc : Real.log c < 0 := Real.log_neg hc hc1
  have hlogd : Real.log d < 0 := Real.log_neg hd0 hd
  -- `d` is a power of `c`
  have ht : 0 ≤ Real.log d / Real.log c := div_nonneg_of_nonpos hlogd.le hlogc.le
  have ht1 : Real.log d / Real.log c ≤ 1 :=
    (div_le_one_of_neg hlogc).2 (Real.log_le_log hc hcd)
  have hpower : c ^ (Real.log d / Real.log c) = d := by
    rw [Real.rpow_def_of_pos hc, mul_div_cancel₀ _ hlogc.ne, Real.exp_log hd0]
  have hmix := rpow_mix_le hb hc hc1 ht ht1
  rw [hpower] at hmix
  have hodds : 0 < c + b * (1 - c) := by linarith [one_le_mix hb hc1]
  have hlogs := Real.log_le_log (Real.rpow_pos_of_pos hodds _) hmix
  rw [Real.log_rpow hodds] at hlogs
  unfold exactQuotient
  rw [le_div_iff₀ (by linarith)]
  refine LE.le.trans (le_of_eq ?_) hlogs
  field_simp

/-! ## Accepted inputs -/

/-- The inputs that the rules answer: a finite threshold above one, and a confidence strictly
between zero and one. -/
structure Accepted (budget confidence : Float) : Prop where
  budget_finite : budget.isFinite = true
  one_lt : 1 < budget
  pos : 0 < confidence
  lt_one : confidence < 1

variable {budget confidence : Float}

theorem checkInputs_eq_ok (h : Accepted budget confidence) :
    checkInputs budget confidence = .ok () := by
  simp [checkInputs, h.budget_finite, not_le_of_lt h.one_lt, h.pos, h.lt_one]

namespace Accepted

variable (h : Accepted budget confidence)
include h

theorem confidence_finite : confidence.isFinite = true :=
  isFinite_of_between isFinite_zero isFinite_one (le_of_lt h.pos) (le_of_lt h.lt_one)

theorem one_lt_value : 1 < value budget := by
  have hlt := h.one_lt
  rwa [lt_iff_value isFinite_one h.budget_finite, value_one] at hlt

theorem value_pos : 0 < value confidence := by
  have hlt := h.pos
  rwa [lt_iff_value isFinite_zero h.confidence_finite, value_zero] at hlt

theorem value_lt_one : value confidence < 1 := by
  have hlt := h.lt_one
  rwa [lt_iff_value h.confidence_finite isFinite_one, value_one] at hlt

/-- No double is closer to one. -/
theorem gap : 1 / 2 ^ 53 ≤ 1 - value confidence := by
  have hbelow := le_belowOne h.lt_one
  rw [le_iff_value h.confidence_finite (by decide), value_belowOne] at hbelow
  linarith

end Accepted

/-! ## Computed odds -/

/-- What the rule with a uniform prior takes the logarithm of. -/
def odds (budget confidence : Float) : Float := fusedMulAdd budget (1 - confidence) confidence

/-- The odds if numbers were exact. -/
def exactOdds (budget confidence : Float) : ℚ :=
  value confidence + value budget * (1 - value confidence)

theorem cast_exactOdds (budget confidence : Float) : (exactOdds budget confidence : ℝ) =
    value confidence + value budget * (1 - value confidence) := by
  unfold exactOdds
  push_cast
  rfl

theorem abs_sub_le_of_rounded_twice {o e r : ℚ} (ho : 0 ≤ o) (hfirst : |e - o| ≤ o / 2 ^ 53)
    (hsecond : |r - e| ≤ |e| / 2 ^ 53) : |r - o| ≤ o / 2 ^ 51 := by
  have hsize : |e| ≤ o + o / 2 ^ 53 := by
    have := abs_sub_abs_le_abs_sub e o
    rw [abs_of_nonneg ho] at this
    linarith
  have hsplit := abs_sub_le r e o
  linarith

section
variable (h : Accepted budget confidence)
include h

/-- The probability of a violation is rounded by one part in `2 ^ 53` at most. -/
theorem value_one_sub : (1 - confidence).isFinite = true ∧ 0 ≤ value (1 - confidence) ∧
    value (1 - confidence) ≤ 1 ∧
    |value (1 - confidence) - (1 - value confidence)| ≤ (1 - value confidence) / 2 ^ 53 := by
  obtain ⟨hrank, hnan⟩ := rank_sub_eq isFinite_one h.confidence_finite
  have hpos := h.value_pos
  have hlt := h.value_lt_one
  rw [value_one] at hrank
  obtain ⟨hge, hle⟩ := between_of_rankOf hnan hrank isFinite_zero isFinite_one
    (by rw [value_zero]; linarith) (by rw [value_one]; linarith)
  have hfinite := isFinite_of_between isFinite_zero isFinite_one hge hle
  rw [le_iff_value isFinite_zero hfinite, value_zero] at hge
  rw [le_iff_value hfinite isFinite_one, value_one] at hle
  refine ⟨hfinite, hge, hle, ?_⟩
  have habs : |1 - value confidence| = 1 - value confidence := abs_of_pos (by linarith)
  have herror := abs_value_sub_le_of_le hfinite hrank
  rw [habs] at herror
  exact herror ((one_div_pow_le_one_div_pow_of_le one_le_two (by decide)).trans h.gap)

theorem one_le_exactOdds : 1 ≤ exactOdds budget confidence := by
  have hbudget := h.one_lt_value
  have hlt := h.value_lt_one
  unfold exactOdds
  nlinarith

/-- The exact odds with the rounded probability of a violation. -/
theorem abs_fused_sub_le :
    |value budget * value (1 - confidence) + value confidence - exactOdds budget confidence| ≤
      exactOdds budget confidence / 2 ^ 53 := by
  have hbudget := h.one_lt_value
  have hpos := h.value_pos
  have hdiff : value budget * value (1 - confidence) + value confidence -
      exactOdds budget confidence =
        value budget * (value (1 - confidence) - (1 - value confidence)) := by
    rw [exactOdds]
    ring
  obtain ⟨-, -, -, herror⟩ := value_one_sub h
  rw [hdiff, abs_mul, abs_of_pos (by linarith : 0 < value budget)]
  refine (mul_le_mul_of_nonneg_left herror (by linarith)).trans ?_
  rw [← mul_div_assoc]
  refine div_le_div_of_nonneg_right ?_ (by positivity)
  unfold exactOdds
  linarith

/-- Computed odds never overflow, and they are off by one part in `2 ^ 51` at most. -/
theorem abs_odds_sub_le : (odds budget confidence).isFinite = true ∧
    |value (odds budget confidence) - exactOdds budget confidence| ≤
      exactOdds budget confidence / 2 ^ 51 := by
  obtain ⟨hfinite, -, hle, -⟩ := value_one_sub h
  have hone := one_le_exactOdds h
  have hchange := abs_fused_sub_le h
  have hhalf : 1 / 2 ≤ value budget * value (1 - confidence) + value confidence := by
    have := (abs_le.1 hchange).1
    linarith
  have habs := abs_of_pos (one_half_pos.trans_le hhalf)
  obtain ⟨hrank, hnan⟩ := rank_fusedMulAdd h.budget_finite hfinite h.confidence_finite
    (one_half_pos.trans_le hhalf).ne'
  have hodds : (odds budget confidence).isFinite = true := by
    refine isFinite_of_abs_le hnan hrank ?_
    have hbudget := h.one_lt_value
    have hlt := h.value_lt_one
    have hmost := value_le_most h.budget_finite
    have hpart := mul_le_of_le_one_right (by linarith : 0 ≤ value budget) hle
    rw [habs]
    linarith
  have hsmall : 1 / 2 ^ 1022 ≤ |value budget * value (1 - confidence) + value confidence| := by
    rw [habs]
    refine LE.le.trans ?_ hhalf
    simpa using one_div_pow_le_one_div_pow_of_le (one_le_two (α := ℚ)) (by decide : 1 ≤ 1022)
  exact ⟨hodds, abs_sub_le_of_rounded_twice (by linarith) hchange
    (abs_value_sub_le_of_le hodds hrank hsmall)⟩

end

/-! ## Computed quotients -/

/-- A relative error of the argument is an absolute error of its logarithm. -/
theorem abs_log_sub_log_le {o r : ℝ} (ho : 0 < o) (h : |r - o| ≤ o / 2 ^ 51) :
    |Real.log r - Real.log o| ≤ 5 / 2 ^ 53 := by
  obtain ⟨hlower, hupper⟩ := abs_le.1 h
  have hr : 0 < r := by linarith
  rw [← Real.log_div hr.ne' ho.ne', abs_le]
  have hge : 1 - 1 / 2 ^ 51 ≤ r / o := by
    rw [le_div_iff₀ ho]
    linarith
  have hle : r / o ≤ 1 + 1 / 2 ^ 51 := by
    rw [div_le_iff₀ ho]
    linarith
  have hinv : (r / o)⁻¹ ≤ (1 - 1 / 2 ^ 51)⁻¹ := inv_anti₀ (by norm_num) hge
  have hnum : (1 - 1 / 2 ^ 51 : ℝ)⁻¹ ≤ 1 + 5 / 2 ^ 53 := by norm_num
  constructor
  · linarith [Real.one_sub_inv_le_log_of_pos (div_pos hr ho)]
  · linarith [Real.log_le_sub_one_of_pos (div_pos hr ho)]

/-- The errors of a numerator `n`, a divisor `l` and their rounded quotient, put together. -/
theorem abs_sub_div_le {n n' l l' q g : ℝ} (hn : 0 ≤ n) (hl : 0 < l) (hg : 0 ≤ g) (hlg : 1 ≤ l * g)
    (hnum : |n' - n| ≤ n / 2 ^ 52 + 3 / 2 ^ 52) (hdiv : |l' - l| ≤ l / 2 ^ 52)
    (hq : |q - n' / l'| ≤ |n' / l'| / 2 ^ 53 + g / 2 ^ 53) :
    |q - n / l| ≤ (n / l + g) / 2 ^ 50 := by
  obtain ⟨r, hr⟩ : ∃ r, r = n / l := ⟨_, rfl⟩
  have hr0 : 0 ≤ r := hr ▸ div_nonneg hn hl.le
  have hrl : r * l = n := by rw [hr, div_mul_cancel₀ _ hl.ne']
  have hl' : l - l / 2 ^ 52 ≤ l' := by linarith [(abs_le.1 hdiv).1]
  have hl0 : 0 < l' := by linarith
  -- the exact quotient of what has been computed, against the exact quotient
  have hdiff : |n' / l' - r| * l' ≤ 3 * (l * (r + g)) / 2 ^ 52 := by
    have hexpand : (n' / l' - r) * l' = (n' - n) - r * (l' - l) := by
      rw [sub_mul, div_mul_cancel₀ _ hl0.ne', ← hrl]
      ring
    have hpart : |r * (l' - l)| ≤ r * (l / 2 ^ 52) := by
      rw [abs_mul, abs_of_nonneg hr0]
      exact mul_le_mul_of_nonneg_left hdiv hr0
    have hsplit := abs_sub (n' - n) (r * (l' - l))
    rw [← abs_of_pos hl0, ← abs_mul, abs_of_pos hl0, hexpand]
    linarith
  have hscaled : |n' / l' - r| * (1 - 1 / 2 ^ 52) ≤ 3 * (r + g) / 2 ^ 52 := by
    refine le_of_mul_le_mul_left ?_ hl
    linarith [mul_le_mul_of_nonneg_left hl' (abs_nonneg (n' / l' - r))]
  have hsize := abs_sub_abs_le_abs_sub (n' / l') r
  rw [abs_of_nonneg hr0] at hsize
  have hsplit := abs_sub_le q (n' / l') r
  rw [← hr]
  linarith

/-- A logarithm over that of the confidence with its sign turned. -/
def quotient (x confidence : Float) : Float := ln x / -ln confidence

section
variable (h : Accepted budget confidence) (hln : LnNear confidence)
include h hln

/-- The divisor is at least the probability of a violation, and as near to the exact one as the
logarithm is. -/
theorem abs_divisor_sub_le :
    1 - (value confidence : ℝ) ≤ -Real.log (value confidence) ∧
      |-(value (ln confidence) : ℝ) - -Real.log (value confidence)| ≤
        -Real.log (value confidence) / 2 ^ 52 := by
  have hpos : (0 : ℝ) < value confidence := by exact_mod_cast h.value_pos
  have hlt : (value confidence : ℝ) < 1 := by exact_mod_cast h.value_lt_one
  have hnear := hln.near
  rw [abs_of_neg (Real.log_neg hpos hlt), abs_sub_comm] at hnear
  refine ⟨by linarith [Real.log_le_sub_one_of_pos hpos], ?_⟩
  rwa [neg_sub_neg]

theorem half_gap_le : (1 - value confidence) / 2 ≤ -value (ln confidence) := by
  obtain ⟨hgap, hnear⟩ := abs_divisor_sub_le h hln
  have hlt : (value confidence : ℝ) < 1 := by exact_mod_cast h.value_lt_one
  have := (abs_le.1 hnear).1
  have : (1 - (value confidence : ℝ)) / 2 ≤ -value (ln confidence) := by linarith
  exact_mod_cast this

variable {x : Float} (hx : LnNear x)
include hx

theorem rank_quotient :
    rank (quotient x confidence) = rankOf (value (ln x) / -value (ln confidence)) ∧
      (quotient x confidence).isNaN = false := by
  have hdivisor := half_gap_le h hln
  have hlt := h.value_lt_one
  have hneg := value_neg hln.finite
  rw [← hneg]
  exact rank_div_eq hx.finite (isFinite_neg hln.finite) (by rw [hneg]; linarith)

theorem isFinite_quotient (hfinite : x.isFinite = true) (hhalf : 1 / 2 ≤ value x) :
    (quotient x confidence).isFinite = true := by
  obtain ⟨hrank, hnan⟩ := rank_quotient h hln hx
  have hsize := hx.abs_value_le_of_half hfinite hhalf
  have hdivisor : 1 / 2 ^ 54 ≤ -value (ln confidence) := by
    have := h.gap
    have := half_gap_le h hln
    linarith
  refine isFinite_of_abs_le hnan hrank ?_
  rw [abs_div, abs_of_pos (by linarith : 0 < -value (ln confidence))]
  calc |value (ln x)| / -value (ln confidence) ≤ 2 ^ 11 / (1 / 2 ^ 54) :=
        div_le_div₀ (by norm_num) hsize (by norm_num) hdivisor
    _ = 1 * 2 ^ 65 := by norm_num
    _ ≤ (2 ^ 53 - 1) * 2 ^ 971 := by
        gcongr
        · norm_num
        · norm_num
        · decide
    _ = value most := value_most.symm
    _ ≤ value most + 1 := by linarith

/-- What is divided by a smaller divisor is not smaller, whatever is rounded off. -/
theorem quotient_le {more : Float} (hmore : Accepted budget more) (hnear : LnNear more)
    (hmono : ln confidence ≤ ln more) (hnonneg : 0 ≤ value (ln x)) :
    quotient x confidence ≤ quotient x more := by
  obtain ⟨hrank, hnan⟩ := rank_quotient h hln hx
  obtain ⟨hrank', hnan'⟩ := rank_quotient hmore hnear hx
  refine (le_iff _ _).2 ⟨hnan, hnan', ?_⟩
  rw [le_iff_value hln.finite hnear.finite] at hmono
  rw [hrank, hrank']
  refine rankOf_mono (div_le_div_of_nonneg_left hnonneg ?_ (neg_le_neg hmono))
  have := half_gap_le hmore hnear
  have := hmore.value_lt_one
  linarith

end

/-! ## The distance to the exact quotient -/

/-- How far the computed quotient may be off. -/
noncomputable def slack (budget confidence : ℝ) : ℝ :=
  (exactQuotient budget confidence + 1 / (1 - confidence)) / 2 ^ 50

section
variable (h : Accepted budget confidence)
include h

theorem half_le_odds : 1 / 2 ≤ value (odds budget confidence) := by
  have hone := one_le_exactOdds h
  have := (abs_le.1 (abs_odds_sub_le h).2).1
  linarith

variable (hodds : LnNear (odds budget confidence))
include hodds

theorem abs_ln_odds_sub_le :
    |(value (ln (odds budget confidence)) : ℝ) - Real.log (exactOdds budget confidence)| ≤
      Real.log (exactOdds budget confidence) / 2 ^ 52 + 3 / 2 ^ 52 := by
  have hone : (1 : ℝ) ≤ exactOdds budget confidence := by exact_mod_cast one_le_exactOdds h
  have herror : |(value (odds budget confidence) : ℝ) - exactOdds budget confidence| ≤
      exactOdds budget confidence / 2 ^ 51 := by exact_mod_cast (abs_odds_sub_le h).2
  have hchange := abs_log_sub_log_le (by linarith) herror
  have hnear := hodds.near
  have hsize := abs_sub_abs_le_abs_sub (Real.log (value (odds budget confidence)))
    (Real.log (exactOdds budget confidence))
  rw [abs_of_nonneg (Real.log_nonneg hone)] at hsize
  have hsplit := abs_sub_le (value (ln (odds budget confidence)) : ℝ)
    (Real.log (value (odds budget confidence))) (Real.log (exactOdds budget confidence))
  linarith

variable (hln : LnNear confidence)
include hln

/-- The division rounds once. -/
theorem abs_quotient_sub_div_le :
    |(value (quotient (odds budget confidence) confidence) : ℝ) -
      value (ln (odds budget confidence)) / -value (ln confidence)| ≤
        |(value (ln (odds budget confidence)) / -value (ln confidence) : ℝ)| / 2 ^ 53 +
          1 / 2 ^ 53 := by
  have hfinite := isFinite_quotient h hln hodds (abs_odds_sub_le h).1 (half_le_odds h)
  have hrounded := abs_value_sub_le hfinite (rank_quotient h hln hodds).1
  have hsmall : (1 / 2 ^ 1075 : ℚ) ≤ 1 / 2 ^ 53 :=
    one_div_pow_le_one_div_pow_of_le one_le_two (by decide)
  have hsum := hrounded.trans (max_le_add_of_nonneg (by positivity) (by positivity))
  have hreal := (Rat.cast_le (K := ℝ)).2 (hsum.trans (add_le_add_right hsmall _))
  push_cast at hreal
  exact hreal

theorem abs_quotient_sub_le :
    |(value (quotient (odds budget confidence) confidence) : ℝ) -
      exactQuotient (value budget) (value confidence)| ≤
        slack (value budget) (value confidence) := by
  have hrounded := abs_quotient_sub_div_le h hodds hln
  obtain ⟨hgap, hdivisor⟩ := abs_divisor_sub_le h hln
  have hlt : (value confidence : ℝ) < 1 := by exact_mod_cast h.value_lt_one
  have hpos : (0 : ℝ) < value confidence := by exact_mod_cast h.value_pos
  have hone : (1 : ℝ) ≤ exactOdds budget confidence := by exact_mod_cast one_le_exactOdds h
  have hnum := abs_ln_odds_sub_le h hodds
  rw [cast_exactOdds] at hnum hone
  have hinverse : 1 ≤ 1 / (1 - (value confidence : ℝ)) := by
    rw [le_div_iff₀ (by linarith)]
    linarith
  refine abs_sub_div_le (Real.log_nonneg hone) (by linarith) (by linarith) ?_ hnum hdivisor ?_
  · rw [mul_one_div, le_div_iff₀ (by linarith)]
    linarith
  · linarith

end

end SampleRule

end TrajectorySafety
