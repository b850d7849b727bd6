import TrajectorySafety.Number.Logarithm
import TrajectorySafety.Proofs.Number.Infinity

/-!
The computed logarithm beside the exact one.

`LnNear x` says that `ln x` is a finite double within one unit in the last place of the exact
logarithm. How a table and a polynomial come to that is not looked into here: it is what the rules
for the number of samples rely on, and it is asked for at the few doubles where they take a
logarithm. At a given double it can be decided, by as many terms of a series for the exact logarithm
as it takes (`lnNear_of_series`).
-/

namespace TrajectorySafety.Number

/-- The logarithm of a double is within one unit in the last place, which is at most one part in
`2 ^ 52` of the exact one. -/
structure LnNear (x : Float) : Prop where
  finite : (ln x).isFinite = true
  near : |(value (ln x) : ℝ) - Real.log (value x)| ≤ |Real.log (value x)| / 2 ^ 52

section
variable {x : Float} (h : LnNear x)
include h

theorem LnNear.abs_value_le : |(value (ln x) : ℝ)| ≤ 2 * |Real.log (value x)| := by
  have hnear := h.near
  have hpart : |Real.log (value x)| / 2 ^ 52 ≤ |Real.log (value x)| :=
    div_le_self (abs_nonneg _) (by norm_num)
  have := abs_sub_abs_le_abs_sub (value (ln x) : ℝ) (Real.log (value x))
  linarith

/-- Logarithms of doubles are small numbers. -/
theorem LnNear.abs_value_le_of_half (hfinite : x.isFinite = true) (hx : 1 / 2 ≤ value x) :
    |value (ln x)| ≤ 2 ^ 11 := by
  have hhalf : (1 / 2 : ℝ) ≤ value x := by
    have := (Rat.cast_le (K := ℝ)).2 hx
    push_cast at this
    exact this
  have htwo : Real.log 2 ≤ 1 := by linarith [Real.log_two_lt_d9]
  have hupper : Real.log (value x) ≤ 2 ^ 10 := by
    have hmost : value x ≤ 2 ^ 1024 :=
      calc value x ≤ (2 ^ 53 - 1) * 2 ^ 971 := value_most ▸ value_le_most hfinite
        _ ≤ 2 ^ 53 * 2 ^ 971 := mul_le_mul_of_nonneg_right (by norm_num) (by positivity)
        _ = 2 ^ 1024 := (pow_add 2 53 971).symm
    have hmost' : (value x : ℝ) ≤ 2 ^ 1024 := by exact_mod_cast hmost
    have := Real.log_le_log (by linarith) hmost'
    rw [Real.log_pow] at this
    push_cast at this
    linarith
  have hlower : -1 ≤ Real.log (value x) := by
    have := Real.log_le_log (by norm_num) hhalf
    rw [one_div, Real.log_inv] at this
    linarith
  have hlog : |Real.log (value x)| ≤ 2 ^ 10 := abs_le.2 ⟨by linarith, hupper⟩
  have : |(value (ln x) : ℝ)| ≤ 2 ^ 11 := by linarith [h.abs_value_le]
  exact_mod_cast this

/-- The logarithm of a double above one is not negative. -/
theorem LnNear.nonneg (hx : 1 < value x) : 0 ≤ value (ln x) := by
  have hlog : 0 < Real.log (value x) := Real.log_pos (by exact_mod_cast hx)
  have hnear := (abs_le.1 h.near).1
  rw [abs_of_pos hlog] at hnear
  have hpart : Real.log (value x) / 2 ^ 52 ≤ Real.log (value x) :=
    div_le_self hlog.le (by norm_num)
  have : (0 : ℝ) ≤ value (ln x) := by linarith
  exact_mod_cast this

end

/-! ## A series -/

/-- Terms of the series of `log (1 + t) - log (1 - t)`. -/
def logSum (t : ℚ) : ℕ → ℚ
  | 0 => 0
  | n + 1 => logSum t n + (t ^ (n + 1) - (-t) ^ (n + 1)) / (n + 1)

/-- What the terms left out may add up to. -/
def logTail (t : ℚ) (n : ℕ) : ℚ := 2 * |t| ^ (n + 1) / (1 - |t|)

theorem cast_logSum (t : ℚ) (n : ℕ) :
    (logSum t n : ℝ) = ∑ i ∈ Finset.range n, (t : ℝ) ^ (i + 1) / (i + 1) -
      ∑ i ∈ Finset.range n, (-t : ℝ) ^ (i + 1) / (i + 1) := by
  induction n with
  | zero => simp [logSum]
  | succ n ih =>
    rw [logSum, Finset.sum_range_succ, Finset.sum_range_succ]
    push_cast
    rw [ih]
    ring

theorem abs_log_sub_logSum_le {p t : ℚ} (hp : 0 < p) (ht : t = (p - 1) / (p + 1)) (n : ℕ) :
    |Real.log p - logSum t n| ≤ logTail t n := by
  have hp' : (0 : ℝ) < p := by exact_mod_cast hp
  have hsmall : |t| < 1 := by
    rw [ht, abs_div, abs_of_pos (by linarith : 0 < p + 1), div_lt_one (by linarith), abs_lt]
    constructor <;> linarith
  have hsmall' : |(t : ℝ)| < 1 := by exact_mod_cast hsmall
  have hminus := Real.abs_log_sub_add_sum_range_le hsmall' n
  have hplus := Real.abs_log_sub_add_sum_range_le ((abs_neg (t : ℝ)).trans_lt hsmall') n
  obtain ⟨hlower, hupper⟩ := abs_lt.1 hsmall'
  have hlog : Real.log p = Real.log (1 - -(t : ℝ)) - Real.log (1 - t) := by
    rw [← Real.log_div (by linarith) (by linarith)]
    congr 1
    rw [eq_div_iff (by linarith), ht]
    push_cast
    field_simp
    ring
  rw [abs_neg] at hplus
  rw [hlog, cast_logSum, logTail]
  push_cast
  rw [mul_div_assoc, two_mul]
  refine LE.le.trans (le_of_eq ?_) ((abs_sub _ _).trans (add_le_add hplus hminus))
  congr 1
  ring

/-- How near a computed logarithm is can be read off the terms of the series. -/
theorem lnNear_of_series {x : Float} {t : ℚ} (n : ℕ) (hfinite : (ln x).isFinite = true)
    (hx : 0 < value x) (ht : t = (value x - 1) / (value x + 1))
    (h : |value (ln x) - logSum t n| + logTail t n ≤ (|logSum t n| - logTail t n) / 2 ^ 52) :
    LnNear x := by
  refine ⟨hfinite, ?_⟩
  have hseries := abs_log_sub_logSum_le hx ht n
  have h' : |(value (ln x) : ℝ) - logSum t n| + logTail t n ≤
      (|(logSum t n : ℝ)| - logTail t n) / 2 ^ 52 := by exact_mod_cast h
  have hsplit := abs_sub_le (value (ln x) : ℝ) (logSum t n) (Real.log (value x))
  have hsize := abs_sub_abs_le_abs_sub (logSum t n : ℝ) (Real.log (value x))
  rw [abs_sub_comm] at hseries
  calc |(value (ln x) : ℝ) - Real.log (value x)|
      ≤ |(value (ln x) : ℝ) - logSum t n| + logTail t n := by linarith
    _ ≤ (|(logSum t n : ℝ)| - logTail t n) / 2 ^ 52 := h'
    _ ≤ |Real.log (value x)| / 2 ^ 52 := by
      refine div_le_div_of_nonneg_right ?_ (by norm_num)
      linarith

end TrajectorySafety.Number
