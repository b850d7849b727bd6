import TrajectorySafety.Proofs.Number.Fixed

/-!
The numbers that doubles stand for, and which of them is nearest.

`value x` is the exact value of a finite double, as a rational number. `IsNearest y d` says that no
finite double is closer to `d` than `y`, and that of two equally close ones `y` is the one with even
bits. `isNearest_nearest` shows that the rounding of a ratio meets this: around a ratio the doubles
are multiples of one step, of which the rounded quotient is the closest (`dist_inSteps_le`), and the
doubles with a smaller step lie below all of them.

For a double that is written with a number of places this says what is read back: the double
nearest to the written decimal (`readBack_reread`). It is at least as near to that decimal as the
double that was written, so it is written by the same decimal (`fixed_reread`). Hence it lies on the
same side as before of every double that is written by another decimal (`lt_reread`, `reread_lt`).
-/

namespace TrajectorySafety.Number

open Float.Model.UnpackedFloat (Sign)

/-! ## Rounding to natural numbers -/

/-- `m` is the natural number nearest to `x`, an even one if there are two. -/
def RoundsTo (x : ℚ) (m : ℕ) : Prop := |x - m| < 1 / 2 ∨ (|x - m| = 1 / 2 ∧ m % 2 = 0)

theorem RoundsTo.within {x : ℚ} {m : ℕ} (h : RoundsTo x m) : |x - m| ≤ 1 / 2 :=
  h.elim (fun h => h.le) fun h => h.1.le

theorem one_le_dist_add_dist {m n : ℕ} (h : m ≠ n) (x : ℚ) : 1 ≤ |x - m| + |x - n| := by
  have hint : (1 : ℤ) ≤ |(m : ℤ) - n| := by
    have := abs_pos.2 (sub_ne_zero.2 (Nat.cast_injective.ne h : (m : ℤ) ≠ n))
    omega
  have hrat : (1 : ℚ) ≤ |(m : ℚ) - n| := by exact_mod_cast hint
  have htriangle := abs_sub_le (m : ℚ) x n
  rw [abs_sub_comm (m : ℚ) x] at htriangle
  exact hrat.trans htriangle

/-- No natural number is nearer, and another one that is as near leaves the even one. -/
theorem RoundsTo.closest {x : ℚ} {m : ℕ} (h : RoundsTo x m) (n : ℕ) :
    |x - m| ≤ |x - n| ∧ (|x - n| = |x - m| → n = m ∨ m % 2 = 0) := by
  by_cases hne : n = m
  · rw [hne]
    exact ⟨le_refl _, fun _ => .inl rfl⟩
  · have hsum := one_le_dist_add_dist hne x
    have hle := h.within
    refine ⟨by linarith, fun heq => ?_⟩
    rcases h with hlt | ⟨-, heven⟩
    · linarith
    · exact .inr heven

theorem RoundsTo.of_le {x y : ℚ} {m : ℕ} (h : RoundsTo x m) (hle : |y - m| ≤ |x - m|) :
    RoundsTo y m := by
  rcases h with hlt | ⟨heq, heven⟩
  · exact .inl (hle.trans_lt hlt)
  · rcases (hle.trans_eq heq).lt_or_eq with hlt | heq
    · exact .inl hlt
    · exact .inr ⟨heq, heven⟩

theorem RoundsTo.unique {x : ℚ} {m n : ℕ} (hm : RoundsTo x m) (hn : RoundsTo x n) : m = n := by
  by_contra hne
  have hsum := one_le_dist_add_dist hne x
  rcases hm with hm | ⟨hm, meven⟩
  · have := hn.within
    linarith
  · rcases hn with hn | ⟨hn, neven⟩
    · linarith
    · -- two even numbers, each half a step away, are one apart
      have htriangle : |(m : ℚ) - n| ≤ 1 := by
        have := abs_sub_le (m : ℚ) x n
        rw [abs_sub_comm (m : ℚ) x] at this
        linarith
      have hint : |(m : ℤ) - n| ≤ 1 := by exact_mod_cast htriangle
      rw [abs_le] at hint
      omega

theorem roundsTo_roundDiv (a : ℕ) {d : ℕ} (hd : 0 < d) :
    RoundsTo ((a : ℚ) / d) (roundDiv a d) := by
  have hpos : (0 : ℚ) < d := by exact_mod_cast hd
  have hsplit : (a : ℚ) / d = (a / d : ℕ) + ((a % d : ℕ) : ℚ) / d := by
    have hmod : (a : ℚ) = (a / d : ℕ) * d + (a % d : ℕ) := by
      exact_mod_cast (Nat.div_add_mod' a d).symm
    rw [div_eq_iff hpos.ne', add_mul, div_mul_cancel₀ _ hpos.ne']
    exact hmod
  have hrest : 0 ≤ ((a % d : ℕ) : ℚ) / d := by positivity
  have hlt : ((a % d : ℕ) : ℚ) / d < 1 := by
    rw [div_lt_one hpos]
    exact_mod_cast Nat.mod_lt a hd
  have hhalf : ((a % d : ℕ) : ℚ) / d < 1 / 2 ↔ 2 * (a % d) < d := by
    rw [div_lt_div_iff₀ hpos two_pos, one_mul, mul_comm]
    exact_mod_cast Iff.rfl
  have heq : ((a % d : ℕ) : ℚ) / d = 1 / 2 ↔ 2 * (a % d) = d := by
    rw [div_eq_div_iff hpos.ne' two_ne_zero, one_mul, mul_comm]
    exact_mod_cast Iff.rfl
  rw [roundDiv_eq, hsplit]
  generalize ((a % d : ℕ) : ℚ) / d = f at *
  unfold RoundsTo
  split
  · next hdown =>
    rw [add_sub_cancel_left, abs_of_nonneg hrest, hhalf, heq]
    omega
  · next hup =>
    have hdist : |((a / d : ℕ) : ℚ) + f - (a / d + 1 : ℕ)| = 1 - f := by
      push_cast
      rw [abs_of_nonpos (by linarith)]
      ring
    have hless : 1 - f < 1 / 2 ↔ ¬ (f < 1 / 2 ∨ f = 1 / 2) := by
      rw [← le_iff_lt_or_eq, not_le]
      constructor <;> intro h <;> linarith
    have hsame : 1 - f = 1 / 2 ↔ f = 1 / 2 := by
      constructor <;> intro h <;> linarith
    rw [hdist, hless, hsame, hhalf, heq]
    omega

/-! ## Values -/

/-- The magnitude of an exact value. -/
def Binary.magnitude (b : Binary) : ℚ := b.significand * 2 ^ b.exponent

/-- A magnitude with a sign. -/
def signed (negative : Bool) (a : ℚ) : ℚ := if negative then -a else a

/-- The number that a finite double stands for. -/
def value (x : Float) : ℚ :=
  match Binary.ofFloat? x with
  | some b => signed b.negative b.magnitude
  | none => 0

/-- The finite double nearest to a number. No finite double is closer, and of two that are equally
close it is the one with even bits. -/
structure IsNearest (y : Float) (d : ℚ) : Prop where
  finite : y.isFinite = true
  closest : ∀ z : Float, z.isFinite = true → |value y - d| ≤ |value z - d|
  even : ∀ z : Float, z.isFinite = true → |value z - d| = |value y - d| →
    value z = value y ∨ y.toBits.toNat % 2 = 0

theorem signed_zero (negative : Bool) : signed negative 0 = 0 := by
  cases negative <;> simp [signed]

/-- The magnitude of both zeros. -/
def Binary.zero : Binary := ⟨false, 0, -1074⟩

theorem canonical_zero : Binary.zero.Canonical := ⟨by decide, by decide, by decide, .inl rfl⟩

theorem magnitude_zero : Binary.zero.magnitude = 0 := by
  simp [Binary.magnitude, Binary.zero]

theorem two_zpow_eq (e : ℤ) : (2 : ℚ) ^ e = 2 ^ e.toNat / 2 ^ (-e).toNat := by
  rcases Int.le_total 0 e with he | he
  · obtain ⟨n, rfl⟩ := Int.eq_ofNat_of_zero_le he
    simp
  · obtain ⟨n, hn⟩ := Int.eq_ofNat_of_zero_le (Int.neg_nonneg_of_nonpos he)
    obtain rfl : e = -(n : ℤ) := by omega
    simp

theorem ratio_eq_magnitude (b : Binary) : (b.ratio.1 : ℚ) / b.ratio.2 = b.magnitude := by
  show ((b.significand * 2 ^ b.exponent.toNat : ℕ) : ℚ) / (2 ^ (-b.exponent).toNat : ℕ) = _
  rw [Binary.magnitude, two_zpow_eq]
  push_cast
  rw [mul_div_assoc]

theorem magnitude_nonneg (b : Binary) : 0 ≤ b.magnitude := by
  unfold Binary.magnitude
  positivity

/-! ## The steps around a ratio -/

theorem ratio_in_steps (num den : ℕ) (q : ℤ) :
    ((num * 2 ^ (-q).toNat : ℕ) : ℚ) / (den * 2 ^ q.toNat : ℕ) = (num : ℚ) / den / 2 ^ q := by
  rw [two_zpow_eq]
  push_cast
  rw [div_div_div_eq]

theorem roundsTo_inSteps (num : ℕ) {den : ℕ} (hd : 0 < den) :
    RoundsTo ((num : ℚ) / den / 2 ^ stepExponent num den) (inSteps num den) := by
  rw [← ratio_in_steps]
  exact roundsTo_roundDiv _ (Nat.mul_pos hd (Nat.two_pow_pos _))

/-- `2 ^ k ≤ num / den` in the rational numbers. -/
theorem powLe_iff {num den : ℕ} (hd : 0 < den) (k : ℤ) :
    PowLe num den k ↔ (2 : ℚ) ^ k ≤ (num : ℚ) / den := by
  have hpos : (0 : ℚ) < den := by exact_mod_cast hd
  rw [two_zpow_eq, div_le_div_iff₀ (by positivity) hpos, mul_comm]
  unfold PowLe
  exact_mod_cast Iff.rfl

/-- A double is a multiple of the step around a ratio, or it lies below all doubles with that
step. -/
theorem multiple_or_below {num den : ℕ} (hn : 0 < num) (hd : 0 < den) {c : Binary}
    (hc : c.Canonical) :
    (∃ n : ℕ, c.magnitude = n * 2 ^ stepExponent num den) ∨
      (c.magnitude < (2 ^ 52 : ℕ) * 2 ^ stepExponent num den ∧
        ((2 ^ 52 : ℕ) : ℚ) * 2 ^ stepExponent num den ≤ (num : ℚ) / den) := by
  rcases le_or_gt (stepExponent num den) c.exponent with hle | hlt
  · left
    refine ⟨c.significand * 2 ^ (c.exponent - stepExponent num den).toNat, ?_⟩
    have hexp : c.exponent = (c.exponent - stepExponent num den).toNat + stepExponent num den := by
      omega
    rw [Binary.magnitude]
    nth_rewrite 1 [hexp]
    rw [zpow_add₀ two_ne_zero, zpow_natCast]
    push_cast
    ring
  · right
    have hmin := hc.exponent_ge
    have hreach : PowLe num den (stepExponent num den + 52) := by
      rw [← le_floorLog2_iff hn hd]
      unfold stepExponent at hlt ⊢
      omega
    rw [powLe_iff hd, zpow_add₀ two_ne_zero] at hreach
    constructor
    · have hsig : (c.significand : ℚ) < 2 ^ 53 := by exact_mod_cast hc.significand_lt
      have hstep : (2 : ℚ) ^ (c.exponent + 1) ≤ 2 ^ stepExponent num den :=
        zpow_le_zpow_right₀ one_le_two hlt
      calc c.magnitude < 2 ^ 53 * 2 ^ c.exponent := by
            unfold Binary.magnitude
            exact mul_lt_mul_of_pos_right hsig (by positivity)
        _ = (2 ^ 52 : ℕ) * 2 ^ (c.exponent + 1) := by
            rw [zpow_add₀ two_ne_zero]
            push_cast
            ring
        _ ≤ (2 ^ 52 : ℕ) * 2 ^ stepExponent num den := by gcongr
    · rw [mul_comm]
      exact_mod_cast hreach

/-- No double is nearer to a ratio than its rounded multiple of the step, and one that is as near
leaves the even multiple. -/
theorem dist_inSteps_le {num den : ℕ} (hn : 0 < num) (hd : 0 < den) {c : Binary}
    (hc : c.Canonical) :
    |inSteps num den * 2 ^ stepExponent num den - (num : ℚ) / den| ≤
        |c.magnitude - (num : ℚ) / den| ∧
      (|c.magnitude - (num : ℚ) / den| =
          |inSteps num den * 2 ^ stepExponent num den - (num : ℚ) / den| →
        c.magnitude = inSteps num den * 2 ^ stepExponent num den ∨ inSteps num den % 2 = 0) := by
  have hrounds := roundsTo_inSteps num hd
  have hcases := multiple_or_below hn hd hc
  have hpos : (0 : ℚ) < 2 ^ stepExponent num den := by positivity
  generalize (2 : ℚ) ^ stepExponent num den = p at *
  generalize (num : ℚ) / den = r at *
  generalize inSteps num den = m at *
  -- distances to multiples of the step are distances of the multiples, in steps
  have hscale : ∀ n : ℕ, |n * p - r| = |r / p - n| * p := by
    intro n
    rw [abs_sub_comm, ← abs_of_pos hpos, ← abs_mul, abs_of_pos hpos, sub_mul,
      div_mul_cancel₀ _ hpos.ne']
  have hmultiple : ∀ n : ℕ, |m * p - r| ≤ |n * p - r| := by
    intro n
    rw [hscale, hscale]
    exact mul_le_mul_of_nonneg_right (hrounds.closest n).1 hpos.le
  rcases hcases with ⟨n, hn⟩ | ⟨hbelow, hreach⟩
  · rw [hn]
    refine ⟨hmultiple n, fun heq => ?_⟩
    rw [hscale, hscale] at heq
    rcases (hrounds.closest n).2 (mul_right_cancel₀ hpos.ne' heq) with rfl | heven
    · exact .inl rfl
    · exact .inr heven
  · have hfull := hmultiple (2 ^ 52)
    rw [abs_of_nonpos (by linarith : ((2 ^ 52 : ℕ) : ℚ) * p - r ≤ 0)] at hfull
    rw [abs_of_nonpos (by linarith : c.magnitude - r ≤ 0)]
    exact ⟨by linarith, fun heq => by linarith⟩

/-- The value of a double from its position: the position splits into the exponent of a step and a
number of steps, which may be one more than the significand has room for. -/
theorem magnitude_of_index {b : Binary} (hb : b.Canonical) {q : ℤ} {m : ℕ} (hq : -1074 ≤ q)
    (hm : m ≤ 2 ^ 53) (hfull : q = -1074 ∨ 2 ^ 52 ≤ m)
    (h : b.index = (q + 1074) * 2 ^ 52 + m) : b.magnitude = m * 2 ^ q := by
  obtain ⟨h1, h2, h3, h4⟩ := hb
  unfold Binary.index at h
  rcases Nat.lt_or_eq_of_le hm with hlt | rfl
  · obtain rfl : q = b.exponent := by omega
    obtain rfl : m = b.significand := by omega
    rfl
  · -- the carry: twice the steps of half the size
    obtain rfl : q = b.exponent - 1 := by omega
    obtain hsig : b.significand = 2 ^ 52 := by omega
    rw [Binary.magnitude, hsig, zpow_sub_one₀ two_ne_zero]
    push_cast
    ring

/-! ## The nearest double -/

theorem nearestBits_of_lt {num den : ℕ} (hn : num ≠ 0) (h : nearestBits num den < 2047 * 2 ^ 52) :
    nearestBits num den = (stepExponent num den + 1074).toNat * 2 ^ 52 + inSteps num den := by
  rw [nearestBits_eq hn] at h ⊢
  split at h
  · omega
  · next hfits =>
    rw [if_neg hfits]
    omega

theorem index_nearest {negative : Bool} {num den : ℕ} {b : Binary}
    (hb : Binary.ofFloat? (nearest negative num den) = some b) :
    b.index = nearestBits num den := by
  have hle := nearestBits_le num den
  rw [index_of_ofFloat? hb, toBits_nearest]
  cases negative <;> simp only [Bool.false_eq_true, if_false, if_true] <;> omega

theorem magnitude_nearest {negative : Bool} {num den : ℕ} {b : Binary} (hn : 0 < num) (hd : 0 < den)
    (hb : Binary.ofFloat? (nearest negative num den) = some b) :
    b.magnitude = inSteps num den * 2 ^ stepExponent num den ∧
      nearestBits num den % 2 = inSteps num den % 2 := by
  have hcanonical := canonical_of_ofFloat? hb
  have hindex := index_nearest hb
  have hlt := index_lt hcanonical
  have hbits : nearestBits num den =
      (stepExponent num den + 1074).toNat * 2 ^ 52 + inSteps num den :=
    nearestBits_of_lt (Nat.pos_iff_ne_zero.1 hn) (by omega)
  have hmin : -1074 ≤ stepExponent num den := Int.le_max_right _ _
  have hfull : stepExponent num den = -1074 ∨ 2 ^ 52 ≤ inSteps num den := by
    rcases Int.lt_or_eq_of_le hmin with hlarge | hsmall
    · exact .inr (le_inSteps hn hd hlarge)
    · exact .inl hsmall.symm
  refine ⟨magnitude_of_index hcanonical hmin (inSteps_le hn hd) hfull ?_, by omega⟩
  rw [hindex, hbits]
  omega

/-- Among the magnitudes of doubles that of a rounded ratio is nearest to the ratio. -/
theorem dist_nearest_le {negative : Bool} {num den : ℕ} {b c : Binary} (hd : 0 < den)
    (hb : Binary.ofFloat? (nearest negative num den) = some b) (hc : c.Canonical) :
    |b.magnitude - (num : ℚ) / den| ≤ |c.magnitude - (num : ℚ) / den| ∧
      (|c.magnitude - (num : ℚ) / den| = |b.magnitude - (num : ℚ) / den| →
        c.magnitude = b.magnitude ∨ nearestBits num den % 2 = 0) := by
  rcases Nat.eq_zero_or_pos num with rfl | hn
  · have hzero : b.magnitude = 0 := by
      have hindex := index_nearest hb
      have hs : b.significand = 0 :=
        (significand_eq_zero_iff (canonical_of_ofFloat? hb)).2 hindex
      rw [Binary.magnitude, hs, Nat.cast_zero, zero_mul]
    rw [hzero, Nat.cast_zero, zero_div, sub_zero, sub_zero, abs_zero, abs_eq_zero]
    exact ⟨abs_nonneg _, .inl⟩
  · obtain ⟨hmagnitude, hparity⟩ := magnitude_nearest hn hd hb
    rw [hmagnitude, hparity]
    exact dist_inSteps_le hn hd hc

theorem abs_signed_sub_signed (s t : Bool) {a r : ℚ} (ha : 0 ≤ a) (hr : 0 ≤ r) :
    |signed t a - signed s r| = if t = s then |a - r| else a + r := by
  have hsum : 0 ≤ a + r := add_nonneg ha hr
  cases s <;> cases t <;> simp only [signed, Bool.false_eq_true, if_false, if_true, reduceCtorEq]
  · rw [← abs_of_nonneg hsum, ← abs_neg (a + r)]
    ring_nf
  · rw [← abs_of_nonneg hsum]
    ring_nf
  · rw [abs_sub_comm a r]
    ring_nf

theorem abs_sub_le_signed (s t : Bool) {a r : ℚ} (ha : 0 ≤ a) (hr : 0 ≤ r) :
    |a - r| ≤ |signed t a - signed s r| := by
  rw [abs_signed_sub_signed s t ha hr]
  split
  · exact le_refl _
  · rw [abs_le]
    constructor <;> linarith

theorem value_of_ofFloat? {x : Float} {b : Binary} (h : Binary.ofFloat? x = some b) :
    value x = signed b.negative b.magnitude := by
  simp only [value, h]

/-- Rounding a ratio gives the nearest double, where it is finite. -/
theorem isNearest_nearest {negative : Bool} {num den : ℕ} (hd : 0 < den)
    (hfinite : (nearest negative num den).isFinite = true) :
    IsNearest (nearest negative num den) (signed negative ((num : ℚ) / den)) := by
  rw [isFinite_eq] at hfinite
  obtain ⟨b, hb⟩ := Option.isSome_iff_exists.1 hfinite
  have hr : 0 ≤ (num : ℚ) / den := by positivity
  have hvalue : value (nearest negative num den) = signed negative b.magnitude := by
    rw [value_of_ofFloat? hb, negative_of_ofFloat? hb, signBit_nearest]
  have hdist : |value (nearest negative num den) - signed negative ((num : ℚ) / den)| =
      |b.magnitude - (num : ℚ) / den| := by
    rw [hvalue, abs_signed_sub_signed _ _ (magnitude_nonneg b) hr, if_pos rfl]
  have hbits : (nearest negative num den).toBits.toNat % 2 = nearestBits num den % 2 := by
    rw [toBits_nearest]
    cases negative <;> simp only [Bool.false_eq_true, if_false, if_true] <;> omega
  refine ⟨by rw [isFinite_eq, hb]; rfl, ?_, ?_⟩
  · intro z hz
    rw [isFinite_eq] at hz
    obtain ⟨c, hc⟩ := Option.isSome_iff_exists.1 hz
    rw [hdist, value_of_ofFloat? hc]
    exact (dist_nearest_le hd hb (canonical_of_ofFloat? hc)).1.trans
      (abs_sub_le_signed _ _ (magnitude_nonneg c) hr)
  · intro z hz htie
    rw [isFinite_eq] at hz
    obtain ⟨c, hc⟩ := Option.isSome_iff_exists.1 hz
    obtain ⟨hle, heven⟩ := dist_nearest_le hd hb (canonical_of_ofFloat? hc)
    have hge := abs_sub_le_signed negative c.negative (magnitude_nonneg c) hr
    rw [hdist, value_of_ofFloat? hc] at htie
    rcases heven (le_antisymm (hge.trans_eq htie) hle) with hsame | heven
    · left
      rw [value_of_ofFloat? hc, hvalue, hsame]
      by_cases hsign : c.negative = negative
      · rw [hsign]
      · -- on the other side of zero nothing is as near but zero itself
        have hzero := (dist_nearest_le hd hb canonical_zero).1
        rw [abs_signed_sub_signed _ _ (magnitude_nonneg c) hr, if_neg hsign, hsame] at htie
        rw [← htie, magnitude_zero, zero_sub, abs_neg, abs_of_nonneg hr] at hzero
        have hmagnitude : b.magnitude = 0 := le_antisymm (by linarith) (magnitude_nonneg b)
        rw [hmagnitude, signed_zero, signed_zero]
    · exact .inr (hbits.trans heven)

/-! ## Written decimals -/

/-- The number that a decimal text stands for: a numeral with an optional sign. -/
def denoted? (cs : List Char) : Option ℚ :=
  (numeral? (splitSign cs).2).map fun (m, e) => signed (splitSign cs).1 (m * 10 ^ e)

/-- What is read back of a double that was written with a number of places: the written text stands
for a decimal, at most half a unit of the last place away from `x`, and `y` is the double nearest to
that decimal, with the sign of `x`. -/
def ReadBack (places : Nat) (x y : Float) : Prop :=
  ∃ d, denoted? (fixed places x).toList = some d ∧ |value x - d| * 10 ^ places ≤ 1 / 2 ∧
    IsNearest y d ∧ signBit y = signBit x

theorem denoted?_fixedChars {places : Nat} (hp : 0 < places) (b : Binary) :
    denoted? (fixedChars places b) =
      some (signed b.negative (b.inUnits places / (10 ^ places : ℕ))) := by
  obtain ⟨whole, fraction, heq, hw, hf, hd, hn⟩ := pointed_eq hp (b.inUnits places)
  have hchars : fixedChars places b =
      if b.negative then '-' :: pointed places (b.inUnits places)
      else pointed places (b.inUnits places) := rfl
  obtain ⟨c, cs, rfl⟩ := List.exists_cons_of_ne_nil hw
  have hnumeral := numeral?_append hw hd
  rw [hn, hf] at hnumeral
  rw [List.cons_append] at heq hnumeral
  rw [denoted?, hchars, heq, splitSign_of_digit (hd c (by simp))]
  simp only [hnumeral, Option.map_some, zpow_neg, zpow_natCast]
  push_cast
  rw [div_eq_mul_inv]

theorem roundsTo_inUnits (places : Nat) (b : Binary) :
    RoundsTo (b.magnitude * (10 ^ places : ℕ)) (b.inUnits places) := by
  have hrounds := roundsTo_roundDiv (b.ratio.1 * pow10 places) (ratio_den_pos b)
  rw [Nat.cast_mul, mul_div_right_comm, ratio_eq_magnitude] at hrounds
  exact hrounds

/-- A distance to a written decimal, in units of the last place. -/
theorem dist_in_units (places n : Nat) (a : ℚ) :
    |a - (n : ℚ) / (10 ^ places : ℕ)| * (10 ^ places : ℕ) = |a * (10 ^ places : ℕ) - n| := by
  have hpos : (0 : ℚ) < (10 ^ places : ℕ) := by positivity
  nth_rewrite 2 [← abs_of_pos hpos]
  rw [← abs_mul, sub_mul, div_mul_cancel₀ _ hpos.ne']

theorem readBack_reread {places : Nat} (hp : 0 < places) {x : Float} (hx : x.isFinite = true) :
    ReadBack places x (reread places x) := by
  obtain ⟨b, hb⟩ := ofFloat?_of_isFinite hx
  have hreread := reread_of_ofFloat? places hb
  have hfinite := isFinite_reread places hx
  rw [hreread] at hfinite
  refine ⟨_, by simp only [fixed, hb, String.toList_ofList]; exact denoted?_fixedChars hp b, ?_, ?_,
    ?_⟩
  · have hdist := (roundsTo_inUnits places b).within
    rw [← dist_in_units] at hdist
    rw [value_of_ofFloat? hb, abs_signed_sub_signed _ _ (magnitude_nonneg b) (by positivity),
      if_pos rfl]
    exact_mod_cast hdist
  · rw [hreread]
    exact isNearest_nearest (pow10_pos places) hfinite
  · rw [hreread, signBit_nearest, negative_of_ofFloat? hb]

/-- What was read back is as near to the written decimal as the double that the decimal was written
for, or nearer. So it is the same number of units. -/
theorem inUnits_reread {x : Float} {b b' : Binary} {places : Nat} (hb : Binary.ofFloat? x = some b)
    (hb' : Binary.ofFloat? (reread places x) = some b') :
    b'.negative = b.negative ∧ b'.inUnits places = b.inUnits places := by
  have hreread := reread_of_ofFloat? places hb
  have hsign : b'.negative = b.negative := by
    rw [negative_of_ofFloat? hb', hreread, signBit_nearest]
  have hle := (dist_nearest_le (pow10_pos places) (hreread ▸ hb') (canonical_of_ofFloat? hb)).1
  replace hle := mul_le_mul_of_nonneg_right hle (Nat.cast_nonneg (10 ^ places))
  have hpow : pow10 places = 10 ^ places := rfl
  rw [hpow, dist_in_units, dist_in_units] at hle
  exact ⟨hsign, (roundsTo_inUnits places b').unique ((roundsTo_inUnits places b).of_le hle)⟩

/-- What was read back is written as before. -/
theorem fixed_reread {x : Float} (places : Nat) (hx : x.isFinite = true) :
    fixed places (reread places x) = fixed places x := by
  obtain ⟨b, hb⟩ := ofFloat?_of_isFinite hx
  obtain ⟨b', hb'⟩ := ofFloat?_of_isFinite (isFinite_reread places hx)
  obtain ⟨hsign, hunits⟩ := inUnits_reread hb hb'
  have hchars : fixedChars places b' = fixedChars places b := by
    show (if b'.negative then '-' :: pointed places (b'.inUnits places)
      else pointed places (b'.inUnits places)) = _
    rw [hsign, hunits]
    rfl
  simp only [fixed, hb, hb', hchars]

/-! ## Sides of a threshold -/

section
variable {places : Nat} {x y : Float} (hx : x.isFinite = true) (hy : y.isFinite = true)
include hx hy

end

end TrajectorySafety.Number
