import TrajectorySafety.Proofs.Number.Sums

/-!
Products and quotients of doubles.

As for sums, a product of finite doubles is the double nearest to the exact product
(`rank_mul_eq`), and a quotient that nearest to the exact quotient (`rank_div_eq`): the division
computes enough digits and keeps what is needed of the rest, so that nothing is rounded twice. The
fused product and sum has a single rounding too (`rank_fusedMulAdd`).

How far the nearest double is from a number is said by `abs_value_sub_le`: by one part in `2 ^ 53`,
or half the smallest step where numbers are that small.
-/

namespace TrajectorySafety.Number

open Float.Model (UnpackedFloat Format totalExponent)
open Float.Model.UnpackedFloat

/-! ## Products -/

theorem round_eq_roundWithAccuracy (s : Sign) {m : Nat} (hm : 0 < m) {e : Int}
    (h : e ≤ stepExponent (m * 2 ^ e.toNat) (2 ^ (-e).toNat)) :
    UnpackedFloat.round .binary64 s m e = roundWithAccuracy .binary64 s m e .exact := by
  have hshift : (e - Format.binary64.targetExponent (totalExponent m e)).toNat = 0 := by
    rw [targetExponent_eq hm]
    omega
  unfold UnpackedFloat.round decreaseExponent
  simp only [hshift, Nat.shiftLeft_zero, Int.natCast_zero, Int.sub_zero]

/-- The exact product of two significands is never longer than the format asks for. -/
theorem product_exponent_le {a b : Binary} (ha : a.Canonical) (hb : b.Canonical)
    (ha0 : 0 < a.significand) (hb0 : 0 < b.significand) :
    a.exponent + b.exponent ≤ stepExponent
      (a.significand * b.significand * 2 ^ (a.exponent + b.exponent).toNat)
      (2 ^ (-(a.exponent + b.exponent)).toNat) := by
  have hpos := Nat.mul_pos ha0 hb0
  rw [stepExponent, floorLog2_scaled hpos]
  by_cases hfull : 2 ^ 52 ≤ a.significand ∨ 2 ^ 52 ≤ b.significand
  · have hlong : 2 ^ 52 ≤ a.significand * b.significand :=
      hfull.elim (fun h => h.trans (Nat.le_mul_of_pos_right _ hb0))
        fun h => h.trans (Nat.le_mul_of_pos_left _ ha0)
    have := (Nat.le_log2 hpos.ne').2 hlong
    omega
  · have := ha.full
    have := hb.full
    omega

theorem packsTo_mul (s t : Sign) {a b : Binary} (ha : a.Canonical) (hb : b.Canonical) :
    PacksTo (UnpackedFloat.mul .binary64 (a.unpacked s) (b.unpacked t))
      (rankAt ((s * t).apply (a.significand * b.significand : Nat)) (a.exponent + b.exponent)) := by
  have hzero (u : Sign) (h : a.significand * b.significand = 0) :
      PacksTo (.zero u) (rankAt ((s * t).apply (a.significand * b.significand : Nat))
        (a.exponent + b.exponent)) := by
    rw [rankAt_apply, h, Nat.zero_mul, nearestBits_zero]
    cases s * t <;> exact packsTo_zero u
  unfold Binary.unpacked
  by_cases ha0 : a.significand = 0
  · rw [dif_pos ha0]
    by_cases hb0 : b.significand = 0
    · rw [dif_pos hb0]
      exact hzero (s * t) (by rw [ha0, Nat.zero_mul])
    · rw [dif_neg hb0]
      exact hzero (s * t) (by rw [ha0, Nat.zero_mul])
  · rw [dif_neg ha0]
    by_cases hb0 : b.significand = 0
    · rw [dif_pos hb0]
      exact hzero (s * t) (by rw [hb0, Nat.mul_zero])
    · rw [dif_neg hb0]
      have ha0 := Nat.pos_of_ne_zero ha0
      have hb0 := Nat.pos_of_ne_zero hb0
      have hround := packsTo_round (s * t) (Nat.mul_pos ha0 hb0) (a.exponent + b.exponent)
      rwa [round_eq_roundWithAccuracy _ (Nat.mul_pos ha0 hb0)
        (product_exponent_le ha hb ha0 hb0)] at hround

/-! ## Quotients -/

/-- The exponent down to which the division of `m * 2 ^ e` by `n * 2 ^ f` computes digits. -/
def divisionExponent (m n : Nat) (e f : Int) : Int :=
  min (e - f) (max ((m.log2 : Int) + e - n.log2 - f - 53) (-1074))

section
variable {m n : Nat} (hn : 0 < n) (e f : Int)

theorem divCore_eq (m n : Nat) (e f : Int) :
    divCore .binary64 m e n f =
      (m <<< (e - f - divisionExponent m n e f).toNat / n, divisionExponent m n e f,
        accuracyOfFraction (m <<< (e - f - divisionExponent m n e f).toNat % n) n) := by
  have htarget : min (e - f) (Format.binary64.targetExponent
      (totalExponent m e - totalExponent n f)) = divisionExponent m n e f := by
    show min _ (max ((m.log2 : Int) + 1 + e - (n.log2 + 1 + f) - 53) (3 - 1024 - 53)) = _
    unfold divisionExponent
    omega
  unfold divCore
  simp only [htarget]

include hn

/-- From the exponent of the division on, the powers of two below the exact quotient are those
below the computed digits. -/
theorem powLe_quotient_iff {k : Int} (hk : divisionExponent m n e f ≤ k) :
    PowLe (m * 2 ^ (e - f).toNat) (n * 2 ^ (f - e).toNat) k ↔
      2 ^ (k - divisionExponent m n e f).toNat ≤
        m <<< (e - f - divisionExponent m n e f).toNat / n := by
  have hle : divisionExponent m n e f ≤ e - f := Int.min_le_left _ _
  generalize divisionExponent m n e f = t at hk hle ⊢
  have hpow : 2 ^ (f - e).toNat * 2 ^ k.toNat * 2 ^ (e - f - t).toNat =
      2 ^ (k - t).toNat * (2 ^ (e - f).toNat * 2 ^ (-k).toNat) := by
    rw [← Nat.pow_add, ← Nat.pow_add, ← Nat.pow_add, ← Nat.pow_add]
    congr 1
    omega
  have hpos : 0 < 2 ^ (e - f).toNat * 2 ^ (-k).toNat :=
    Nat.mul_pos (Nat.two_pow_pos _) (Nat.two_pow_pos _)
  have hleft : n * (2 ^ (k - t).toNat * (2 ^ (e - f).toNat * 2 ^ (-k).toNat)) =
      2 ^ (k - t).toNat * n * (2 ^ (e - f).toNat * 2 ^ (-k).toNat) := by ring
  have hright : m * 2 ^ (e - f).toNat * 2 ^ (-k).toNat * 2 ^ (e - f - t).toNat =
      m * 2 ^ (e - f - t).toNat * (2 ^ (e - f).toNat * 2 ^ (-k).toNat) := by ring
  rw [Nat.le_div_iff_mul_le hn, Nat.shiftLeft_eq, PowLe,
    ← Nat.mul_le_mul_right_iff (Nat.two_pow_pos (e - f - t).toNat), Nat.mul_assoc n,
    Nat.mul_assoc n, hpow, hleft, hright, Nat.mul_le_mul_right_iff hpos]

variable (hm : 0 < m)
include hm

/-- The digits of a quotient are as many as the format asks for, unless it is among the smallest
numbers. -/
theorem le_digits (h : -1074 < divisionExponent m n e f) :
    2 ^ 52 ≤ m <<< (e - f - divisionExponent m n e f).toNat / n := by
  have hlow : 2 ^ m.log2 ≤ m := Nat.log2_self_le hm.ne'
  have hhigh : n < 2 ^ (n.log2 + 1) := Nat.lt_log2_self
  rw [Nat.le_div_iff_mul_le hn, Nat.shiftLeft_eq]
  calc 2 ^ 52 * n ≤ 2 ^ 52 * 2 ^ (n.log2 + 1) := Nat.mul_le_mul_left _ hhigh.le
    _ = 2 ^ (n.log2 + 53) := by rw [← Nat.pow_add]; congr 1; omega
    _ ≤ 2 ^ (m.log2 + (e - f - divisionExponent m n e f).toNat) := by
      refine Nat.pow_le_pow_right two_pos ?_
      unfold divisionExponent at h ⊢
      omega
    _ = 2 ^ m.log2 * 2 ^ (e - f - divisionExponent m n e f).toNat := Nat.pow_add ..
    _ ≤ m * 2 ^ (e - f - divisionExponent m n e f).toNat := Nat.mul_le_mul_right _ hlow

/-- The computed digits ask for the exponent of the step around the exact quotient, and it is not
below theirs. -/
theorem targetExponent_quotient :
    Format.binary64.targetExponent
        (totalExponent (m <<< (e - f - divisionExponent m n e f).toNat / n)
          (divisionExponent m n e f)) =
      stepExponent (m * 2 ^ (e - f).toNat) (n * 2 ^ (f - e).toNat) ∧
    divisionExponent m n e f ≤
      stepExponent (m * 2 ^ (e - f).toNat) (n * 2 ^ (f - e).toNat) := by
  have hnum : 0 < m * 2 ^ (e - f).toNat := Nat.mul_pos hm (Nat.two_pow_pos _)
  have hden : 0 < n * 2 ^ (f - e).toNat := Nat.mul_pos hn (Nat.two_pow_pos _)
  have hpow (k : Int) (hk : divisionExponent m n e f ≤ k) :=
    (le_floorLog2_iff hnum hden k).trans (powLe_quotient_iff hn e f hk)
  have hlong := le_digits hn e f hm
  have htarget (q : Nat) (t : Int) : Format.binary64.targetExponent (totalExponent q t) =
      max ((q.log2 : Int) + t - 52) (-1074) := by
    show max ((q.log2 : Int) + 1 + t - 53) (3 - 1024 - 53) = _
    omega
  rw [htarget, stepExponent]
  generalize m <<< (e - f - divisionExponent m n e f).toNat / n = q at hpow hlong ⊢
  generalize divisionExponent m n e f = t at hpow hlong ⊢
  generalize floorLog2 (m * 2 ^ (e - f).toNat) (n * 2 ^ (f - e).toNat) = l at hpow ⊢
  rcases Nat.eq_zero_or_pos q with rfl | hq
  · -- no digits at all: the quotient is below the smallest step
    have hbelow : ¬ t ≤ l := fun h => absurd ((hpow t (Int.le_refl t)).1 h) (by simp)
    have hmin : t ≤ -1074 := by
      by_contra h
      exact absurd (hlong (by omega)) (by decide)
    simp only [Nat.log2_zero]
    omega
  · have hlog : l = q.log2 + t := by
      have hle : (q.log2 : Int) + t ≤ l := (hpow _ (by omega)).2 (by
        rw [show ((q.log2 : Int) + t - t).toNat = q.log2 by omega]
        exact Nat.log2_self_le hq.ne')
      have hlt : ¬ (q.log2 : Int) + 1 + t ≤ l := fun h => by
        have := (hpow _ (by omega)).1 h
        rw [show ((q.log2 : Int) + 1 + t - t).toNat = q.log2 + 1 by omega] at this
        exact absurd this (Nat.not_le.2 Nat.lt_log2_self)
      omega
    have hfull : -1074 < t → 52 ≤ q.log2 := fun h => (Nat.le_log2 hq.ne').2 (hlong h)
    omega

theorem toNat_pack_div (s : Sign) :
    (UnpackedFloat.pack .binary64 (roundWithAccuracy .binary64 s
      (divCore .binary64 m e n f).1 (divCore .binary64 m e n f).2.1
      (divCore .binary64 m e n f).2.2)).toNat =
      s.toBitVec.toNat * 2 ^ 63 +
        nearestBits (m * 2 ^ (e - f).toNat) (n * 2 ^ (f - e).toNat) := by
  have hnum : 0 < m * 2 ^ (e - f).toNat := Nat.mul_pos hm (Nat.two_pow_pos _)
  have hden : 0 < n * 2 ^ (f - e).toNat := Nat.mul_pos hn (Nat.two_pow_pos _)
  obtain ⟨htarget, hle⟩ := targetExponent_quotient hn e f hm
  have hmin : divisionExponent m n e f ≤ e - f := Int.min_le_left _ _
  rw [divCore_eq]
  have hkept := (shifted_fraction (m <<< (e - f - divisionExponent m n e f).toNat) hn).shiftRight hn
    (stepExponent (m * 2 ^ (e - f).toNat) (n * 2 ^ (f - e).toNat) -
      divisionExponent m n e f).toNat
  refine toNat_pack_of_inSteps s hnum hden ?_
    ((hkept.roundedMantissa_eq (Nat.mul_pos hn (Nat.two_pow_pos _))).trans ?_)
  · unfold shiftToTargetExponent shiftToExponent
    simp only [htarget]
    congr 1
    omega
  · rw [inSteps]
    refine roundDiv_congr (Nat.mul_pos hn (Nat.two_pow_pos _))
      (Nat.mul_pos hden (Nat.two_pow_pos _)) ?_
    generalize stepExponent (m * 2 ^ (e - f).toNat) (n * 2 ^ (f - e).toNat) = k at hle ⊢
    generalize divisionExponent m n e f = t at hle hmin ⊢
    have hpow : 2 ^ (e - f - t).toNat * (2 ^ (f - e).toNat * 2 ^ k.toNat) =
        2 ^ (e - f).toNat * 2 ^ (-k).toNat * 2 ^ (k - t).toNat := by
      rw [← Nat.pow_add, ← Nat.pow_add, ← Nat.pow_add, ← Nat.pow_add]
      congr 1
      omega
    calc m <<< (e - f - t).toNat * (n * 2 ^ (f - e).toNat * 2 ^ k.toNat)
        = m * n * (2 ^ (e - f - t).toNat * (2 ^ (f - e).toNat * 2 ^ k.toNat)) := by
          rw [Nat.shiftLeft_eq]; ring
      _ = m * n * (2 ^ (e - f).toNat * 2 ^ (-k).toNat * 2 ^ (k - t).toNat) := by rw [hpow]
      _ = m * 2 ^ (e - f).toNat * 2 ^ (-k).toNat * (n * 2 ^ (k - t).toNat) := by ring

end

theorem packsTo_div (s t : Sign) (a : Binary) {b : Binary} (hb : 0 < b.significand) :
    PacksTo (UnpackedFloat.div .binary64 (a.unpacked s) (b.unpacked t))
      (ratioRank ((s / t).apply (a.significand * 2 ^ (a.exponent - b.exponent).toNat : Nat))
        (b.significand * 2 ^ (b.exponent - a.exponent).toNat)) := by
  rw [ratioRank_apply]
  unfold Binary.unpacked
  rw [dif_neg hb.ne']
  by_cases ha : a.significand = 0
  · rw [dif_pos ha, ha, Nat.zero_mul, nearestBits_zero]
    cases s / t <;> exact packsTo_zero _
  · rw [dif_neg ha]
    exact ⟨s / t, _, nearestBits_le _ _, rfl,
      toNat_pack_div hb a.exponent b.exponent (Nat.pos_of_ne_zero ha) (s / t)⟩

/-! ## Values -/

theorem apply_mul (s t : Sign) (m n : Int) : (s * t).apply (m * n) = s.apply m * t.apply n := by
  cases s <;> cases t
  · exact (Int.neg_mul_neg m n).symm
  · exact (Int.neg_mul m n).symm
  · exact (Int.mul_neg m n).symm
  · rfl

/-- A sign that is divided out comes back with the divisor. -/
theorem apply_div_mul (s t : Sign) (m n : Int) :
    (s / t).apply m * t.apply n = s.apply m * n := by
  cases s <;> cases t
  · exact Int.mul_neg m n |>.trans (Int.neg_mul m n).symm
  · rfl
  · exact Int.neg_mul_neg m n
  · rfl

section
variable {x y z : Float} {a b : Binary}

theorem unpack_of_ofFloat? (hx : Binary.ofFloat? x = some a) :
    x.toModel.unpack = a.unpacked (sign x) := by
  rw [unpack_toModel, hx]

theorem value_eq_apply (hx : Binary.ofFloat? x = some a) :
    value x = ((sign x).apply a.significand : ℤ) * 2 ^ a.exponent := by
  have h := units_mul hx (Int.le_refl _)
  rw [Binary.units, Int.sub_self, Int.toNat_zero, Nat.pow_zero, Nat.mul_one] at h
  exact h.symm

theorem isFinite_zero : (0 : Float).isFinite = true := by decide

theorem isFinite_one : (1 : Float).isFinite = true := by decide

theorem isFinite_two : (2 : Float).isFinite = true := by decide

theorem value_zero : value 0 = 0 := by
  rw [value_of_ofFloat? (x := 0) (b := ⟨false, 0, -1074⟩) (by decide)]
  norm_num [signed, Binary.magnitude]

theorem value_one : value 1 = 1 := by
  rw [value_of_ofFloat? (x := 1) (b := ⟨false, 2 ^ 52, -52⟩) (by decide)]
  norm_num [signed, Binary.magnitude]

theorem value_two : value 2 = 2 := by
  rw [value_of_ofFloat? (x := 2) (b := ⟨false, 2 ^ 52, -51⟩) (by decide)]
  norm_num [signed, Binary.magnitude]

/-- The largest double below one. -/
def belowOne : Float := Float.ofBits 0x3fefffffffffffff

theorem value_belowOne : value belowOne = 1 - 1 / 2 ^ 53 := by
  rw [value_of_ofFloat? (x := belowOne) (b := ⟨false, 2 ^ 53 - 1, -53⟩) (by decide)]
  norm_num [signed, Binary.magnitude]

theorem le_belowOne (h : x < 1) : x ≤ belowOne := by
  have hone : rank 1 = rank belowOne + 1 := by decide
  obtain ⟨hnan, -, hrank⟩ := (lt_iff _ _).1 h
  exact (le_iff _ _).2 ⟨hnan, by decide, by omega⟩

theorem lt_iff_value (hx : x.isFinite = true) (hy : y.isFinite = true) :
    x < y ↔ value x < value y := by
  rw [← not_le, ← le_iff_value hy hx]
  exact ⟨not_le_of_lt, lt_of_not_le (isNaN_of_isFinite hx) (isNaN_of_isFinite hy)⟩

theorem rank_mul_eq (hx : x.isFinite = true) (hy : y.isFinite = true) :
    rank (x * y) = rankOf (value x * value y) ∧ (x * y).isNaN = false := by
  obtain ⟨a, ha⟩ := ofFloat?_of_isFinite hx
  obtain ⟨b, hb⟩ := ofFloat?_of_isFinite hy
  have hproduct : value x * value y =
      ((sign x * sign y).apply (a.significand * b.significand : Nat) : ℤ) *
        2 ^ (a.exponent + b.exponent) := by
    rw [value_eq_apply ha, value_eq_apply hb, zpow_add₀ two_ne_zero, Int.natCast_mul, apply_mul]
    push_cast
    ring
  rw [hproduct, ← rankAt_eq]
  refine rank_of_packsTo (packsTo_mul (sign x) (sign y) (canonical_of_ofFloat? ha)
    (canonical_of_ofFloat? hb)) ?_
  rw [← unpack_of_ofFloat? ha, ← unpack_of_ofFloat? hb]
  rfl

theorem rank_div_eq (hx : x.isFinite = true) (hy : y.isFinite = true) (h : value y ≠ 0) :
    rank (x / y) = rankOf (value x / value y) ∧ (x / y).isNaN = false := by
  obtain ⟨a, ha⟩ := ofFloat?_of_isFinite hx
  obtain ⟨b, hb⟩ := ofFloat?_of_isFinite hy
  have hpos : 0 < b.significand := by
    refine Nat.pos_of_ne_zero fun h0 => h ?_
    rw [value_of_ofFloat? hb, Binary.magnitude, h0, Nat.cast_zero, zero_mul, signed_zero]
  have hquotient : value x / value y =
      ((sign x / sign y).apply (a.significand * 2 ^ (a.exponent - b.exponent).toNat : Nat) : ℤ) /
        (b.significand * 2 ^ (b.exponent - a.exponent).toNat : Nat) := by
    have hden : ((b.significand * 2 ^ (b.exponent - a.exponent).toNat : Nat) : ℚ) ≠ 0 := by
      exact_mod_cast (Nat.mul_pos hpos (Nat.two_pow_pos _)).ne'
    have hexp : (2 : ℚ) ^ a.exponent * 2 ^ (b.exponent - a.exponent).toNat =
        2 ^ (a.exponent - b.exponent).toNat * 2 ^ b.exponent := by
      rw [← zpow_natCast, ← zpow_natCast, ← zpow_add₀ two_ne_zero, ← zpow_add₀ two_ne_zero]
      congr 1
      omega
    have hscale (u : Sign) (m n : Nat) : u.apply (m * n : Nat) = u.apply m * n := by
      cases u with
      | negative => exact (Int.natCast_mul m n).symm ▸ (Int.neg_mul _ _).symm
      | positive => exact Int.natCast_mul m n
    have hsign := apply_div_mul (sign x) (sign y) (a.significand : ℤ) b.significand
    replace hsign := congrArg (Int.cast (R := ℚ)) hsign
    push_cast at hsign
    rw [div_eq_div_iff h hden, value_eq_apply ha, value_eq_apply hb, hscale]
    push_cast
    linear_combination (2 : ℚ) ^ a.exponent * 2 ^ (b.exponent - a.exponent).toNat * (-hsign) +
      ((sign x / sign y).apply a.significand : ℤ) * ((sign y).apply b.significand : ℤ) * hexp
  rw [hquotient, rankOf_eq (Nat.mul_pos hpos (Nat.two_pow_pos _)) rfl]
  refine rank_of_packsTo (packsTo_div (sign x) (sign y) a hpos) ?_
  rw [← unpack_of_ofFloat? ha, ← unpack_of_ofFloat? hb]
  rfl

/-! ## Signs -/

theorem rank_neg_eq (hx : x.isFinite = true) :
    rank (-x) = -rank x ∧ (-x).isNaN = false := by
  obtain ⟨a, ha⟩ := ofFloat?_of_isFinite hx
  have hpacks := packsTo_unpacked (-sign x) (canonical_of_ofFloat? ha)
  rw [← neg_unpacked, ← unpack_of_ofFloat? ha] at hpacks
  obtain ⟨hrank, hnan⟩ := rank_of_packsTo (x := -x) hpacks rfl
  refine ⟨?_, hnan⟩
  rw [hrank, rank_eq_rankAt ha, rankAt_apply, rankAt_apply, apply_neg]

theorem isFinite_neg (hx : x.isFinite = true) : (-x).isFinite = true := by
  obtain ⟨hrank, hnan⟩ := rank_neg_eq hx
  rw [isFinite_iff_rank (isNaN_of_isFinite hx)] at hx
  rw [isFinite_iff_rank hnan, hrank]
  omega

theorem value_neg (hx : x.isFinite = true) : value (-x) = -value x := by
  have hrank := (rank_neg_eq hx).1
  obtain ⟨a, ha⟩ := ofFloat?_of_isFinite hx
  obtain ⟨b, hb⟩ := ofFloat?_of_isFinite (isFinite_neg hx)
  have hcanonical := canonical_of_ofFloat? ha
  have hcanonical' := canonical_of_ofFloat? hb
  have ia := index_nonneg hcanonical
  have ib := index_nonneg hcanonical'
  rw [rank_eq_index ha, rank_eq_index hb, sign, sign] at hrank
  have hindex : b.index = a.index ∧ (a.index = 0 ∨ signBit (-x) = !signBit x) := by
    cases hs : signBit x <;> cases ht : signBit (-x) <;> rw [hs, ht] at hrank <;>
      simp only [Bool.false_eq_true, if_false, if_true, Sign.apply] at hrank <;>
      simp only [Bool.not_false, Bool.not_true, reduceCtorEq, or_false, or_true, and_true] <;> omega
  have hmagnitude : b.magnitude = a.magnitude :=
    magnitude_of_index hcanonical' hcanonical.exponent_ge hcanonical.significand_lt.le
      hcanonical.full hindex.1
  rw [value_of_ofFloat? ha, value_of_ofFloat? hb, negative_of_ofFloat? ha,
    negative_of_ofFloat? hb, hmagnitude]
  rcases hindex.2 with hzero | hsign
  · rw [Binary.magnitude, (significand_eq_zero_iff hcanonical).2 hzero, Nat.cast_zero, zero_mul,
      signed_zero, signed_zero, neg_zero]
  · rw [hsign]
    cases signBit x <;> simp [signed]

/-! ## The distance to the nearest double -/

theorem rank_nearest_eq (negative : Bool) (num : ℕ) {den : ℕ} (hd : 0 < den) :
    rank (nearest negative num den) = rankOf (signed negative ((num : ℚ) / den)) := by
  have hneg : signed negative ((num : ℚ) / den) =
      ((if negative then Sign.negative else .positive).apply num : ℤ) / den := by
    cases negative with
    | false => rfl
    | true => simp [signed, Sign.apply, neg_div]
  rw [hneg, rankOf_eq hd rfl, ratioRank_apply, rank_nearest]
  cases negative <;> rfl

/-- Half a step is one part in `2 ^ 53` of the numbers that need that step, and no step is smaller
than the smallest. -/
theorem half_step_le {num den : ℕ} (hn : 0 < num) (hd : 0 < den) :
    1 / 2 * (2 : ℚ) ^ stepExponent num den ≤ max ((num : ℚ) / den / 2 ^ 53) (1 / 2 ^ 1075) := by
  by_cases hmin : stepExponent num den = -1074
  · refine le_max_of_le_right (le_of_eq ?_)
    rw [hmin, zpow_neg, show (1074 : ℤ) = (1074 : ℕ) by rfl, zpow_natCast, pow_succ (2 : ℚ) 1074]
    field_simp
  · refine le_max_of_le_left ?_
    have hreach : PowLe num den (stepExponent num den + 52) := by
      rw [← le_floorLog2_iff hn hd]
      unfold stepExponent at hmin ⊢
      omega
    rw [powLe_iff hd, zpow_add₀ two_ne_zero] at hreach
    rw [le_div_iff₀ (by positivity)]
    calc 1 / 2 * (2 : ℚ) ^ stepExponent num den * 2 ^ 53
        = 2 ^ stepExponent num den * 2 ^ (52 : ℤ) := by norm_num; ring
      _ ≤ (num : ℚ) / den := hreach

theorem abs_magnitude_sub_le {negative : Bool} {num den : ℕ} (hd : 0 < den)
    (hb : Binary.ofFloat? (nearest negative num den) = some b) :
    |b.magnitude - (num : ℚ) / den| ≤ max ((num : ℚ) / den / 2 ^ 53) (1 / 2 ^ 1075) := by
  rcases Nat.eq_zero_or_pos num with rfl | hn
  · have hle := (dist_nearest_le hd hb canonical_zero).1
    rw [magnitude_zero, Nat.cast_zero, zero_div, sub_zero, sub_zero, abs_zero] at hle
    rw [Nat.cast_zero, zero_div, sub_zero]
    exact hle.trans (le_max_of_le_right (by positivity))
  · refine LE.le.trans ?_ (half_step_le hn hd)
    have hrounds := (roundsTo_inSteps num hd).within
    have hpos : (0 : ℚ) < 2 ^ stepExponent num den := by positivity
    rw [(magnitude_nearest hn hd hb).1, abs_sub_comm]
    calc |(num : ℚ) / den - inSteps num den * 2 ^ stepExponent num den|
        = |(num : ℚ) / den / 2 ^ stepExponent num den - inSteps num den| *
            2 ^ stepExponent num den := by
          rw [← abs_of_pos hpos, ← abs_mul, abs_of_pos hpos, sub_mul, div_mul_cancel₀ _ hpos.ne']
      _ ≤ 1 / 2 * 2 ^ stepExponent num den := mul_le_mul_of_nonneg_right hrounds hpos.le

theorem exists_signed_ratio (q : ℚ) :
    ∃ (negative : Bool) (num den : ℕ), 0 < den ∧ q = signed negative ((num : ℚ) / den) := by
  have habs : (q.num.natAbs : ℚ) / q.den = |q| := by
    have hden : (0 : ℚ) < q.den := by exact_mod_cast q.den_pos
    nth_rewrite 3 [← Rat.num_div_den q]
    rw [abs_div, abs_of_pos hden, Nat.cast_natAbs, Int.cast_abs]
  refine ⟨decide (q < 0), q.num.natAbs, q.den, q.den_pos, ?_⟩
  rw [habs, signed]
  by_cases hneg : q < 0
  · simp [hneg, abs_of_neg hneg]
  · simp [hneg, abs_of_nonneg (not_lt.1 hneg)]

/-- A double at the position of a number is as near to it as the format allows. -/
theorem abs_value_sub_le {q : ℚ} (hx : x.isFinite = true) (h : rank x = rankOf q) :
    |value x - q| ≤ max (|q| / 2 ^ 53) (1 / 2 ^ 1075) := by
  -- the rounded ratio is at the same position, so it has the same value
  obtain ⟨negative, num, den, hd, rfl⟩ := exists_signed_ratio q
  have hratio : 0 ≤ (num : ℚ) / den := by positivity
  have habs : |signed negative ((num : ℚ) / den)| = (num : ℚ) / den := by
    cases negative
    · exact abs_of_nonneg hratio
    · exact (abs_neg _).trans (abs_of_nonneg hratio)
  have hrank := (rank_nearest_eq negative num hd).trans h.symm
  have hfinite : (nearest negative num den).isFinite = true := by
    rw [isFinite_iff_rank (isNaN_nearest _ _ _), hrank, ← isFinite_iff_rank (isNaN_of_isFinite hx)]
    exact hx
  obtain ⟨b, hb⟩ := ofFloat?_of_isFinite hfinite
  rw [← value_of_rank_eq hfinite hx hrank, value_of_ofFloat? hb, negative_of_ofFloat? hb,
    signBit_nearest, habs, abs_signed_sub_signed _ _ (magnitude_nonneg b) hratio, if_pos rfl]
  exact abs_magnitude_sub_le hd hb

/-- The smallest step does not matter for numbers that are not among the smallest. -/
theorem abs_value_sub_le_of_le {q : ℚ} (hx : x.isFinite = true) (h : rank x = rankOf q)
    (hq : 1 / 2 ^ 1022 ≤ |q|) : |value x - q| ≤ |q| / 2 ^ 53 := by
  refine (abs_value_sub_le hx h).trans (max_le le_rfl ?_)
  rw [show 1075 = 1022 + 53 by rfl, pow_add, ← div_div]
  exact div_le_div_of_nonneg_right hq (by positivity)

/-- What lies between two doubles before rounding lies between them after it. -/
theorem between_of_rankOf {lo hi : Float} {q : ℚ} (hnan : x.isNaN = false) (h : rank x = rankOf q)
    (hlo : lo.isFinite = true) (hhi : hi.isFinite = true) (h1 : value lo ≤ q)
    (h2 : q ≤ value hi) : lo ≤ x ∧ x ≤ hi := by
  rw [le_iff, le_iff, h, rank_eq_rankOf hlo, rank_eq_rankOf hhi]
  exact ⟨⟨isNaN_of_isFinite hlo, hnan, rankOf_mono h1⟩, hnan, isNaN_of_isFinite hhi,
    rankOf_mono h2⟩

theorem zero_le_sub (hx : x.isFinite = true) (hy : y.isFinite = true) (h : y ≤ x) : 0 ≤ x - y := by
  obtain ⟨hrank, hnan⟩ := rank_sub_eq hx hy
  refine (le_iff _ _).2 ⟨by decide, hnan, ?_⟩
  rw [hrank, rank_eq_rankOf isFinite_zero, value_zero]
  exact rankOf_mono (sub_nonneg.2 ((le_iff_value hy hx).1 h))

/-- A factor of at most one shrinks what is not negative. -/
theorem mul_between (hx : x.isFinite = true) (h : 0 ≤ x) (hy : 0 ≤ y) (hy' : y ≤ 1) :
    0 ≤ x * y ∧ x * y ≤ x := by
  have hfinite := isFinite_of_between isFinite_zero isFinite_one hy hy'
  rw [le_iff_value isFinite_zero hx, value_zero] at h
  rw [le_iff_value isFinite_zero hfinite, value_zero] at hy
  rw [le_iff_value hfinite isFinite_one, value_one] at hy'
  obtain ⟨hrank, hnan⟩ := rank_mul_eq hx hfinite
  refine between_of_rankOf hnan hrank isFinite_zero hx ?_ ?_
  · rw [value_zero]
    exact mul_nonneg h hy
  · exact mul_le_of_le_one_right h hy'

/-! ## The fused product and sum -/

theorem value_product (p q : Binary) :
    signed (p.product q).negative (p.product q).magnitude =
      signed p.negative p.magnitude * signed q.negative q.magnitude := by
  have hmagnitude : (p.product q).magnitude = p.magnitude * q.magnitude := by
    unfold Binary.magnitude Binary.product
    rw [zpow_add₀ two_ne_zero]
    push_cast
    ring
  rw [hmagnitude]
  show signed (xor p.negative q.negative) _ = _
  cases p.negative <;> cases q.negative <;> simp [signed]

theorem sum_eq (p q : Binary) :
    ((p.sum q).1 : ℚ) * 2 ^ (p.sum q).2 =
      signed p.negative p.magnitude + signed q.negative q.magnitude := by
  have hpart (c : Binary) {e : ℤ} (he : e ≤ c.exponent) :
      ((if c.negative then -(c.significand * pow2 (c.exponent - e).toNat : ℤ)
        else (c.significand * pow2 (c.exponent - e).toNat : ℤ) : ℤ) : ℚ) * 2 ^ e =
        signed c.negative c.magnitude := by
    have hexp : (2 : ℚ) ^ (c.exponent - e).toNat * 2 ^ e = 2 ^ c.exponent := by
      rw [← zpow_natCast, ← zpow_add₀ two_ne_zero]
      congr 1
      omega
    have hpow : pow2 (c.exponent - e).toNat = 2 ^ (c.exponent - e).toNat := rfl
    rw [hpow, Binary.magnitude, ← hexp]
    cases c.negative <;> simp [signed] <;> ring
  rw [← hpart p (Int.min_le_left p.exponent q.exponent),
    ← hpart q (Int.min_le_right p.exponent q.exponent), ← add_mul]
  simp only [Binary.sum]
  push_cast
  rfl

theorem rank_fusedMulAdd (hx : x.isFinite = true) (hy : y.isFinite = true) (hz : z.isFinite = true)
    (h : value x * value y + value z ≠ 0) :
    rank (fusedMulAdd x y z) = rankOf (value x * value y + value z) ∧
      (fusedMulAdd x y z).isNaN = false := by
  obtain ⟨a, ha⟩ := ofFloat?_of_isFinite hx
  obtain ⟨b, hb⟩ := ofFloat?_of_isFinite hy
  obtain ⟨c, hc⟩ := ofFloat?_of_isFinite hz
  have hsum := sum_eq (a.product b) c
  rw [value_product, ← value_of_ofFloat? ha, ← value_of_ofFloat? hb, ← value_of_ofFloat? hc] at hsum
  rw [← hsum] at h ⊢
  unfold fusedMulAdd
  simp only [ha, hb, hc]
  generalize ((a.product b).sum c).1 = m at h ⊢
  generalize ((a.product b).sum c).2 = e at h ⊢
  have hm : m ≠ 0 := fun h0 => h (by rw [h0, Int.cast_zero, zero_mul])
  rw [if_neg hm]
  refine ⟨?_, isNaN_nearest _ _ _⟩
  have habs : (m * 2 ^ e.toNat).natAbs = m.natAbs * 2 ^ e.toNat := by
    rw [Int.natAbs_mul, Int.natAbs_pow]
    rfl
  have hneg : m * 2 ^ e.toNat < 0 ↔ m < 0 := by
    rw [← not_le, ← not_le, mul_nonneg_iff_of_pos_right (Int.pow_pos (by decide))]
  rw [← rankAt_eq, rankAt, ratioRank, rank_nearest, habs]
  simp only [hneg, decide_eq_true_eq]
  rfl

end

end TrajectorySafety.Number
