import TrajectorySafety.Proofs.Number.Arithmetic
import TrajectorySafety.Proofs.Number.Value

/-!
A sum of doubles is the double nearest to the exact sum, and so it grows with its parts.

`rankOf q` is the rank of the double nearest to a rational number, and grows with the number
(`rankOf_mono`). The rank of a finite double is that of its value (`rank_eq_rankOf`), so finite
doubles are ordered as their values are (`le_iff_value`). The rank of a sum or a difference is that
of the exact one (`rank_add_eq`, `rank_sub_eq`). Hence both are monotone in each part, whatever is
rounded off (`add_mono_right`, `sub_anti_right`).
-/

namespace TrajectorySafety.Number

open Float.Model.UnpackedFloat (Sign)

/-! ## The nearest double of a rational number -/

/-- The rank of the double nearest to a rational number. -/
def rankOf (q : ℚ) : Int := ratioRank q.num q.den

/-- Equal ratios have one nearest double, also with a sign. -/
theorem ratioRank_congr {a b : Int} {d d' : Nat} (hd : 0 < d) (hd' : 0 < d')
    (h : a * d' = b * d) : ratioRank a d = ratioRank b d' := by
  have hneg : a < 0 ↔ b < 0 := by
    rw [← not_le, ← not_le, ← mul_nonneg_iff_of_pos_right (Int.natCast_pos.2 hd'), h,
      mul_nonneg_iff_of_pos_right (Int.natCast_pos.2 hd)]
  have habs : a.natAbs * d' = b.natAbs * d := by
    have := congrArg Int.natAbs h
    rwa [Int.natAbs_mul, Int.natAbs_mul, Int.natAbs_natCast, Int.natAbs_natCast] at this
  unfold ratioRank
  rw [nearestBits_congr hd hd' habs]
  simp only [hneg]

theorem rankOf_eq {q : ℚ} {a : Int} {d : Nat} (hd : 0 < d) (h : q = a / d) :
    rankOf q = ratioRank a d := by
  have hden : (q.den : ℚ) ≠ 0 := by exact_mod_cast q.den_ne_zero
  have hd' : (d : ℚ) ≠ 0 := by exact_mod_cast hd.ne'
  refine ratioRank_congr q.den_pos hd ?_
  rw [← Rat.num_div_den q, div_eq_div_iff hden hd'] at h
  exact_mod_cast h

theorem rankOf_mono {p q : ℚ} (h : p ≤ q) : rankOf p ≤ rankOf q := by
  have hp : (p.den : ℚ) ≠ 0 := by exact_mod_cast p.den_ne_zero
  have hq : (q.den : ℚ) ≠ 0 := by exact_mod_cast q.den_ne_zero
  have hden : 0 < p.den * q.den := Nat.mul_pos p.den_pos q.den_pos
  -- both over the common denominator
  have hpq : rankOf p = ratioRank (p.num * q.den) (p.den * q.den) := rankOf_eq hden (by
    push_cast
    rw [mul_div_mul_right _ _ hq, Rat.num_div_den])
  have hqp : rankOf q = ratioRank (q.num * p.den) (p.den * q.den) := rankOf_eq hden (by
    push_cast
    rw [mul_comm (p.den : ℚ), mul_div_mul_right _ _ hp, Rat.num_div_den])
  rw [hpq, hqp]
  exact ratioRank_mono hden (Rat.le_iff p q |>.1 h)

theorem rankAt_eq (m e : Int) : rankAt m e = rankOf (m * 2 ^ e) := by
  refine (rankOf_eq (Nat.two_pow_pos _) ?_).symm
  rw [two_zpow_eq]
  push_cast
  rw [mul_div_assoc]

/-! ## Values -/

section
variable {x y z : Float} {a b : Binary}

/-- The value of a double from its number of units. -/
theorem units_mul (hx : Binary.ofFloat? x = some a) {e : Int} (he : e ≤ a.exponent) :
    (a.units (sign x) e : ℚ) * 2 ^ e = value x := by
  have hmagnitude : ((a.significand * 2 ^ (a.exponent - e).toNat : ℕ) : ℚ) * 2 ^ e =
      a.magnitude := by
    have hexp : a.exponent = ((a.exponent - e).toNat : ℤ) + e := by omega
    rw [Binary.magnitude]
    nth_rewrite 2 [hexp]
    rw [zpow_add₀ two_ne_zero, zpow_natCast]
    push_cast
    ring
  rw [value_of_ofFloat? hx, negative_of_ofFloat? hx, ← hmagnitude, Binary.units, sign]
  cases signBit x with
  | true =>
    simp only [if_true, Sign.apply, signed]
    push_cast
    ring
  | false =>
    simp only [Bool.false_eq_true, if_false, Sign.apply, signed]
    push_cast
    ring

theorem rank_eq_rankOf (hx : x.isFinite = true) : rank x = rankOf (value x) := by
  obtain ⟨a, ha⟩ := ofFloat?_of_isFinite hx
  rw [rank_eq_rankAt ha, ← rankAt_units (sign x) a (Int.le_refl _), rankAt_eq,
    units_mul ha (Int.le_refl _)]

/-- Doubles at one position have one value. -/
theorem value_of_rank_eq (hx : x.isFinite = true) (hy : y.isFinite = true)
    (h : rank x = rank y) : value x = value y := by
  obtain ⟨a, ha⟩ := ofFloat?_of_isFinite hx
  obtain ⟨b, hb⟩ := ofFloat?_of_isFinite hy
  have hcanonical := canonical_of_ofFloat? ha
  have hcanonical' := canonical_of_ofFloat? hb
  have hmagnitude (hindex : a.index = b.index) : a.magnitude = b.magnitude :=
    magnitude_of_index hcanonical hcanonical'.exponent_ge hcanonical'.significand_lt.le
      hcanonical'.full hindex
  have hzero {c : Binary} (hc : c.Canonical) (hindex : c.index = 0) : c.magnitude = 0 := by
    rw [Binary.magnitude, (significand_eq_zero_iff hc).2 hindex, Nat.cast_zero, zero_mul]
  have ia := index_nonneg hcanonical
  have ib := index_nonneg hcanonical'
  rw [rank_eq_index ha, rank_eq_index hb, sign, sign] at h
  rw [value_of_ofFloat? ha, value_of_ofFloat? hb, negative_of_ofFloat? ha, negative_of_ofFloat? hb]
  by_cases hsign : signBit x = signBit y
  · rw [hsign] at h ⊢
    have hindex : a.index = b.index := by
      cases hs : signBit y <;> rw [hs] at h <;> simpa [Sign.apply] using h
    rw [hmagnitude hindex]
  · -- on different sides of zero both are zero
    have hindex : a.index = 0 ∧ b.index = 0 := by
      cases hs : signBit x <;> cases ht : signBit y <;> rw [hs, ht] at h hsign
      · exact absurd rfl hsign
      · simp only [Bool.false_eq_true, if_false, if_true, Sign.apply] at h
        omega
      · simp only [Bool.false_eq_true, if_false, if_true, Sign.apply] at h
        omega
      · exact absurd rfl hsign
    rw [hzero hcanonical hindex.1, hzero hcanonical' hindex.2, signed_zero, signed_zero]

/-- Finite doubles are ordered as their values are. -/
theorem le_iff_value (hx : x.isFinite = true) (hy : y.isFinite = true) :
    x ≤ y ↔ value x ≤ value y := by
  rw [le_iff, rank_eq_rankOf hx, rank_eq_rankOf hy]
  constructor
  · rintro ⟨-, -, hle⟩
    by_contra hlt
    have hge := rankOf_mono (not_le.1 hlt).le
    refine hlt (value_of_rank_eq hx hy ?_).le
    rw [rank_eq_rankOf hx, rank_eq_rankOf hy]
    omega
  · exact fun h => ⟨isNaN_of_isFinite hx, isNaN_of_isFinite hy, rankOf_mono h⟩

/-! ## Sums and differences -/

theorem rank_add_eq (hx : x.isFinite = true) (hy : y.isFinite = true) :
    rank (x + y) = rankOf (value x + value y) ∧ (x + y).isNaN = false := by
  obtain ⟨a, ha⟩ := ofFloat?_of_isFinite hx
  obtain ⟨b, hb⟩ := ofFloat?_of_isFinite hy
  obtain ⟨hrank, hnan⟩ := rank_add ha hb
  refine ⟨?_, hnan⟩
  rw [hrank, rankAt_eq, ← units_mul ha (Int.min_le_left a.exponent b.exponent),
    ← units_mul hb (Int.min_le_right a.exponent b.exponent), ← add_mul]
  push_cast
  rfl

theorem rank_sub_eq (hx : x.isFinite = true) (hy : y.isFinite = true) :
    rank (x - y) = rankOf (value x - value y) ∧ (x - y).isNaN = false := by
  obtain ⟨a, ha⟩ := ofFloat?_of_isFinite hx
  obtain ⟨b, hb⟩ := ofFloat?_of_isFinite hy
  obtain ⟨hrank, hnan⟩ := rank_sub ha hb
  refine ⟨?_, hnan⟩
  rw [hrank, rankAt_eq, ← units_mul ha (Int.min_le_left a.exponent b.exponent),
    ← units_mul hb (Int.min_le_right a.exponent b.exponent), ← sub_mul]
  push_cast
  rfl

/-- Adding more never gives less. -/
theorem add_mono_right (hx : x.isFinite = true) (hy : y.isFinite = true) (hz : z.isFinite = true)
    (h : y ≤ z) : x + y ≤ x + z := by
  obtain ⟨hrank, hnan⟩ := rank_add_eq hx hy
  obtain ⟨hrank', hnan'⟩ := rank_add_eq hx hz
  have hvalue := (le_iff_value hy hz).1 h
  rw [le_iff, hrank, hrank']
  exact ⟨hnan, hnan', rankOf_mono (by linarith)⟩

/-- Subtracting more never gives more. -/
theorem sub_anti_right (hx : x.isFinite = true) (hy : y.isFinite = true) (hz : z.isFinite = true)
    (h : y ≤ z) : x - z ≤ x - y := by
  obtain ⟨hrank, hnan⟩ := rank_sub_eq hx hy
  obtain ⟨hrank', hnan'⟩ := rank_sub_eq hx hz
  have hvalue := (le_iff_value hy hz).1 h
  rw [le_iff, hrank, hrank']
  exact ⟨hnan', hnan, rankOf_mono (by linarith)⟩

end

end TrajectorySafety.Number
