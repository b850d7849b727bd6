import TrajectorySafety.Proofs.Number.Rounding

/-!
Sums and differences of doubles.

`rankAt m e` is the rank of the double nearest to `m * 2 ^ e`. It grows with `m` (`rankAt_mono`) and
depends on the number only, not on how it is split (`rankAt_shift`). The rank of a finite double is
that of its own value (`rank_eq_rankAt`), and the rank of a sum is that of the exact sum over the
smaller exponent (`rank_add`, `rank_sub`). So adding something that is not negative never leads
below a double, and subtracting it never above (`le_add`, `sub_le`), whatever is rounded off.
-/

namespace TrajectorySafety.Number

open Float.Model (UnpackedFloat Format)
open Float.Model.UnpackedFloat (Sign packComponents decreaseExponent)

/-! ## Ranks of exact numbers -/

/-- The rank of the double nearest to `m * 2 ^ e`. -/
def rankAt (m e : Int) : Int := ratioRank (m * 2 ^ e.toNat) (2 ^ (-e).toNat)

theorem rankAt_apply (s : Sign) (m : Nat) (e : Int) :
    rankAt (s.apply m) e = s.apply (nearestBits (m * 2 ^ e.toNat) (2 ^ (-e).toNat)) := by
  have hscale : s.apply (m : Int) * 2 ^ e.toNat = s.apply (m * 2 ^ e.toNat : Nat) := by
    cases s with
    | positive => exact (Int.natCast_mul m _).symm ▸ rfl
    | negative => exact (Int.natCast_mul m _).symm ▸ Int.neg_mul _ _
  rw [rankAt, hscale, ratioRank_apply]

theorem rankAt_mono {m n : Int} (h : m ≤ n) (e : Int) : rankAt m e ≤ rankAt n e :=
  ratioRank_mono (Nat.two_pow_pos _) (Int.mul_le_mul_of_nonneg_right h (Int.pow_nonneg (by decide)))

/-- Equal ratios have one nearest double. -/
theorem nearestBits_congr {a b d d' : Nat} (hd : 0 < d) (hd' : 0 < d') (h : a * d' = b * d) :
    nearestBits a d = nearestBits b d' := by
  rw [← nearestBits_scale a hd hd', ← nearestBits_scale b hd' hd, h, Nat.mul_comm d]

theorem rankAt_shift (s : Sign) (m : Nat) {e e' : Int} (h : e' ≤ e) :
    rankAt (s.apply (m * 2 ^ (e - e').toNat : Nat)) e' = rankAt (s.apply m) e := by
  rw [rankAt_apply, rankAt_apply]
  congr 2
  refine nearestBits_congr (Nat.two_pow_pos _) (Nat.two_pow_pos _) ?_
  rw [Nat.mul_assoc, Nat.mul_assoc, Nat.mul_assoc, ← Nat.pow_add, ← Nat.pow_add, ← Nat.pow_add]
  congr 2
  omega

/-- The value of a double is its own nearest double. -/
theorem nearestBits_of_canonical {b : Binary} (hb : b.Canonical) :
    (nearestBits (b.significand * 2 ^ b.exponent.toNat) (2 ^ (-b.exponent).toNat) : Int) =
      b.index := by
  have hindex := index_lt hb
  obtain ⟨h1, h2, h3, h4⟩ := hb
  rcases Nat.eq_zero_or_pos b.significand with hzero | hpos
  · rw [hzero, Nat.zero_mul, nearestBits_zero, Binary.index]
    omega
  · have hlog : b.significand.log2 ≤ 52 := Nat.le_of_lt_succ ((Nat.log2_lt (by omega)).2 h1)
    have hstep : stepExponent (b.significand * 2 ^ b.exponent.toNat) (2 ^ (-b.exponent).toNat) =
        b.exponent := by
      rw [stepExponent, floorLog2_scaled hpos]
      rcases h4 with hmin | hfull
      · omega
      · have := (Nat.le_log2 (by omega)).2 hfull
        omega
    have hsteps : inSteps (b.significand * 2 ^ b.exponent.toNat) (2 ^ (-b.exponent).toNat) =
        b.significand := by
      rw [inSteps, hstep, ← roundDiv_one b.significand]
      refine roundDiv_congr (Nat.mul_pos (Nat.two_pow_pos _) (Nat.two_pow_pos _)) Nat.one_pos ?_
      rw [roundDiv_one, Nat.mul_one, Nat.mul_assoc, Nat.mul_comm (2 ^ b.exponent.toNat)]
    rw [nearestBits_eq (Nat.mul_pos hpos (Nat.two_pow_pos _)).ne', hstep, hsteps,
      if_neg (by omega)]
    unfold Binary.index at hindex ⊢
    omega

theorem rank_eq_rankAt {x : Float} {b : Binary} (h : Binary.ofFloat? x = some b) :
    rank x = rankAt ((sign x).apply b.significand) b.exponent := by
  rw [rank_eq_index h, rankAt_apply, nearestBits_of_canonical (canonical_of_ofFloat? h)]

/-! ## Packed results -/

/-- A result of the arithmetic that is packed into a double of the given rank. -/
def PacksTo (u : UnpackedFloat) (r : Int) : Prop :=
  ∃ (s : Sign) (n : Nat), n ≤ 2047 * 2 ^ 52 ∧ s.apply n = r ∧
    (UnpackedFloat.pack .binary64 u).toNat = s.toBitVec.toNat * 2 ^ 63 + n

theorem rank_of_packsTo {x : Float} {u : UnpackedFloat} {r : Int} (h : PacksTo u r)
    (hx : x.toBits.toNat = (UnpackedFloat.pack .binary64 u).toNat) :
    rank x = r ∧ x.isNaN = false := by
  obtain ⟨s, n, hn, rfl, hbits⟩ := h
  rw [hbits] at hx
  have hsign : sign x = s := by
    have hiff := signBit_iff x
    unfold sign
    cases s with
    | positive =>
      have hs : Sign.positive.toBitVec.toNat = 0 := rfl
      rw [if_neg fun hn => by have := hiff.1 hn; omega]
    | negative =>
      have hs : Sign.negative.toBitVec.toNat = 1 := rfl
      rw [if_pos (hiff.2 (by omega))]
  have hmod : x.toBits.toNat % 2 ^ 63 = n := by omega
  refine ⟨by rw [rank, hsign, hmod], ?_⟩
  rw [isNaN_eq]
  cases hb : Binary.ofFloat? x with
  | some b => rfl
  | none =>
    have hfields := toBits_mod x
    have hlt := fractionField_lt x
    rw [exponentField_of_ofFloat?_eq_none hb] at hfields
    have hzero : fractionField x = 0 := by omega
    simp [hzero]

theorem packsTo_zero (s : Sign) : PacksTo (.zero s) 0 := by
  refine ⟨s, 0, Nat.zero_le _, ?_, ?_⟩
  · cases s <;> rfl
  · rw [toNat_pack_zero, Nat.add_zero]

theorem packsTo_unpacked (s : Sign) {b : Binary} (hb : b.Canonical) :
    PacksTo (b.unpacked s) (rankAt (s.apply b.significand) b.exponent) := by
  rw [rankAt_apply, nearestBits_of_canonical hb]
  have hindex := index_lt hb
  have hnonneg := index_nonneg hb
  obtain ⟨h1, h2, h3, h4⟩ := hb
  refine ⟨s, b.index.toNat, by omega, by rw [Int.toNat_of_nonneg hnonneg], ?_⟩
  unfold Binary.index at hindex ⊢
  unfold Binary.unpacked
  split
  · next hzero =>
    rw [toNat_pack_zero]
    omega
  · rw [toNat_pack_finite s _ h1 h2 h4, if_neg (by omega)]
    omega

theorem packsTo_round (s : Sign) {m : Nat} (hm : 0 < m) (e : Int) :
    PacksTo (UnpackedFloat.round .binary64 s m e) (rankAt (s.apply m) e) :=
  ⟨s, _, nearestBits_le _ _, (rankAt_apply s m e).symm, toNat_pack_round s hm e⟩

theorem packsTo_normalize (m e : Int) (s : Sign) :
    PacksTo (UnpackedFloat.normalize .binary64 m e s) (rankAt m e) := by
  unfold UnpackedFloat.normalize
  rcases Int.lt_trichotomy m 0 with hm | rfl | hm
  · rw [Int.compare_eq_lt.2 hm]
    have hround := packsTo_round .negative (show 0 < (-m).toNat by omega) e
    rwa [show Sign.negative.apply ((-m).toNat : Int) = m by simp only [Sign.apply]; omega] at hround
  · have hzero : rankAt 0 e = 0 := by
      rw [rankAt, Int.zero_mul, ratioRank, Int.natAbs_zero, nearestBits_zero]
      rfl
    rw [hzero]
    exact packsTo_zero s
  · rw [Int.compare_eq_gt.2 hm]
    have hround := packsTo_round .positive (show 0 < m.toNat by omega) e
    rwa [show Sign.positive.apply (m.toNat : Int) = m by simp only [Sign.apply]; omega] at hround

/-! ## Sums -/

/-- A signed magnitude in units of `2 ^ e`, for an exponent that is not above its own. -/
def Binary.units (s : Sign) (b : Binary) (e : Int) : Int :=
  s.apply (b.significand * 2 ^ (b.exponent - e).toNat : Nat)

theorem rankAt_units (s : Sign) (b : Binary) {e : Int} (h : e ≤ b.exponent) :
    rankAt (b.units s e) e = rankAt (s.apply b.significand) b.exponent :=
  rankAt_shift s b.significand h

theorem units_eq_zero {s : Sign} {b : Binary} (h : b.significand = 0) (e : Int) :
    b.units s e = 0 := by
  rw [Binary.units, h, Nat.zero_mul]
  cases s <;> rfl

/-- The sum of two doubles is packed into the double nearest to the exact sum. -/
theorem packsTo_add (s t : Sign) {a b : Binary} (ha : a.Canonical) (hb : b.Canonical) :
    PacksTo (UnpackedFloat.add .binary64 (a.unpacked s) (b.unpacked t))
      (rankAt (a.units s (min a.exponent b.exponent) + b.units t (min a.exponent b.exponent))
        (min a.exponent b.exponent)) := by
  have hunpackA := packsTo_unpacked s ha
  have hunpackB := packsTo_unpacked t hb
  rw [← rankAt_units s a (Int.min_le_left a.exponent b.exponent)] at hunpackA
  rw [← rankAt_units t b (Int.min_le_right a.exponent b.exponent)] at hunpackB
  by_cases ha0 : a.significand = 0
  · rw [units_eq_zero ha0, Int.zero_add]
    by_cases hb0 : b.significand = 0
    · -- the sign of the sum of two zeros does not show in its rank
      rw [units_eq_zero hb0]
      have hzero := packsTo_normalize 0 (min a.exponent b.exponent)
      unfold Binary.unpacked
      rw [dif_pos ha0, dif_pos hb0, UnpackedFloat.add]
      split
      · exact hzero s
      · exact hzero .positive
    · have hadd : UnpackedFloat.add .binary64 (a.unpacked s) (b.unpacked t) = b.unpacked t := by
        unfold Binary.unpacked
        rw [dif_pos ha0, dif_neg hb0]
        rfl
      rwa [hadd]
  · by_cases hb0 : b.significand = 0
    · rw [units_eq_zero hb0, Int.add_zero]
      have hadd : UnpackedFloat.add .binary64 (a.unpacked s) (b.unpacked t) = a.unpacked s := by
        unfold Binary.unpacked
        rw [dif_neg ha0, dif_pos hb0]
        rfl
      rwa [hadd]
    · unfold Binary.unpacked
      rw [dif_neg ha0, dif_neg hb0, UnpackedFloat.add]
      simp only [decreaseExponent, Nat.shiftLeft_eq]
      exact packsTo_normalize _ _ .positive

theorem apply_neg (s : Sign) (n : Int) : (-s).apply n = -s.apply n := by
  cases s with
  | positive => rfl
  | negative => exact (Int.neg_neg n).symm

/-- Subtracting is adding with the other sign. -/
theorem sub_eq_add_neg (u v : UnpackedFloat) :
    UnpackedFloat.sub .binary64 u v = UnpackedFloat.add .binary64 u v.neg := by
  cases u with
  | notANumber => rfl
  | infinity s => cases v <;> rfl
  | zero s => cases v <;> rfl
  | finite s m e hm =>
    cases v with
    | finite t n e' hn =>
      simp only [UnpackedFloat.sub, UnpackedFloat.neg, UnpackedFloat.add, apply_neg,
        Int.sub_eq_add_neg]
    | _ => rfl

theorem neg_unpacked (s : Sign) (b : Binary) : (b.unpacked s).neg = b.unpacked (-s) := by
  unfold Binary.unpacked
  split <;> rfl

section
variable {x y : Float} {a b : Binary}

theorem rank_add (hx : Binary.ofFloat? x = some a) (hy : Binary.ofFloat? y = some b) :
    rank (x + y) = rankAt (a.units (sign x) (min a.exponent b.exponent) +
        b.units (sign y) (min a.exponent b.exponent)) (min a.exponent b.exponent) ∧
      (x + y).isNaN = false := by
  refine rank_of_packsTo (packsTo_add (sign x) (sign y) (canonical_of_ofFloat? hx)
    (canonical_of_ofFloat? hy)) ?_
  have hux := unpack_toModel x
  have huy := unpack_toModel y
  rw [hx] at hux
  rw [hy] at huy
  show (UnpackedFloat.pack .binary64
    (UnpackedFloat.add .binary64 x.toModel.unpack y.toModel.unpack)).toNat = _
  rw [hux, huy]

theorem rank_sub (hx : Binary.ofFloat? x = some a) (hy : Binary.ofFloat? y = some b) :
    rank (x - y) = rankAt (a.units (sign x) (min a.exponent b.exponent) -
        b.units (sign y) (min a.exponent b.exponent)) (min a.exponent b.exponent) ∧
      (x - y).isNaN = false := by
  have hunits : a.units (sign x) (min a.exponent b.exponent) -
      b.units (sign y) (min a.exponent b.exponent) =
      a.units (sign x) (min a.exponent b.exponent) +
      b.units (-sign y) (min a.exponent b.exponent) := by
    rw [Int.sub_eq_add_neg, Binary.units, Binary.units, Binary.units, apply_neg]
  rw [hunits]
  refine rank_of_packsTo (packsTo_add (sign x) (-sign y) (canonical_of_ofFloat? hx)
    (canonical_of_ofFloat? hy)) ?_
  have hux := unpack_toModel x
  have huy := unpack_toModel y
  rw [hx] at hux
  rw [hy] at huy
  show (UnpackedFloat.pack .binary64
    (UnpackedFloat.sub .binary64 x.toModel.unpack y.toModel.unpack)).toNat = _
  rw [hux, huy, sub_eq_add_neg, neg_unpacked]

/-- Something that is not negative is no negative number of units. -/
theorem units_nonneg (hy : Binary.ofFloat? y = some b) (h : 0 ≤ y) (e : Int) :
    0 ≤ b.units (sign y) e := by
  have hrank : 0 ≤ rank y := ((le_iff 0 y).1 h).2.2
  rw [rank_eq_index hy] at hrank
  have hindex := index_nonneg (canonical_of_ofFloat? hy)
  cases hs : sign y with
  | positive => exact Int.natCast_nonneg _
  | negative =>
    rw [hs] at hrank
    have hzero : b.index = 0 := by
      simp only [Sign.apply] at hrank
      omega
    rw [units_eq_zero ((significand_eq_zero_iff (canonical_of_ofFloat? hy)).2 hzero)]

end

/-- Adding what is not negative never leads below. -/
theorem le_add {x y : Float} (hx : x.isFinite = true) (hy : y.isFinite = true) (h : 0 ≤ y) :
    x ≤ x + y := by
  obtain ⟨a, ha⟩ := ofFloat?_of_isFinite hx
  obtain ⟨b, hb⟩ := ofFloat?_of_isFinite hy
  obtain ⟨hrank, hnan⟩ := rank_add ha hb
  have hunits := units_nonneg hb h (min a.exponent b.exponent)
  rw [le_iff, hrank, rank_eq_rankAt ha, ← rankAt_units _ a (Int.min_le_left a.exponent b.exponent)]
  exact ⟨isNaN_of_isFinite hx, hnan, rankAt_mono (by omega) _⟩

/-- Subtracting what is not negative never leads above. -/
theorem sub_le {x y : Float} (hx : x.isFinite = true) (hy : y.isFinite = true) (h : 0 ≤ y) :
    x - y ≤ x := by
  obtain ⟨a, ha⟩ := ofFloat?_of_isFinite hx
  obtain ⟨b, hb⟩ := ofFloat?_of_isFinite hy
  obtain ⟨hrank, hnan⟩ := rank_sub ha hb
  have hunits := units_nonneg hb h (min a.exponent b.exponent)
  rw [le_iff, hrank, rank_eq_rankAt ha, ← rankAt_units _ a (Int.min_le_left a.exponent b.exponent)]
  exact ⟨hnan, isNaN_of_isFinite hx, rankAt_mono (by omega) _⟩

/-! ## What is not finite -/

/-- With an infinity or a NaN among its parts a sum is one of them too. -/
theorem add_of_not_isFinite {u v : UnpackedFloat} (h : ¬ (u.isFinite = true ∧ v.isFinite = true)) :
    (UnpackedFloat.add .binary64 u v).isFinite = false := by
  cases u with
  | notANumber => rfl
  | infinity s =>
    cases v with
    | infinity t => cases s <;> cases t <;> rfl
    | _ => rfl
  | zero s =>
    cases v with
    | notANumber => rfl
    | infinity t => rfl
    | _ => exact absurd ⟨rfl, rfl⟩ h
  | finite s m e hm =>
    cases v with
    | notANumber => rfl
    | infinity t => rfl
    | _ => exact absurd ⟨rfl, rfl⟩ h

theorem not_isFinite_pack {u : UnpackedFloat} (h : u.isFinite = false) :
    (UnpackedFloat.unpack .binary64 (UnpackedFloat.pack .binary64 u)).isFinite = false := by
  cases u with
  | notANumber => decide
  | infinity s => cases s <;> decide
  | zero s => cases h
  | finite s m e hm => cases h

/-- A difference is finite only if both its parts are. -/
theorem isFinite_of_sub {x y : Float} (h : (x - y).isFinite = true) :
    x.isFinite = true ∧ y.isFinite = true := by
  by_contra hparts
  have hneg : y.toModel.unpack.neg.isFinite = y.isFinite := by
    show _ = y.toModel.unpack.isFinite
    cases y.toModel.unpack <;> rfl
  rw [← hneg] at hparts
  have hsum := not_isFinite_pack (add_of_not_isFinite hparts)
  rw [← sub_eq_add_neg] at hsum
  exact absurd h (ne_true_of_eq_false hsum)

end TrajectorySafety.Number
