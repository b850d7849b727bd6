import TrajectorySafety.Proofs.Number.Products

/-!
The infinities among the doubles.

Above the finite doubles there is one more (`eq_infinity`). It absorbs whatever finite is added to
it or taken from it (`infinity_absorbs`) and every positive factor (`infinity_mul_of_pos`). A sum, a
difference or a product is finite only if its parts are, the second factor apart; whatever is
rounded gives a finite double if it is at most the largest one, with something to spare
(`isFinite_of_abs_le`).
-/

namespace TrajectorySafety.Number

open Float.Model (UnpackedFloat)
open Float.Model.UnpackedFloat

section
variable {x y lo : Float}

/-- Above the finite doubles there is one more. -/
theorem eq_infinity (hlo : lo.isFinite = true) (h : lo ≤ x) (hx : ¬ x.isFinite = true) :
    x = infinity := by
  obtain ⟨-, hnan, hrank⟩ := (le_iff lo x).1 h
  have hlower := ((isFinite_iff_rank (isNaN_of_isFinite hlo)).1 hlo).1
  rw [isFinite_eq, Bool.not_eq_true, Option.isSome_eq_false_iff, Option.isNone_iff_eq_none] at hx
  rw [isNaN_eq, hx, Option.isNone_none, Bool.true_and, bne_eq_false_iff_eq] at hnan
  have hbits := toBits_mod x
  rw [exponentField_of_ofFloat?_eq_none hx, hnan] at hbits
  have hsign : ¬ signBit x = true := by
    intro hsign
    rw [rank_of_infinite hx hnan, sign, if_pos hsign, Sign.apply] at hrank
    omega
  rw [signBit_iff] at hsign
  apply toBits_inj
  rw [← UInt64.toNat_inj, show infinity.toBits.toNat = 2047 * 2 ^ 52 by decide]
  omega

theorem unpack_infinity : infinity.toModel.unpack = .infinity .positive := by
  rw [unpack_toModel]
  rfl

theorem unpack_zero : (0 : Float).toModel.unpack = .zero .positive := by
  rw [unpack_toModel]
  rfl

/-! ## Sums -/

/-- The infinite number absorbs whatever finite is added to it or taken from it. -/
theorem infinity_absorbs (hx : x.isFinite = true) :
    x + infinity = infinity ∧ infinity + x = infinity ∧ infinity - x = infinity := by
  obtain ⟨b, hb⟩ := ofFloat?_of_isFinite hx
  have habsorb (s : Sign) :
      UnpackedFloat.add .binary64 (b.unpacked s) (.infinity .positive) = .infinity .positive ∧
      UnpackedFloat.add .binary64 (.infinity .positive) (b.unpacked s) = .infinity .positive ∧
      UnpackedFloat.sub .binary64 (.infinity .positive) (b.unpacked s) = .infinity .positive := by
    unfold Binary.unpacked
    split <;> exact ⟨rfl, rfl, rfl⟩
  have hpack : Float.ofModel (.pack (.infinity .positive)) = infinity := by decide
  obtain ⟨hright, hleft, hsub⟩ := habsorb (sign x)
  rw [← unpack_of_ofFloat? hb, ← unpack_infinity] at hright hleft hsub
  rw [← unpack_infinity] at hpack
  refine ⟨.trans ?_ hpack, .trans ?_ hpack, .trans ?_ hpack⟩
  · exact congrArg (fun u => Float.ofModel (.pack u)) hright
  · exact congrArg (fun u => Float.ofModel (.pack u)) hleft
  · exact congrArg (fun u => Float.ofModel (.pack u)) hsub

/-! ## Products -/

theorem infinity_mul_of_pos (h : 0 < y) : infinity * y = infinity := by
  rw [lt_iff_compare, unpack_zero] at h
  have hmul : UnpackedFloat.mul .binary64 (.infinity .positive) y.toModel.unpack =
      .infinity .positive := by
    generalize y.toModel.unpack = v at h ⊢
    cases v with
    | notANumber => cases h
    | zero s => cases s <;> cases h
    | infinity s =>
      cases s with
      | positive => rfl
      | negative => cases h
    | finite s m e hm =>
      cases s with
      | positive => rfl
      | negative => cases h
  show Float.ofModel (.pack
    (UnpackedFloat.mul .binary64 infinity.toModel.unpack y.toModel.unpack)) = infinity
  rw [unpack_infinity, hmul]
  decide

/-- Where one of two factors of opposite signs is infinite, the product is the negative infinity, or
none if the other factor is zero. -/
theorem mul_of_opposite {u v : UnpackedFloat} (h : ¬ (u.isFinite = true ∧ v.isFinite = true))
    (hu : (UnpackedFloat.compare (.zero .positive) u).any Ordering.isLE = true)
    (hv : (UnpackedFloat.compare v (.zero .positive)).any Ordering.isLE = true) :
    UnpackedFloat.mul .binary64 u v = .notANumber ∨
      UnpackedFloat.mul .binary64 u v = .infinity .negative := by
  cases u with
  | notANumber => cases hu
  | zero s =>
    cases v with
    | notANumber => cases hv
    | infinity t => exact .inl rfl
    | _ => exact absurd ⟨rfl, rfl⟩ h
  | infinity s =>
    cases s with
    | negative => cases hu
    | positive =>
      cases v with
      | notANumber => cases hv
      | zero t => exact .inl rfl
      | infinity t =>
        cases t with
        | positive => cases hv
        | negative => exact .inr rfl
      | finite t n f hn =>
        cases t with
        | positive => cases hv
        | negative => exact .inr rfl
  | finite s m e hm =>
    cases s with
    | negative => cases hu
    | positive =>
      cases v with
      | notANumber => cases hv
      | infinity t =>
        cases t with
        | positive => cases hv
        | negative => exact .inr rfl
      | _ => exact absurd ⟨rfl, rfl⟩ h

theorem mul_nonpos (hx : 0 ≤ x) (hy : y ≤ 0) : (x * y).isNaN = true ∨ x * y ≤ 0 := by
  by_cases h : x.isFinite = true ∧ y.isFinite = true
  · obtain ⟨hrank, hnan⟩ := rank_mul_eq h.1 h.2
    refine .inr ((le_iff _ _).2 ⟨hnan, by decide, ?_⟩)
    rw [hrank, rank_eq_rankOf isFinite_zero, value_zero]
    rw [le_iff_value isFinite_zero h.1, value_zero] at hx
    rw [le_iff_value h.2 isFinite_zero, value_zero] at hy
    exact rankOf_mono (mul_nonpos_of_nonneg_of_nonpos hx hy)
  · rw [le_iff_compare, unpack_zero] at hx hy
    have hproduct : x * y = Float.ofModel (.pack
      (UnpackedFloat.mul .binary64 x.toModel.unpack y.toModel.unpack)) := rfl
    rw [hproduct]
    obtain hmul | hmul := mul_of_opposite h hx hy
    · rw [hmul]
      exact .inl (by decide)
    · rw [hmul]
      exact .inr (by decide)

/-! ## Where a result is finite -/

theorem mul_of_not_isFinite {u v : UnpackedFloat} (h : u.isFinite = false) :
    (UnpackedFloat.mul .binary64 u v).isFinite = false := by
  cases u with
  | notANumber => rfl
  | infinity s => cases v <;> rfl
  | zero s => cases h
  | finite s m e hm => cases h

/-- A product is finite only if its first factor is, and a sum only if both its parts are. -/
theorem isFinite_of_mul (h : (x * y).isFinite = true) : x.isFinite = true := by
  by_contra hx
  exact absurd h (ne_true_of_eq_false
    (not_isFinite_pack (mul_of_not_isFinite (Bool.eq_false_of_not_eq_true hx))))

theorem isFinite_of_add (h : (x + y).isFinite = true) :
    x.isFinite = true ∧ y.isFinite = true := by
  by_contra hparts
  exact absurd h (ne_true_of_eq_false (not_isFinite_pack (add_of_not_isFinite hparts)))

/-- The largest finite double. -/
def most : Float := Float.ofBits 0x7fefffffffffffff

theorem value_most : value most = (2 ^ 53 - 1) * 2 ^ 971 := by
  rw [value_of_ofFloat? (x := most) (b := ⟨false, 2 ^ 53 - 1, 971⟩) (by decide)]
  norm_num [signed, Binary.magnitude]

theorem value_le_most (hx : x.isFinite = true) : value x ≤ value most := by
  have hmost : rank most = 2047 * 2 ^ 52 - 1 := by decide
  rw [← le_iff_value hx (by decide), le_iff]
  have hrank := ((isFinite_iff_rank (isNaN_of_isFinite hx)).1 hx).2
  exact ⟨isNaN_of_isFinite hx, by decide, by omega⟩

/-- One more than the largest finite double is still rounded to it. -/
theorem isFinite_of_abs_le {q : ℚ} (hnan : x.isNaN = false) (h : rank x = rankOf q)
    (hq : |q| ≤ value most + 1) : x.isFinite = true := by
  have hupper : rankOf (value most + 1) = 2047 * 2 ^ 52 - 1 := by decide +kernel
  have hlower : rankOf (-(value most + 1)) = -(2047 * 2 ^ 52 - 1) := by decide +kernel
  obtain ⟨hge, hle⟩ := abs_le.1 hq
  replace hge := rankOf_mono hge
  replace hle := rankOf_mono hle
  rw [isFinite_iff_rank hnan, h]
  omega

end

end TrajectorySafety.Number
