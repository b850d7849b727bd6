import Mathlib
import TrajectorySafety.Number.Binary

/-!
The order of doubles, read off their bits.

`rank x` is the number that the bits of `x` without the sign stand for, negated when the sign is
set. Consecutive doubles have consecutive ranks and both zeros have rank 0, so on values that
are not NaN the comparisons are those of the ranks (`le_iff`, `lt_iff`). A comparison
that holds has no NaN on either side. Everything else about the order follows from these:
transitivity, totality away from NaN, and that what lies between finite bounds is finite.

The bridge to the arithmetic of doubles is `unpack_toModel`: unpacking a double gives the exact
value that `Binary.ofFloat?` reads from its fields.
-/

namespace TrajectorySafety.Number

open Float.Model (UnpackedFloat Format)
open Float.Model.UnpackedFloat (Sign unpackMantissa unpackExponent unpackSign)

/-! ## The fields of a double -/

/-- The sign of a double. -/
def sign (x : Float) : Sign := if signBit x then .negative else .positive

/-- The exact value of magnitude `b` in the form that the arithmetic of doubles works on. -/
def Binary.unpacked (s : Sign) (b : Binary) : UnpackedFloat :=
  if h : b.significand = 0 then .zero s
  else .finite s b.significand b.exponent (Nat.pos_of_ne_zero h)

theorem toBits_inj {x y : Float} (h : x.toBits = y.toBits) : x = y := by
  obtain ⟨⟨bx, hx⟩⟩ := x
  obtain ⟨⟨by', hy⟩⟩ := y
  cases h
  rfl

theorem toBits_lt (x : Float) : x.toBits.toNat < 2 ^ 64 := x.toBits.toNat_lt

theorem exponentField_lt (x : Float) : exponentField x < 2048 := Nat.mod_lt _ (by decide)

theorem fractionField_lt (x : Float) : fractionField x < 2 ^ 52 := Nat.mod_lt _ (by decide)

theorem signBit_iff (x : Float) : signBit x = true ↔ 2 ^ 63 ≤ x.toBits.toNat := decide_eq_true_iff

theorem toNat_unpackMantissa (b : BitVec 64) :
    (@unpackMantissa Format.binary64 b).toNat = b.toNat % 2 ^ 52 := by
  simp [unpackMantissa]

theorem toNat_unpackExponent (b : BitVec 64) :
    (@unpackExponent Format.binary64 b).toNat = b.toNat / 2 ^ 52 % 2 ^ 11 := by
  simp [unpackExponent, Nat.shiftRight_eq_div_pow]

theorem toNat_unpackSign (b : BitVec 64) :
    (@unpackSign Format.binary64 b).toNat = b.toNat / 2 ^ 63 := by
  have hb : b.toNat < 2 ^ 64 := b.isLt
  simp only [unpackSign, BitVec.toNat_cast, BitVec.extractLsb_toNat, Nat.shiftRight_eq_div_pow]
  omega

theorem ofBitVec_unpackSign (x : Float) :
    Sign.ofBitVec (@unpackSign Format.binary64 x.toBits.toBitVec) = sign x := by
  have hx := toBits_lt x
  have hs : (@unpackSign Format.binary64 x.toBits.toBitVec).toNat = x.toBits.toNat / 2 ^ 63 :=
    toNat_unpackSign x.toBits.toBitVec
  unfold sign Sign.ofBitVec
  by_cases h : 2 ^ 63 ≤ x.toBits.toNat
  · rw [if_neg, if_pos ((signBit_iff x).2 h)]
    intro h0
    rw [h0, BitVec.toNat_zero] at hs
    omega
  · rw [if_pos, if_neg (fun hn => h ((signBit_iff x).1 hn))]
    apply BitVec.eq_of_toNat_eq
    rw [hs, BitVec.toNat_zero]
    omega

/-- Unpacking a double gives the exact value of its fields, an infinity or a NaN. -/
theorem unpack_toModel (x : Float) :
    x.toModel.unpack =
      match Binary.ofFloat? x with
      | some b => b.unpacked (sign x)
      | none => if fractionField x = 0 then .infinity (sign x) else .notANumber := by
  have hs := ofBitVec_unpackSign x
  have hm : (@unpackMantissa Format.binary64 x.toBits.toBitVec).toNat = fractionField x :=
    toNat_unpackMantissa x.toBits.toBitVec
  have he : (@unpackExponent Format.binary64 x.toBits.toBitVec).toNat = exponentField x :=
    toNat_unpackExponent x.toBits.toBitVec
  have hm0 : @unpackMantissa Format.binary64 x.toBits.toBitVec = 0#_ ↔ fractionField x = 0 := by
    rw [← hm, ← BitVec.toNat_inj]; simp
  have he0 : @unpackExponent Format.binary64 x.toBits.toBitVec = 0#_ ↔ exponentField x = 0 := by
    rw [← he, ← BitVec.toNat_inj]; simp
  have he1 : @unpackExponent Format.binary64 x.toBits.toBitVec = -1#_ ↔
      exponentField x = 2047 := by
    rw [← he, ← BitVec.toNat_inj]; simp
  have hb : Format.binary64.exponentBias = 1023 := rfl
  show UnpackedFloat.unpack Format.binary64 x.toBits.toBitVec = _
  unfold UnpackedFloat.unpack Binary.ofFloat?
  simp only [hm0, he0, he1, hs, hm, he, hb]
  by_cases h1 : exponentField x = 2047
  · simp [h1]
  · by_cases h0 : exponentField x = 0
    · simp [h0, Binary.unpacked]
    · -- a normal number: the leading one comes back in front of the fraction
      have hp : (1#1 ++ @unpackMantissa Format.binary64 x.toBits.toBitVec).toNat =
          fractionField x + pow2 52 := by
        rw [BitVec.toNat_append, ← Nat.shiftLeft_add_eq_or_of_lt (BitVec.isLt _), hm]
        simp [Nat.shiftLeft_eq, pow2, Nat.add_comm]
      simp [h1, h0, Binary.unpacked, hp, pow2]

theorem isFinite_eq (x : Float) : x.isFinite = (Binary.ofFloat? x).isSome := by
  show x.toModel.unpack.isFinite = _
  rw [unpack_toModel]
  cases Binary.ofFloat? x with
  | some b =>
    simp only [Binary.unpacked]
    split <;> rfl
  | none =>
    simp only
    split <;> rfl

theorem ofFloat?_of_isFinite {x : Float} (h : x.isFinite = true) :
    ∃ b, Binary.ofFloat? x = some b := by
  rw [isFinite_eq] at h
  exact Option.isSome_iff_exists.1 h

theorem isNaN_eq (x : Float) :
    x.isNaN = ((Binary.ofFloat? x).isNone && fractionField x != 0) := by
  show x.toModel.unpack.isNaN = _
  rw [unpack_toModel]
  cases Binary.ofFloat? x with
  | some b =>
    simp only [Binary.unpacked]
    split <;> rfl
  | none =>
    by_cases h : fractionField x = 0 <;> simp [h, UnpackedFloat.isNaN]

/-! ## Ranks -/

/-- The exact values of finite doubles: at most 53 binary digits, and all of them in use unless the
exponent is the smallest. -/
structure Binary.Canonical (b : Binary) : Prop where
  significand_lt : b.significand < 2 ^ 53
  exponent_ge : -1074 ≤ b.exponent
  exponent_le : b.exponent ≤ 971
  full : b.exponent = -1074 ∨ 2 ^ 52 ≤ b.significand

/-- The position of a magnitude among those of the doubles, from zero upwards. -/
def Binary.index (b : Binary) : Int := (b.exponent + 1074) * 2 ^ 52 + b.significand

/-- The position of a double among all of them, with both zeros at 0. -/
def rank (x : Float) : Int := (sign x).apply (x.toBits.toNat % 2 ^ 63 : Nat)

theorem toBits_mod (x : Float) :
    x.toBits.toNat % 2 ^ 63 = exponentField x * 2 ^ 52 + fractionField x := by
  unfold exponentField fractionField pow2
  have := toBits_lt x
  simp only [Nat.pow_eq]
  omega

theorem canonical_of_ofFloat? {x : Float} {b : Binary} (h : Binary.ofFloat? x = some b) :
    b.Canonical := by
  have he := exponentField_lt x
  have hf := fractionField_lt x
  unfold Binary.ofFloat? at h
  simp only [pow2, Nat.pow_eq] at h
  split at h
  · cases h
  · split at h <;> cases h
    · exact ⟨by simp only; omega, by simp, by simp, .inl rfl⟩
    · exact ⟨by simp only; omega, by simp only; omega, by simp only; omega, .inr (by simp)⟩

theorem index_of_ofFloat? {x : Float} {b : Binary} (h : Binary.ofFloat? x = some b) :
    b.index = (x.toBits.toNat % 2 ^ 63 : Nat) := by
  rw [toBits_mod]
  unfold Binary.ofFloat? at h
  simp only [pow2, Nat.pow_eq] at h
  split at h
  · cases h
  · split at h <;> cases h <;> simp only [Binary.index] <;> omega

theorem negative_of_ofFloat? {x : Float} {b : Binary} (h : Binary.ofFloat? x = some b) :
    b.negative = signBit x := by
  unfold Binary.ofFloat? at h
  simp only at h
  split at h
  · cases h
  · split at h <;> cases h <;> rfl

/-- Canonical values are ordered by exponent first, and their indices follow that order. -/
theorem compare_index {a b : Binary} (ha : a.Canonical) (hb : b.Canonical) :
    (compare a.exponent b.exponent).then (compare a.significand b.significand) =
      compare a.index b.index := by
  obtain ⟨ha1, ha2, ha3, ha4⟩ := ha
  obtain ⟨hb1, hb2, hb3, hb4⟩ := hb
  unfold Binary.index
  rcases Int.lt_trichotomy a.exponent b.exponent with h | h | h
  · rw [Int.compare_eq_lt.2 h, Int.compare_eq_lt.2 (by omega)]
    rfl
  · rw [Int.compare_eq_eq.2 h, Ordering.eq_then]
    rcases Nat.lt_trichotomy a.significand b.significand with hs | hs | hs
    · rw [Nat.compare_eq_lt.2 hs, Int.compare_eq_lt.2 (by omega)]
    · rw [Nat.compare_eq_eq.2 hs, Int.compare_eq_eq.2 (by omega)]
    · rw [Nat.compare_eq_gt.2 hs, Int.compare_eq_gt.2 (by omega)]
  · rw [Int.compare_eq_gt.2 h, Int.compare_eq_gt.2 (by omega)]
    rfl

theorem significand_eq_zero_iff {b : Binary} (hb : b.Canonical) :
    b.significand = 0 ↔ b.index = 0 := by
  obtain ⟨-, h2, -, h4⟩ := hb
  unfold Binary.index
  omega

theorem index_nonneg {b : Binary} (hb : b.Canonical) : 0 ≤ b.index := by
  have := hb.exponent_ge
  unfold Binary.index
  omega

theorem index_lt {b : Binary} (hb : b.Canonical) : b.index < 2047 * 2 ^ 52 := by
  obtain ⟨h1, -, h3, -⟩ := hb
  unfold Binary.index
  omega

theorem rank_eq_index {x : Float} {b : Binary} (h : Binary.ofFloat? x = some b) :
    rank x = (sign x).apply b.index := by
  unfold rank
  rw [index_of_ofFloat? h]

theorem exponentField_of_ofFloat?_eq_none {x : Float} (h : Binary.ofFloat? x = none) :
    exponentField x = 2047 := by
  unfold Binary.ofFloat? at h
  simp only at h
  split at h
  · assumption
  · split at h <;> cases h

theorem rank_of_infinite {x : Float} (h : Binary.ofFloat? x = none)
    (hn : fractionField x = 0) : rank x = (sign x).apply (2047 * 2 ^ 52) := by
  unfold rank
  rw [toBits_mod, hn, exponentField_of_ofFloat?_eq_none h]
  rfl

theorem compare_neg_neg (a b : Int) : compare (-a) (-b) = (compare a b).swap := by
  rcases Int.lt_trichotomy a b with h | h | h
  · rw [Int.compare_eq_lt.2 h, Int.compare_eq_gt.2 (by omega)]; rfl
  · rw [Int.compare_eq_eq.2 h, Int.compare_eq_eq.2 (by omega)]; rfl
  · rw [Int.compare_eq_gt.2 h, Int.compare_eq_lt.2 (by omega)]; rfl

/-- The sign of the larger magnitude decides a comparison. -/
theorem compare_apply_of_lt (s t : Sign) {a b : Int} (ha : 0 ≤ a) (h : a < b) :
    compare (s.apply a) (t.apply b) = match t with
      | .negative => .gt
      | .positive => .lt := by
  cases t with
  | negative => exact Int.compare_eq_gt.2 (by cases s <;> simp only [Sign.apply] <;> omega)
  | positive => exact Int.compare_eq_lt.2 (by cases s <;> simp only [Sign.apply] <;> omega)

theorem compare_apply_of_gt (s t : Sign) {a b : Int} (hb : 0 ≤ b) (h : b < a) :
    compare (s.apply a) (t.apply b) = match s with
      | .negative => .lt
      | .positive => .gt := by
  cases s with
  | negative => exact Int.compare_eq_lt.2 (by cases t <;> simp only [Sign.apply] <;> omega)
  | positive => exact Int.compare_eq_gt.2 (by cases t <;> simp only [Sign.apply] <;> omega)

theorem compare_unpacked (s t : Sign) {a b : Binary} (ha : a.Canonical) (hb : b.Canonical) :
    (a.unpacked s).compare (b.unpacked t) =
      some (compare (s.apply a.index) (t.apply b.index)) := by
  have ia := index_nonneg ha
  have ib := index_nonneg hb
  have hc := compare_index ha hb
  unfold Binary.unpacked
  by_cases h1 : a.significand = 0
  · have za := (significand_eq_zero_iff ha).1 h1
    by_cases h2 : b.significand = 0
    · have zb := (significand_eq_zero_iff hb).1 h2
      rw [dif_pos h1, dif_pos h2, za, zb]
      cases s <;> cases t <;> rfl
    · have pb : 0 < b.index := by have := significand_eq_zero_iff hb; omega
      rw [dif_pos h1, dif_neg h2, za, compare_apply_of_lt s t (Int.le_refl 0) pb]
      cases t <;> rfl
  · have pa : 0 < a.index := by have := significand_eq_zero_iff ha; omega
    by_cases h2 : b.significand = 0
    · have zb := (significand_eq_zero_iff hb).1 h2
      rw [dif_neg h1, dif_pos h2, zb, compare_apply_of_gt s t (Int.le_refl 0) pa]
      cases s <;> rfl
    · have pb : 0 < b.index := by have := significand_eq_zero_iff hb; omega
      rw [dif_neg h1, dif_neg h2]
      cases s <;> cases t <;> simp only [UnpackedFloat.compare, Sign.apply, compare_neg_neg, hc]
      · exact congrArg some (Int.compare_eq_lt.2 (by omega)).symm
      · exact congrArg some (Int.compare_eq_gt.2 (by omega)).symm

theorem compare_infinity_unpacked (s t : Sign) {b : Binary} (hb : b.Canonical) :
    (UnpackedFloat.infinity s).compare (b.unpacked t) =
      some (compare (s.apply (2047 * 2 ^ 52)) (t.apply b.index)) := by
  rw [compare_apply_of_gt s t (index_nonneg hb) (index_lt hb)]
  unfold Binary.unpacked
  split <;> cases s <;> rfl

theorem compare_unpacked_infinity (s t : Sign) {a : Binary} (ha : a.Canonical) :
    (a.unpacked s).compare (.infinity t) =
      some (compare (s.apply a.index) (t.apply (2047 * 2 ^ 52))) := by
  rw [compare_apply_of_lt s t (index_nonneg ha) (index_lt ha)]
  unfold Binary.unpacked
  split <;> cases t <;> rfl

/-- On values that are not NaN the comparison is that of the ranks. -/
theorem compare_unpack {x y : Float} (hx : x.isNaN = false) (hy : y.isNaN = false) :
    x.toModel.unpack.compare y.toModel.unpack = some (compare (rank x) (rank y)) := by
  rw [unpack_toModel, unpack_toModel]
  rw [isNaN_eq] at hx hy
  cases hbx : Binary.ofFloat? x with
  | none =>
    have fx : fractionField x = 0 := by simpa [hbx] using hx
    rw [rank_of_infinite hbx fx]
    cases hby : Binary.ofFloat? y with
    | none =>
      have fy : fractionField y = 0 := by simpa [hby] using hy
      rw [rank_of_infinite hby fy]
      simp only [fx, fy, if_true]
      cases sign x <;> cases sign y <;> rfl
    | some c =>
      rw [rank_eq_index hby]
      simp only [fx, if_true]
      exact compare_infinity_unpacked _ _ (canonical_of_ofFloat? hby)
  | some b =>
    rw [rank_eq_index hbx]
    cases hby : Binary.ofFloat? y with
    | none =>
      have fy : fractionField y = 0 := by simpa [hby] using hy
      rw [rank_of_infinite hby fy]
      simp only [fy, if_true]
      exact compare_unpacked_infinity _ _ (canonical_of_ofFloat? hbx)
    | some c =>
      rw [rank_eq_index hby]
      exact compare_unpacked _ _ (canonical_of_ofFloat? hbx) (canonical_of_ofFloat? hby)

theorem compare_unpack_nan {x y : Float} (h : x.isNaN = true ∨ y.isNaN = true) :
    x.toModel.unpack.compare y.toModel.unpack = none := by
  have nan : ∀ z : Float, z.isNaN = true → z.toModel.unpack = .notANumber := by
    intro z hz
    replace hz : z.toModel.unpack.isNaN = true := hz
    cases hu : z.toModel.unpack with
    | notANumber => rfl
    | _ =>
      rw [hu] at hz
      cases hz
  rcases h with h | h
  · rw [nan x h]
    rfl
  · rw [nan y h]
    cases x.toModel.unpack <;> rfl

/-! ## The order -/

theorem le_iff_compare (x y : Float) :
    x ≤ y ↔ (x.toModel.unpack.compare y.toModel.unpack).any Ordering.isLE = true :=
  decide_eq_true_iff

theorem lt_iff_compare (x y : Float) :
    x < y ↔ x.toModel.unpack.compare y.toModel.unpack = some .lt :=
  decide_eq_true_iff.trans beq_iff_eq

/-- A comparison holds for two numbers in the order of their ranks, and never with a NaN. -/
theorem le_iff (x y : Float) :
    x ≤ y ↔ x.isNaN = false ∧ y.isNaN = false ∧ rank x ≤ rank y := by
  rw [le_iff_compare]
  cases hx : x.isNaN with
  | true =>
    rw [compare_unpack_nan (.inl hx)]
    exact ⟨fun h => (nomatch h), fun h => (nomatch h.1)⟩
  | false =>
    cases hy : y.isNaN with
    | true =>
      rw [compare_unpack_nan (.inr hy)]
      exact ⟨fun h => (nomatch h), fun h => (nomatch h.2.1)⟩
    | false =>
      rw [compare_unpack hx hy, Option.any_some, Int.isLE_compare]
      exact ⟨fun h => ⟨rfl, rfl, h⟩, fun h => h.2.2⟩

theorem lt_iff (x y : Float) :
    x < y ↔ x.isNaN = false ∧ y.isNaN = false ∧ rank x < rank y := by
  rw [lt_iff_compare]
  cases hx : x.isNaN with
  | true =>
    rw [compare_unpack_nan (.inl hx)]
    exact ⟨fun h => (nomatch h), fun h => (nomatch h.1)⟩
  | false =>
    cases hy : y.isNaN with
    | true =>
      rw [compare_unpack_nan (.inr hy)]
      exact ⟨fun h => (nomatch h), fun h => (nomatch h.2.1)⟩
    | false =>
      rw [compare_unpack hx hy, Option.some.injEq, Int.compare_eq_lt]
      exact ⟨fun h => ⟨rfl, rfl, h⟩, fun h => h.2.2⟩

theorem isNaN_of_isFinite {x : Float} (h : x.isFinite = true) : x.isNaN = false := by
  rw [isFinite_eq] at h
  rw [isNaN_eq]
  cases hb : Binary.ofFloat? x with
  | none => simp [hb] at h
  | some b => rfl

theorem le_trans {x y z : Float} (h1 : x ≤ y) (h2 : y ≤ z) : x ≤ z := by
  rw [le_iff] at h1 h2 ⊢
  exact ⟨h1.1, h2.2.1, Int.le_trans h1.2.2 h2.2.2⟩

theorem lt_of_lt_of_le {x y z : Float} (h1 : x < y) (h2 : y ≤ z) : x < z := by
  rw [lt_iff] at h1 ⊢
  rw [le_iff] at h2
  exact ⟨h1.1, h2.2.1, Int.lt_of_lt_of_le h1.2.2 h2.2.2⟩

theorem lt_of_le_of_lt {x y z : Float} (h1 : x ≤ y) (h2 : y < z) : x < z := by
  rw [lt_iff] at h2 ⊢
  rw [le_iff] at h1
  exact ⟨h1.1, h2.2.1, Int.lt_of_le_of_lt h1.2.2 h2.2.2⟩

theorem lt_of_not_le {x y : Float} (hx : x.isNaN = false) (hy : y.isNaN = false)
    (h : ¬ y ≤ x) : x < y := by
  rw [le_iff] at h
  rw [lt_iff]
  exact ⟨hx, hy, Int.not_le.1 fun hr => h ⟨hy, hx, hr⟩⟩

theorem le_of_not_lt {x y : Float} (hx : x.isNaN = false) (hy : y.isNaN = false)
    (h : ¬ y < x) : x ≤ y := by
  rw [lt_iff] at h
  rw [le_iff]
  exact ⟨hx, hy, Int.not_lt.1 fun hr => h ⟨hy, hx, hr⟩⟩

theorem le_of_lt {x y : Float} (h : x < y) : x ≤ y := by
  rw [lt_iff] at h
  rw [le_iff]
  exact ⟨h.1, h.2.1, Int.le_of_lt h.2.2⟩

theorem not_le_of_lt {x y : Float} (h : x < y) : ¬ y ≤ x := by
  rw [lt_iff] at h
  rw [le_iff]
  exact fun hr => Int.not_le.2 h.2.2 hr.2.2

/-- A number is finite exactly when its rank is below that of an infinity on both sides. -/
theorem isFinite_iff_rank {x : Float} (hx : x.isNaN = false) :
    x.isFinite = true ↔ -(2047 * 2 ^ 52) < rank x ∧ rank x < 2047 * 2 ^ 52 := by
  rw [isFinite_eq]
  rw [isNaN_eq] at hx
  cases hb : Binary.ofFloat? x with
  | none =>
    have fx : fractionField x = 0 := by simpa [hb] using hx
    rw [rank_of_infinite hb fx]
    cases sign x <;> simp [Sign.apply]
  | some b =>
    have h1 := index_nonneg (canonical_of_ofFloat? hb)
    have h2 := index_lt (canonical_of_ofFloat? hb)
    rw [rank_eq_index hb]
    cases sign x <;> simp only [Sign.apply, Option.isSome_some, true_iff] <;> omega

/-- What lies between two finite numbers is finite. -/
theorem isFinite_of_between {lo x hi : Float} (hlo : lo.isFinite = true) (hhi : hi.isFinite = true)
    (h1 : lo ≤ x) (h2 : x ≤ hi) : x.isFinite = true := by
  rw [le_iff] at h1 h2
  rw [isFinite_iff_rank h1.1] at hlo
  rw [isFinite_iff_rank h2.2.1] at hhi
  rw [isFinite_iff_rank h2.1]
  omega

end TrajectorySafety.Number
