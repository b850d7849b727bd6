import TrajectorySafety.Proofs.Number.Order

/-!
Rounding to the nearest double.

`roundDiv_le_iff` and `le_floorLog2_iff` say exactly which bounds the two roundings satisfy; from
them both are monotone. The bits of the nearest double are monotone as well (`nearestBits_mono`):
ratios with different steps are kept apart by the power of two between them. The sign and the bits
make up the double and nothing is lost (`rank_nearest`), so the order of results can be read off
their bits.
-/

namespace TrajectorySafety.Number

open Float.Model (UnpackedFloat Format)
open Float.Model.UnpackedFloat (Sign unpackMantissa unpackExponent unpackSign packComponents)

/-! ## Rounding a quotient -/

/-- A quotient rounds down when its rest is less than a half, or a half and the number below is
even. -/
theorem roundDiv_eq (a d : Nat) :
    roundDiv a d =
      if 2 * (a % d) < d ∨ (2 * (a % d) = d ∧ a / d % 2 = 0) then a / d else a / d + 1 := by
  unfold roundDiv
  simp only
  rcases Nat.lt_trichotomy (2 * (a % d)) d with h | h | h
  · rw [if_pos h, if_pos (.inl h)]
  · rw [if_neg (by omega), if_neg (by omega)]
    by_cases hq : a / d % 2 = 0
    · rw [if_pos hq, if_pos (.inr ⟨h, hq⟩)]
    · rw [if_neg hq, if_neg (by omega)]
  · rw [if_neg (by omega), if_pos h, if_neg (by omega)]

/-- A rounded quotient is at most `n` when the quotient lies below `n + 1/2`, or on it and `n` is
even. -/
theorem roundDiv_le_iff {a d : Nat} (hd : 0 < d) (n : Nat) :
    roundDiv a d ≤ n ↔ 2 * a < (2 * n + 1) * d ∨ (2 * a = (2 * n + 1) * d ∧ n % 2 = 0) := by
  have hr : a % d < d := Nat.mod_lt a hd
  have ha : a = a / d * d + a % d := by rw [Nat.mul_comm]; exact (Nat.div_add_mod a d).symm
  have hn : (2 * n + 1) * d = 2 * (n * d) + d := by rw [Nat.add_mul, Nat.one_mul, Nat.mul_assoc]
  rw [roundDiv_eq, hn]
  generalize a / d = q at ha
  generalize a % d = r at ha hr
  rw [ha]
  rcases Nat.lt_trichotomy q n with h | rfl | h
  · have hm : (q + 1) * d ≤ n * d := Nat.mul_le_mul_right d h
    rw [Nat.add_mul, Nat.one_mul] at hm
    exact iff_of_true (by split <;> omega) (.inl (by omega))
  · split <;> omega
  · have hm : (n + 1) * d ≤ q * d := Nat.mul_le_mul_right d h
    rw [Nat.add_mul, Nat.one_mul] at hm
    exact iff_of_false (by split <;> omega) (by omega)

theorem le_roundDiv {a d n : Nat} (hd : 0 < d) (h : n * d ≤ a) : n ≤ roundDiv a d := by
  have hq : n ≤ a / d := (Nat.le_div_iff_mul_le hd).2 h
  rw [roundDiv_eq]
  split <;> omega

/-- Larger quotients round to larger numbers. -/
theorem roundDiv_mono {a b d d' : Nat} (hd : 0 < d) (hd' : 0 < d') (h : a * d' ≤ b * d) :
    roundDiv a d ≤ roundDiv b d' := by
  rw [roundDiv_le_iff hd]
  have hb := (roundDiv_le_iff hd' (roundDiv b d')).1 (Nat.le_refl _)
  generalize roundDiv b d' = n at hb
  have hle : 2 * a * d' ≤ 2 * b * d := by
    rw [Nat.mul_assoc, Nat.mul_assoc]
    exact Nat.mul_le_mul_left 2 h
  rcases hb with hb | ⟨hb, hn⟩
  · left
    have hlt : 2 * b * d < (2 * n + 1) * d' * d := Nat.mul_lt_mul_of_pos_right hb hd
    rw [Nat.mul_right_comm (2 * n + 1)] at hlt
    exact Nat.lt_of_mul_lt_mul_right (Nat.lt_of_le_of_lt hle hlt)
  · rw [hb, Nat.mul_right_comm (2 * n + 1)] at hle
    have hle := Nat.le_of_mul_le_mul_right hle hd'
    exact (Nat.lt_or_eq_of_le hle).imp id fun heq => ⟨heq, hn⟩

theorem roundDiv_one (a : Nat) : roundDiv a 1 = a := by
  simp [roundDiv, Nat.mod_one]

/-! ## The exponent of a ratio -/

/-- `2 ^ k ≤ num / den`. -/
def PowLe (num den : Nat) (k : Int) : Prop := den * 2 ^ k.toNat ≤ num * 2 ^ (-k).toNat

/-- The power of two can be split off the exponent. -/
theorem powLe_add_iff (num den : Nat) (k : Int) (j : Nat) :
    PowLe num den (k + j) ↔ den * 2 ^ k.toNat * 2 ^ j ≤ num * 2 ^ (-k).toNat := by
  unfold PowLe
  rcases Int.le_total 0 k with hk | hk
  · rw [show (k + j).toNat = k.toNat + j by omega, show (-(k + j)).toNat = 0 by omega,
      show (-k).toNat = 0 by omega, Nat.pow_add, Nat.mul_assoc]
  · rw [show k.toNat = 0 by omega, Nat.pow_zero, Nat.mul_one]
    rcases Int.le_total 0 (k + j) with hkj | hkj
    · rw [show (-(k + j)).toNat = 0 by omega, Nat.pow_zero, Nat.mul_one,
        show j = (k + j).toNat + (-k).toNat by omega, Nat.pow_add, ← Nat.mul_assoc,
        show (k + ((k + j).toNat + (-k).toNat : Nat)).toNat = (k + j).toNat by omega]
      exact (Nat.mul_le_mul_right_iff (Nat.two_pow_pos _)).symm
    · rw [show (k + j).toNat = 0 by omega, Nat.pow_zero, Nat.mul_one,
        show (-k).toNat = (-(k + j)).toNat + j by omega, Nat.pow_add, ← Nat.mul_assoc]
      exact (Nat.mul_le_mul_right_iff (Nat.two_pow_pos _)).symm

theorem powLe_of_le {num den : Nat} {j k : Int} (hjk : j ≤ k) (h : PowLe num den k) :
    PowLe num den j := by
  obtain ⟨i, rfl⟩ : ∃ i : Nat, k = j + i := ⟨(k - j).toNat, by omega⟩
  rw [powLe_add_iff] at h
  refine Nat.le_trans ?_ h
  exact Nat.le_mul_of_pos_right _ (Nat.two_pow_pos i)

theorem powLe_mono {a b den : Nat} {k : Int} (h : a ≤ b) (ha : PowLe a den k) :
    PowLe b den k :=
  Nat.le_trans ha (Nat.mul_le_mul_right _ h)

/-- The floor of the logarithm is the largest exponent whose power is at most the ratio. -/
theorem powLe_log2_sub {num : Nat} (hn : 0 < num) (den : Nat) :
    PowLe num den ((num.log2 : Int) - den.log2 - 1) := by
  have hlog : 2 ^ num.log2 ≤ num := Nat.log2_self_le (by omega)
  have hden : den < 2 ^ (den.log2 + 1) := Nat.lt_log2_self
  rw [show (num.log2 : Int) - den.log2 - 1 = -((den.log2 + 1 : Nat) : Int) + num.log2 by omega,
    powLe_add_iff, show (-((den.log2 + 1 : Nat) : Int)).toNat = 0 by omega, Nat.pow_zero,
    Nat.mul_one, Int.neg_neg, Int.toNat_natCast, Nat.mul_comm num]
  exact Nat.mul_le_mul (Nat.le_of_lt hden) hlog

theorem not_powLe_log2_add (num : Nat) {den : Nat} (hd : 0 < den) :
    ¬ PowLe num den ((num.log2 : Int) - den.log2 + 1) := by
  have hnum : num < 2 ^ (num.log2 + 1) := Nat.lt_log2_self
  have hlog : 2 ^ den.log2 ≤ den := Nat.log2_self_le (by omega)
  intro h
  rw [show (num.log2 : Int) - den.log2 + 1 = -(den.log2 : Int) + (num.log2 + 1 : Nat) by omega,
    powLe_add_iff, show (-(den.log2 : Int)).toNat = 0 by omega, Nat.pow_zero, Nat.mul_one,
    Int.neg_neg, Int.toNat_natCast, Nat.mul_comm num] at h
  exact absurd (Nat.lt_of_lt_of_le (Nat.mul_lt_mul_of_le_of_lt hlog hnum (by omega)) h)
    (Nat.lt_irrefl _)

/-- The exponent of a quotient is the difference of the logarithms or one below it. -/
theorem le_floorLog2_iff {num den : Nat} (hn : 0 < num) (hd : 0 < den) (k : Int) :
    k ≤ floorLog2 num den ↔ PowLe num den k := by
  have hlow := powLe_log2_sub hn den
  have hhigh := not_powLe_log2_add num hd
  unfold floorLog2
  simp only
  by_cases he : PowLe num den ((num.log2 : Int) - den.log2)
  · have he' : den * pow2 ((num.log2 : Int) - den.log2).toNat ≤
        num * pow2 (-((num.log2 : Int) - den.log2)).toNat := he
    rw [if_pos he']
    constructor
    · exact fun hk => powLe_of_le hk he
    · intro hk
      exact Int.le_of_lt_add_one (Int.not_le.1 fun hlt => hhigh (powLe_of_le hlt hk))
  · have he' : ¬ den * pow2 ((num.log2 : Int) - den.log2).toNat ≤
        num * pow2 (-((num.log2 : Int) - den.log2)).toNat := he
    rw [if_neg he']
    constructor
    · exact fun hk => powLe_of_le hk hlow
    · intro hk
      have := Int.not_le.1 fun hle => he (powLe_of_le hle hk)
      omega

/-! ## The bits of the nearest double -/

/-- The exponent of the step between the doubles around a ratio. -/
def stepExponent (num den : Nat) : Int := max (floorLog2 num den - 52) (-1074)

/-- A ratio in steps, rounded. -/
def inSteps (num den : Nat) : Nat :=
  roundDiv (num * 2 ^ (-stepExponent num den).toNat) (den * 2 ^ (stepExponent num den).toNat)

theorem nearestBits_eq {num : Nat} (hn : num ≠ 0) (den : Nat) :
    nearestBits num den =
      if 971 < stepExponent num den then 2047 * 2 ^ 52
      else
        min ((stepExponent num den + 1074).toNat * 2 ^ 52 + inSteps num den) (2047 * 2 ^ 52) := by
  unfold nearestBits
  rw [if_neg hn]
  rfl

theorem nearestBits_zero (den : Nat) : nearestBits 0 den = 0 := rfl

/-- No magnitude exceeds that of an infinity. -/
theorem nearestBits_le (num den : Nat) : nearestBits num den ≤ 2047 * 2 ^ 52 := by
  by_cases hn : num = 0
  · rw [hn, nearestBits_zero]
    exact Nat.zero_le _
  · rw [nearestBits_eq hn]
    split
    · exact Nat.le_refl _
    · exact Nat.min_le_right _ _

theorem stepExponent_mono {a b den : Nat} (ha : 0 < a) (hd : 0 < den) (h : a ≤ b) :
    stepExponent a den ≤ stepExponent b den := by
  have hlog : floorLog2 a den ≤ floorLog2 b den :=
    (le_floorLog2_iff (by omega) hd _).2
      (powLe_mono h ((le_floorLog2_iff ha hd _).1 (Int.le_refl _)))
  unfold stepExponent
  omega

/-- A ratio has at most `2 ^ 53` steps. -/
theorem inSteps_le {num den : Nat} (hn : 0 < num) (hd : 0 < den) : inSteps num den ≤ 2 ^ 53 := by
  have hpos : 0 < den * 2 ^ (stepExponent num den).toNat := Nat.mul_pos hd (Nat.two_pow_pos _)
  have hnot : ¬ PowLe num den (stepExponent num den + (53 : Nat)) := by
    rw [← le_floorLog2_iff hn hd]
    unfold stepExponent
    omega
  rw [powLe_add_iff] at hnot
  unfold inSteps
  rw [roundDiv_le_iff hpos]
  omega

/-- Above the smallest step a ratio has at least `2 ^ 52` steps. -/
theorem le_inSteps {num den : Nat} (hn : 0 < num) (hd : 0 < den)
    (hq : -1074 < stepExponent num den) : 2 ^ 52 ≤ inSteps num den := by
  have hpos : 0 < den * 2 ^ (stepExponent num den).toNat := Nat.mul_pos hd (Nat.two_pow_pos _)
  have hreach : PowLe num den (stepExponent num den + (52 : Nat)) := by
    rw [← le_floorLog2_iff hn hd]
    unfold stepExponent at hq ⊢
    omega
  rw [powLe_add_iff, Nat.mul_comm] at hreach
  exact le_roundDiv hpos hreach

/-- Larger ratios are at least as far along among the doubles, before infinity cuts them off. -/
theorem position_mono {a b den : Nat} (ha : 0 < a) (hd : 0 < den) (h : a ≤ b) :
    (stepExponent a den + 1074).toNat * 2 ^ 52 + inSteps a den ≤
      (stepExponent b den + 1074).toNat * 2 ^ 52 + inSteps b den := by
  have hb : 0 < b := Nat.lt_of_lt_of_le ha h
  have hmin : -1074 ≤ stepExponent a den := Int.le_max_right _ _
  rcases Int.lt_or_eq_of_le (stepExponent_mono ha hd h) with hlt | heq
  · -- different steps are kept apart by the power of two between them
    have hsmall := inSteps_le ha hd
    have hlarge := le_inSteps hb hd (by omega)
    omega
  · have hpos : 0 < den * 2 ^ (stepExponent b den).toNat := Nat.mul_pos hd (Nat.two_pow_pos _)
    have hsteps : inSteps a den ≤ inSteps b den := by
      unfold inSteps
      rw [heq]
      exact roundDiv_mono hpos hpos (Nat.mul_le_mul_right _ (Nat.mul_le_mul_right _ h))
    rw [heq]
    exact Nat.add_le_add_left hsteps _

/-- Larger ratios have larger nearest doubles. -/
theorem nearestBits_mono {a b den : Nat} (hd : 0 < den) (h : a ≤ b) :
    nearestBits a den ≤ nearestBits b den := by
  rcases Nat.eq_zero_or_pos a with rfl | ha
  · rw [nearestBits_zero]
    exact Nat.zero_le _
  · have hb : 0 < b := Nat.lt_of_lt_of_le ha h
    have hinf := nearestBits_le a den
    by_cases hlarge : 971 < stepExponent b den
    · rw [nearestBits_eq (Nat.pos_iff_ne_zero.1 hb), if_pos hlarge]
      exact hinf
    · have hq := stepExponent_mono ha hd h
      rw [nearestBits_eq (Nat.pos_iff_ne_zero.1 ha), nearestBits_eq (Nat.pos_iff_ne_zero.1 hb),
        if_neg hlarge, if_neg (by omega)]
      have hpos := position_mono ha hd h
      exact Nat.le_min.2 ⟨Nat.le_trans (Nat.min_le_left _ _) hpos, Nat.min_le_right _ _⟩

/-! ## Ratios in other terms -/

theorem roundDiv_scale {a d c : Nat} (hd : 0 < d) (hc : 0 < c) :
    roundDiv (a * c) (d * c) = roundDiv a d := by
  have heq : a * c * d = a * (d * c) := by rw [Nat.mul_assoc, Nat.mul_comm c d]
  exact Nat.le_antisymm (roundDiv_mono (Nat.mul_pos hd hc) hd (Nat.le_of_eq heq))
    (roundDiv_mono hd (Nat.mul_pos hd hc) (Nat.le_of_eq heq.symm))

theorem floorLog2_scale {num den c : Nat} (hn : 0 < num) (hd : 0 < den) (hc : 0 < c) :
    floorLog2 (num * c) (den * c) = floorLog2 num den := by
  have hpow : ∀ k, PowLe (num * c) (den * c) k ↔ PowLe num den k := by
    intro k
    unfold PowLe
    rw [Nat.mul_right_comm den, Nat.mul_right_comm num]
    exact Nat.mul_le_mul_right_iff hc
  have hnc := Nat.mul_pos hn hc
  have hdc := Nat.mul_pos hd hc
  apply Int.le_antisymm
  · have hself := (le_floorLog2_iff hnc hdc _).1 (Int.le_refl _)
    exact (le_floorLog2_iff hn hd _).2 ((hpow _).1 hself)
  · have hself := (le_floorLog2_iff hn hd _).1 (Int.le_refl _)
    exact (le_floorLog2_iff hnc hdc _).2 ((hpow _).2 hself)

/-- The nearest double depends on the ratio only. -/
theorem nearestBits_scale (num : Nat) {den c : Nat} (hd : 0 < den) (hc : 0 < c) :
    nearestBits (num * c) (den * c) = nearestBits num den := by
  rcases Nat.eq_zero_or_pos num with rfl | hn
  · rw [Nat.zero_mul, nearestBits_zero, nearestBits_zero]
  · have hstep : stepExponent (num * c) (den * c) = stepExponent num den := by
      unfold stepExponent
      rw [floorLog2_scale hn hd hc]
    have hsteps : inSteps (num * c) (den * c) = inSteps num den := by
      unfold inSteps
      rw [hstep, Nat.mul_right_comm num, Nat.mul_right_comm den]
      exact roundDiv_scale (Nat.mul_pos hd (Nat.two_pow_pos _)) hc
    rw [nearestBits_eq (Nat.pos_iff_ne_zero.1 (Nat.mul_pos hn hc)),
      nearestBits_eq (Nat.pos_iff_ne_zero.1 hn), hstep, hsteps]

theorem ratio_den_pos (b : Binary) : 0 < b.ratio.2 := Nat.two_pow_pos _

/-- Magnitudes are ordered like their positions. -/
theorem ratio_mono {a b : Binary} (ha : a.Canonical) (hb : b.Canonical) (h : a.index ≤ b.index) :
    a.ratio.1 * b.ratio.2 ≤ b.ratio.1 * a.ratio.2 := by
  obtain ⟨ha1, ha2, -, ha4⟩ := ha
  obtain ⟨hb1, hb2, -, hb4⟩ := hb
  unfold Binary.index at h
  have hexp : a.exponent ≤ b.exponent := by omega
  have hsig : a.significand ≤ b.significand * 2 ^ (b.exponent - a.exponent).toNat := by
    rcases Int.lt_or_eq_of_le hexp with hlt | heq
    · have htwo : 2 ^ 1 ≤ 2 ^ (b.exponent - a.exponent).toNat :=
        Nat.pow_le_pow_right (by decide) (by omega)
      have hprod := Nat.mul_le_mul_left b.significand htwo
      omega
    · rw [show (b.exponent - a.exponent).toNat = 0 by omega, Nat.pow_zero, Nat.mul_one]
      omega
  show a.significand * 2 ^ a.exponent.toNat * 2 ^ (-b.exponent).toNat ≤
    b.significand * 2 ^ b.exponent.toNat * 2 ^ (-a.exponent).toNat
  calc a.significand * 2 ^ a.exponent.toNat * 2 ^ (-b.exponent).toNat
      = a.significand * 2 ^ (a.exponent.toNat + (-b.exponent).toNat) := by
        rw [Nat.mul_assoc, ← Nat.pow_add]
    _ ≤ b.significand * 2 ^ (b.exponent - a.exponent).toNat *
          2 ^ (a.exponent.toNat + (-b.exponent).toNat) := Nat.mul_le_mul_right _ hsig
    _ = b.significand * 2 ^ (b.exponent.toNat + (-a.exponent).toNat) := by
        rw [Nat.mul_assoc, ← Nat.pow_add]
        congr 2
        omega
    _ = b.significand * 2 ^ b.exponent.toNat * 2 ^ (-a.exponent).toNat := by
        rw [Nat.mul_assoc, ← Nat.pow_add]

/-! ## The double of given bits -/

theorem toNat_packComponents (s : Sign) (e : BitVec 11) (m : BitVec 52) :
    (packComponents Format.binary64 s e m).toNat =
      (s.toBitVec.toNat * 2 ^ 11 + e.toNat) * 2 ^ 52 + m.toNat := by
  show (s.toBitVec ++ e ++ m).toNat = _
  rw [BitVec.toNat_append, BitVec.toNat_append, ← Nat.shiftLeft_add_eq_or_of_lt m.isLt,
    ← Nat.shiftLeft_add_eq_or_of_lt e.isLt, Nat.shiftLeft_eq, Nat.shiftLeft_eq]

theorem packComponents_fields (b : BitVec 64) :
    packComponents Format.binary64 (Sign.ofBitVec (@unpackSign Format.binary64 b))
      (@unpackExponent Format.binary64 b) (@unpackMantissa Format.binary64 b) = b := by
  have hb : b.toNat < 2 ^ 64 := b.isLt
  apply BitVec.eq_of_toNat_eq
  have hs : (Sign.ofBitVec (@unpackSign Format.binary64 b)).toBitVec.toNat = b.toNat / 2 ^ 63 := by
    rw [← toNat_unpackSign]
    generalize @unpackSign Format.binary64 b = w
    revert w
    decide
  rw [toNat_packComponents, hs, toNat_unpackExponent, toNat_unpackMantissa]
  omega

/-- A number with all binary digits in use is packed into its fields without the leading one. -/
theorem pack_normal (s : Sign) {e : BitVec 11} (m : BitVec 52) (h : 0 < (1#1 ++ m).toNat)
    (he : e ≠ -1#11) :
    UnpackedFloat.pack Format.binary64 (.finite s (1#1 ++ m).toNat ((e.toNat : Int) - 1075) h) =
      packComponents Format.binary64 s e m := by
  have hm : m.toNat < 2 ^ 52 := m.isLt
  have hlt : e.toNat < 2 ^ 11 := e.isLt
  have hmax : e.toNat ≠ 2047 := fun hn => he (BitVec.eq_of_toNat_eq hn)
  have hlead : (1#1 ++ m).toNat = 2 ^ 52 + m.toNat := by
    rw [BitVec.toNat_append, ← Nat.shiftLeft_add_eq_or_of_lt m.isLt, Nat.shiftLeft_eq]
    rfl
  have hlog : (1#1 ++ m).toNat.log2 + 1 = Format.binary64.mantissaBits := by
    rw [hlead, (Nat.log2_eq_iff (by omega)).2 ⟨Nat.le_add_right _ _, by omega⟩]
    rfl
  have hexp : ((e.toNat : Int) - 1075 + (Format.binary64.exponentBias : Int) +
      (Format.binary64.mantissaBitsWithoutImplicit : Int)).toNat = e.toNat := by
    show ((e.toNat : Int) - 1075 + 1023 + 52).toNat = e.toNat
    omega
  unfold UnpackedFloat.pack
  simp only [hexp]
  rw [if_neg (show ¬ 2 ^ 11 ≤ e.toNat + 1 by omega), if_pos hlog]
  congr 1
  · exact BitVec.eq_of_toNat_eq (Nat.mod_eq_of_lt hlt)
  · apply BitVec.eq_of_toNat_eq
    rw [hlead]
    show (2 ^ 52 + m.toNat) % 2 ^ 52 = m.toNat
    omega

/-- A number below the normal ones is packed into the fraction alone. -/
theorem pack_subnormal (s : Sign) (m : BitVec 52) (h : 0 < m.toNat) :
    UnpackedFloat.pack Format.binary64 (.finite s m.toNat (-1074) h) =
      packComponents Format.binary64 s 0#11 m := by
  have hm : m.toNat < 2 ^ 52 := m.isLt
  have hlog : m.toNat.log2 + 1 ≠ Format.binary64.mantissaBits := by
    have := (Nat.log2_lt (k := 52) (by omega)).2 hm
    show m.toNat.log2 + 1 ≠ 53
    omega
  unfold UnpackedFloat.pack
  simp only
  rw [if_neg (by decide), if_neg hlog]
  congr 1
  exact BitVec.eq_of_toNat_eq (Nat.mod_eq_of_lt hm)

/-- Bits that are not those of a NaN come back from the number that they stand for. -/
theorem pack_unpack {b : BitVec 64} (h : b.toNat % 2 ^ 63 ≤ 2047 * 2 ^ 52) :
    UnpackedFloat.pack Format.binary64 (UnpackedFloat.unpack Format.binary64 b) = b := by
  have hm := toNat_unpackMantissa b
  have he := toNat_unpackExponent b
  refine Eq.trans ?_ (packComponents_fields b)
  unfold UnpackedFloat.unpack
  simp only
  by_cases h1 : @unpackExponent Format.binary64 b = -1#11
  · have hzero : @unpackMantissa Format.binary64 b = 0#52 := by
      rw [h1] at he
      apply BitVec.eq_of_toNat_eq
      rw [hm]
      have : (-1#11).toNat = 2047 := rfl
      show b.toNat % 2 ^ 52 = 0
      omega
    rw [if_pos h1, if_pos hzero, h1, hzero]
    rfl
  · rw [if_neg h1]
    by_cases h0 : @unpackExponent Format.binary64 b = 0#11
    · rw [if_pos h0]
      by_cases hz : @unpackMantissa Format.binary64 b = 0#52
      · rw [dif_pos hz, h0, hz]
        rfl
      · rw [dif_neg hz]
        simp only [h0]
        exact pack_subnormal _ _ _
    · rw [if_neg h0]
      exact pack_normal _ _ _ h1

theorem toBits_ofBits {w : UInt64} (h : w.toNat % 2 ^ 63 ≤ 2047 * 2 ^ 52) :
    (Float.ofBits w).toBits = w := by
  show UInt64.ofBitVec (UnpackedFloat.pack Format.binary64
    (UnpackedFloat.unpack Format.binary64 w.toBitVec)) = w
  rw [pack_unpack h]

/-! ## The nearest double -/

theorem toBits_nearest (negative : Bool) (num den : Nat) :
    (nearest negative num den).toBits.toNat =
      (if negative then 2 ^ 63 else 0) + nearestBits num den := by
  have hle := nearestBits_le num den
  have hw : (UInt64.ofNat ((if negative then pow2 63 else 0) + nearestBits num den)).toNat =
      (if negative then 2 ^ 63 else 0) + nearestBits num den := by
    rw [UInt64.toNat_ofNat']
    show ((if negative then 2 ^ 63 else 0) + nearestBits num den) % 2 ^ 64 = _
    cases negative <;> simp only [Bool.false_eq_true, if_false, if_true] <;> omega
  unfold nearest
  rw [toBits_ofBits, hw]
  rw [hw]
  cases negative <;> simp only [Bool.false_eq_true, if_false, if_true] <;> omega

theorem signBit_nearest (negative : Bool) (num den : Nat) :
    signBit (nearest negative num den) = negative := by
  have hbits := toBits_nearest negative num den
  have hle := nearestBits_le num den
  cases negative with
  | false =>
    rw [← Bool.not_eq_true, signBit_iff]
    simp only [Bool.false_eq_true, if_false] at hbits
    omega
  | true =>
    rw [signBit_iff]
    simp only [if_true] at hbits
    omega

/-- The bits of a rounded ratio tell where it stands among all doubles. -/
theorem rank_nearest (negative : Bool) (num den : Nat) :
    rank (nearest negative num den) =
      if negative then -(nearestBits num den : Int) else nearestBits num den := by
  have hle := nearestBits_le num den
  have hmod : (nearest negative num den).toBits.toNat % 2 ^ 63 = nearestBits num den := by
    rw [toBits_nearest]
    cases negative <;> simp only [Bool.false_eq_true, if_false, if_true] <;> omega
  unfold rank sign
  rw [hmod, signBit_nearest]
  cases negative <;> rfl

theorem isNaN_nearest (negative : Bool) (num den : Nat) :
    (nearest negative num den).isNaN = false := by
  have hle := nearestBits_le num den
  have hmod := toBits_mod (nearest negative num den)
  have hf := fractionField_lt (nearest negative num den)
  rw [toBits_nearest] at hmod
  rw [isNaN_eq]
  cases hb : Binary.ofFloat? (nearest negative num den) with
  | some b => rfl
  | none =>
    have hzero : fractionField (nearest negative num den) = 0 := by
      have he := exponentField_of_ofFloat?_eq_none hb
      cases negative <;> simp only [Bool.false_eq_true, if_false, if_true] at hmod <;> omega
    simp [hzero]

/-- The rank of the double nearest to a ratio with a sign. -/
def ratioRank (num : Int) (den : Nat) : Int :=
  if num < 0 then -(nearestBits num.natAbs den) else nearestBits num.natAbs den

theorem ratioRank_apply (s : Sign) (num den : Nat) :
    ratioRank (s.apply num) den = s.apply (nearestBits num den) := by
  unfold ratioRank
  cases s with
  | positive =>
    have hnot : ¬ Sign.positive.apply (num : Int) < 0 := Int.not_lt.2 (Int.natCast_nonneg num)
    rw [if_neg hnot]
    rfl
  | negative =>
    simp only [Sign.apply, Int.natAbs_neg, Int.natAbs_natCast]
    rcases Nat.eq_zero_or_pos num with rfl | hpos
    · rw [nearestBits_zero]
      rfl
    · rw [if_pos (by omega)]

theorem ratioRank_mono {m n : Int} {den : Nat} (hd : 0 < den) (h : m ≤ n) :
    ratioRank m den ≤ ratioRank n den := by
  unfold ratioRank
  split
  · split
    · have := nearestBits_mono hd (show n.natAbs ≤ m.natAbs by omega)
      omega
    · omega
  · rw [if_neg (by omega)]
    exact Int.ofNat_le.2 (nearestBits_mono hd (by omega))

end TrajectorySafety.Number
