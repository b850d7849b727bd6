import TrajectorySafety.Proofs.Number.Nearest

/-!
The rounding in the arithmetic of doubles.

The arithmetic works on numbers `m * 2 ^ e` with as many digits as it needs, and drops digits at the
end. Of what is dropped, or left over by a division, two bits keep what is needed (`Shifted`), so
that the digits that remain round like a quotient (`Shifted.roundedMantissa_eq`). A carry into one
digit more shifts once again (`shiftToTargetExponent_carry`). Packed into the fields of a double
this is the nearest double (`toNat_pack_of_inSteps`, `toNat_pack_round`).
-/

namespace TrajectorySafety.Number

open Float.Model (UnpackedFloat Format totalExponent)
open Float.Model.UnpackedFloat

/-! ## Dropping digits -/

/-- What is kept of the quotient `m / d`: its floor, whether the rest is half a unit or more, and
whether there is something beside that half. -/
structure Shifted (m d : Nat) (em : ExtendedMantissa) : Prop where
  mantissa_eq : em.mantissa = m / d
  roundBit_iff : em.roundBit = true ↔ d ≤ 2 * (m % d)
  stickyBit_iff : em.stickyBit = true ↔ 2 * (m % d) % d ≠ 0

/-- A quotient that comes with its rest keeps what is needed. -/
theorem shifted_fraction (m : Nat) {d : Nat} (hd : 0 < d) :
    Shifted m d (.ofMantissaAndAccuracy (m / d) (accuracyOfFraction (m % d) d)) := by
  have hlt : m % d < d := Nat.mod_lt m hd
  have hless (h : 2 * (m % d) < d) : 2 * (m % d) % d = 2 * (m % d) := Nat.mod_eq_of_lt h
  have hmore (h : d ≤ 2 * (m % d)) : 2 * (m % d) % d = 2 * (m % d) - d := by
    rw [Nat.mod_eq_sub_mod h, Nat.mod_eq_of_lt (by omega)]
  unfold accuracyOfFraction
  by_cases hzero : m % d = 0
  · rw [if_pos hzero]
    exact ⟨rfl, by simp [ExtendedMantissa.ofMantissaAndAccuracy, hzero, hd.ne'],
      by simp [ExtendedMantissa.ofMantissaAndAccuracy, hzero]⟩
  · rw [if_neg hzero]
    rcases Nat.lt_trichotomy (2 * (m % d)) d with h | h | h
    · rw [Nat.compare_eq_lt.2 h]
      exact ⟨rfl, iff_of_false Bool.false_ne_true (by omega),
        iff_of_true rfl (by rw [hless h]; omega)⟩
    · rw [Nat.compare_eq_eq.2 h]
      exact ⟨rfl, iff_of_true rfl (by omega),
        iff_of_false Bool.false_ne_true (by rw [hmore (by omega)]; omega)⟩
    · rw [Nat.compare_eq_gt.2 h]
      exact ⟨rfl, iff_of_true rfl (by omega), iff_of_true rfl (by rw [hmore (by omega)]; omega)⟩

theorem shifted_exact (m : Nat) : Shifted m 1 (.ofMantissaAndAccuracy m .exact) := by
  have h := shifted_fraction m Nat.one_pos
  rwa [Nat.mod_one, Nat.div_one] at h

theorem Shifted.shiftRightOne {m d : Nat} {em : ExtendedMantissa} (hd : 0 < d)
    (h : Shifted m d em) : Shifted m (d * 2) em.shiftRightOne := by
  have hrest : m % (d * 2) = m % d + d * (m / d % 2) := Nat.mod_mul
  have hlt : m % d < d := Nat.mod_lt m hd
  have hbit : m / d % 2 < 2 := Nat.mod_lt _ (by decide)
  refine ⟨?_, ?_, ?_⟩
  · show em.mantissa / 2 = _
    rw [h.mantissa_eq, Nat.div_div_eq_div_mul]
  · show (em.mantissa % 2 != 0) = true ↔ _
    rw [h.mantissa_eq, hrest, bne_iff_ne]
    rcases Nat.eq_zero_or_pos (m / d % 2) with h0 | h1
    · rw [h0]
      omega
    · rw [show m / d % 2 = 1 by omega]
      omega
  · -- what was a half before is now beside it
    have hbefore : (em.roundBit || em.stickyBit) = true ↔ m % d ≠ 0 := by
      rw [Bool.or_eq_true, h.roundBit_iff, h.stickyBit_iff]
      rcases Nat.lt_or_ge (2 * (m % d)) d with hsmall | hlarge
      · rw [Nat.mod_eq_of_lt hsmall]
        omega
      · omega
    have hafter : 2 * (m % (d * 2)) % (d * 2) = 2 * (m % d) := by
      rw [hrest, Nat.mul_comm d 2, Nat.mul_mod_mul_left, Nat.add_mul_mod_self_left,
        Nat.mod_eq_of_lt hlt]
    show (em.roundBit || em.stickyBit) = true ↔ _
    rw [hbefore, hafter]
    omega

theorem Shifted.shiftRight {m d : Nat} {em : ExtendedMantissa} (hd : 0 < d) (h : Shifted m d em)
    (n : Nat) : Shifted m (d * 2 ^ n) (em >>> n) := by
  show Shifted m (d * 2 ^ n) (n.repeat ExtendedMantissa.shiftRightOne em)
  induction n with
  | zero => exact (Nat.mul_one d).symm ▸ h
  | succ n ih =>
    rw [Nat.pow_succ, ← Nat.mul_assoc]
    exact ih.shiftRightOne (Nat.mul_pos hd (Nat.two_pow_pos n))

/-- What is kept is rounded like the quotient. -/
theorem Shifted.roundedMantissa_eq {m d : Nat} {em : ExtendedMantissa} (hd : 0 < d)
    (h : Shifted m d em) : em.roundedMantissa = roundDiv m d := by
  obtain ⟨hm, hr, hs⟩ := h
  have hlt : m % d < d := Nat.mod_lt m hd
  have hhalf : d ≤ 2 * (m % d) → 2 * (m % d) % d = 2 * (m % d) - d := fun hle => by
    rw [Nat.mod_eq_sub_mod hle, Nat.mod_eq_of_lt (by omega)]
  rw [roundDiv_eq]
  obtain ⟨mantissa, roundBit, stickyBit⟩ := em
  simp only at hm hr hs
  subst hm
  cases roundBit with
  | false =>
    have hless : 2 * (m % d) < d := by simpa using hr
    rw [if_pos (.inl hless)]
    cases stickyBit <;> rfl
  | true =>
    have hle : d ≤ 2 * (m % d) := by simpa using hr
    rw [hhalf hle] at hs
    cases stickyBit with
    | false =>
      have heq : 2 * (m % d) = d := by
        simp only [Bool.false_eq_true, false_iff, ne_eq, not_not] at hs
        omega
      show m / d + m / d % 2 = _
      by_cases heven : m / d % 2 = 0
      · rw [if_pos (.inr ⟨heq, heven⟩), heven, Nat.add_zero]
      · rw [if_neg (by omega)]
        omega
    | true =>
      have hmore : 2 * (m % d) - d ≠ 0 := by simpa using hs
      rw [if_neg (by omega)]
      rfl

/-! ## The exponent -/

theorem floorLog2_scaled {m : Nat} (hm : 0 < m) (e : Int) :
    floorLog2 (m * 2 ^ e.toNat) (2 ^ (-e).toNat) = m.log2 + e := by
  have hnum : 0 < m * 2 ^ e.toNat := Nat.mul_pos hm (Nat.two_pow_pos _)
  have hle : ∀ k : Int, k ≤ floorLog2 (m * 2 ^ e.toNat) (2 ^ (-e).toNat) ↔ k ≤ m.log2 + e := by
    intro k
    rw [le_floorLog2_iff hnum (Nat.two_pow_pos _)]
    unfold PowLe
    rcases Int.le_total k e with hke | hke
    · have hpow : 2 ^ (-e).toNat * 2 ^ k.toNat * 2 ^ (e - k).toNat =
          2 ^ e.toNat * 2 ^ (-k).toNat := by
        rw [← Nat.pow_add, ← Nat.pow_add, ← Nat.pow_add]
        congr 1
        omega
      rw [Nat.mul_assoc, ← hpow]
      refine iff_of_true ?_ (by omega)
      calc 2 ^ (-e).toNat * 2 ^ k.toNat
          ≤ 2 ^ (-e).toNat * 2 ^ k.toNat * (m * 2 ^ (e - k).toNat) :=
            Nat.le_mul_of_pos_right _ (Nat.mul_pos hm (Nat.two_pow_pos _))
        _ = m * (2 ^ (-e).toNat * 2 ^ k.toNat * 2 ^ (e - k).toNat) := by rw [Nat.mul_left_comm]
    · have hpow : 2 ^ (-e).toNat * 2 ^ k.toNat =
          2 ^ (k - e).toNat * (2 ^ e.toNat * 2 ^ (-k).toNat) := by
        rw [← Nat.pow_add, ← Nat.pow_add, ← Nat.pow_add]
        congr 1
        omega
      rw [Nat.mul_assoc, hpow, Nat.mul_le_mul_right_iff (Nat.mul_pos (Nat.two_pow_pos _)
        (Nat.two_pow_pos _)), ← Nat.le_log2 (by omega)]
      omega
  exact Int.le_antisymm ((hle _).1 (Int.le_refl _)) ((hle _).2 (Int.le_refl _))

theorem targetExponent_eq {m : Nat} (hm : 0 < m) (e : Int) :
    Format.binary64.targetExponent (totalExponent m e) =
      stepExponent (m * 2 ^ e.toNat) (2 ^ (-e).toNat) := by
  rw [stepExponent, floorLog2_scaled hm]
  show max ((m.log2 : Int) + 1 + e - 53) (3 - 1024 - 53) = _
  omega

/-! ## Rounding -/

theorem log2_shiftLeft {m : Nat} (hm : 0 < m) (k : Nat) : (m <<< k).log2 = m.log2 + k := by
  have hle : 2 ^ m.log2 ≤ m := Nat.log2_self_le (by omega)
  have hlt : m < 2 ^ (m.log2 + 1) := Nat.lt_log2_self
  rw [Nat.shiftLeft_eq, Nat.log2_eq_iff (Nat.mul_pos hm (Nat.two_pow_pos k)).ne']
  constructor
  · rw [Nat.pow_add]
    exact Nat.mul_le_mul_right _ hle
  · rw [Nat.add_right_comm, Nat.pow_add]
    exact Nat.mul_lt_mul_of_pos_right hlt (Nat.two_pow_pos k)

/-- Equal quotients are rounded to one number. -/
theorem roundDiv_congr {a b d d' : Nat} (hd : 0 < d) (hd' : 0 < d') (h : a * d' = b * d) :
    roundDiv a d = roundDiv b d' :=
  Nat.le_antisymm (roundDiv_mono hd hd' (Nat.le_of_eq h))
    (roundDiv_mono hd' hd (Nat.le_of_eq h.symm))

/-- The digits of `m * 2 ^ e` from the exponent of its step on are rounded to a number of steps. -/
theorem shiftToTargetExponent_first {m : Nat} (hm : 0 < m) (e : Int) :
    ∃ em, shiftToTargetExponent .binary64
        (m <<< (e - stepExponent (m * 2 ^ e.toNat) (2 ^ (-e).toNat)).toNat)
        (e - (e - stepExponent (m * 2 ^ e.toNat) (2 ^ (-e).toNat)).toNat) .exact =
          (em, stepExponent (m * 2 ^ e.toNat) (2 ^ (-e).toNat)) ∧
      em.roundedMantissa = inSteps (m * 2 ^ e.toNat) (2 ^ (-e).toNat) := by
  have htarget := targetExponent_eq hm e
  unfold inSteps
  generalize stepExponent (m * 2 ^ e.toNat) (2 ^ (-e).toNat) = q at htarget
  have hsame : Format.binary64.targetExponent
      (totalExponent (m <<< (e - q).toNat) (e - (e - q).toNat)) = q := by
    rw [← htarget]
    unfold totalExponent
    rw [log2_shiftLeft hm]
    congr 1
    omega
  refine ⟨ExtendedMantissa.ofMantissaAndAccuracy (m <<< (e - q).toNat) .exact >>>
    (q - (e - (e - q).toNat)).toNat, ?_, ?_⟩
  · have hend : e - ((e - q).toNat : Int) + (q - (e - (e - q).toNat)).toNat = q := by omega
    unfold shiftToTargetExponent shiftToExponent
    simp only [hsame, hend]
  · have hkept := (shifted_exact (m <<< (e - q).toNat)).shiftRight Nat.one_pos
      (q - (e - (e - q).toNat)).toNat
    rw [Nat.one_mul] at hkept
    rw [hkept.roundedMantissa_eq (Nat.two_pow_pos _)]
    refine roundDiv_congr (Nat.two_pow_pos _)
      (Nat.mul_pos (Nat.two_pow_pos _) (Nat.two_pow_pos _)) ?_
    rw [Nat.shiftLeft_eq, Nat.mul_assoc, Nat.mul_assoc m, Nat.mul_assoc m, ← Nat.pow_add,
      ← Nat.pow_add, ← Nat.pow_add, ← Nat.pow_add]
    congr 2
    omega

/-- A number with at most 53 digits stays as it is. -/
theorem shiftToTargetExponent_small {m : Nat} {q : Int} (hq : -1074 ≤ q) (hm : m < 2 ^ 53) :
    shiftToTargetExponent .binary64 m q .exact = (⟨m, false, false⟩, q) := by
  have hlog : m.log2 ≤ 52 := by
    rcases Nat.eq_zero_or_pos m with rfl | hpos
    · decide
    · exact Nat.le_of_lt_succ ((Nat.log2_lt (by omega)).2 hm)
  have htarget : (Format.binary64.targetExponent (totalExponent m q) - q).toNat = 0 := by
    show (max ((m.log2 : Int) + 1 + q - 53) (3 - 1024 - 53) - q).toNat = 0
    omega
  unfold shiftToTargetExponent shiftToExponent
  simp only [htarget, Int.natCast_zero, Int.add_zero]
  rfl

/-- A carry into the 54th digit moves the exponent by one. -/
theorem shiftToTargetExponent_carry {q : Int} (hq : -1074 ≤ q) :
    shiftToTargetExponent .binary64 (2 ^ 53) q .exact = (⟨2 ^ 52, false, false⟩, q + 1) := by
  have htarget : (Format.binary64.targetExponent (totalExponent (2 ^ 53) q) - q).toNat = 1 := by
    unfold totalExponent
    rw [Nat.log2_two_pow]
    show (max ((53 : Int) + 1 + q - 53) (3 - 1024 - 53) - q).toNat = 1
    omega
  unfold shiftToTargetExponent shiftToExponent
  simp only [htarget]
  rfl

/-- The number that `m` steps of exponent `q` are carried into. -/
theorem roundWithAccuracy_eq {s : Sign} {m : Nat} {e q q' : Int} {acc : Accuracy}
    {em em' : ExtendedMantissa} (hfirst : shiftToTargetExponent .binary64 m e acc = (em, q))
    (hsecond : shiftToTargetExponent .binary64 em.roundedMantissa q .exact = (em', q')) :
    roundWithAccuracy .binary64 s m e acc =
      if h : em'.mantissa = 0 then .zero s
      else .finite s em'.mantissa q' (Nat.pos_of_ne_zero h) := by
  unfold roundWithAccuracy
  simp only [hfirst, hsecond]

/-! ## Packing -/

theorem toNat_pack_zero (s : Sign) :
    (UnpackedFloat.pack .binary64 (.zero s)).toNat = s.toBitVec.toNat * 2 ^ 63 := by
  cases s <;> rfl

theorem toNat_pack_finite (s : Sign) {m : Nat} {q : Int} (h : 0 < m) (hm : m < 2 ^ 53)
    (hq : -1074 ≤ q) (hfull : q = -1074 ∨ 2 ^ 52 ≤ m) :
    (UnpackedFloat.pack .binary64 (.finite s m q h)).toNat =
      s.toBitVec.toNat * 2 ^ 63 +
        if 971 < q then 2047 * 2 ^ 52 else (q + 1074).toNat * 2 ^ 52 + m := by
  have hbias : (q + (Format.binary64.exponentBias : Int) +
      (Format.binary64.mantissaBitsWithoutImplicit : Int)).toNat = (q + 1075).toNat := by
    show (q + 1023 + 52).toNat = _
    omega
  unfold UnpackedFloat.pack
  simp only [hbias]
  by_cases hlarge : 971 < q
  · rw [if_pos (show 2 ^ 11 ≤ (q + 1075).toNat + 1 by omega), if_pos hlarge]
    show (packComponents Format.binary64 s (-1#11) 0#52).toNat = _
    rw [toNat_packComponents]
    have hones : (-1#11).toNat = 2047 := rfl
    rw [hones, BitVec.toNat_zero]
    omega
  · rw [if_neg (show ¬ 2 ^ 11 ≤ (q + 1075).toNat + 1 by omega), if_neg hlarge]
    have hlog : m.log2 + 1 = Format.binary64.mantissaBits ↔ 2 ^ 52 ≤ m := by
      show m.log2 + 1 = 53 ↔ _
      rw [← Nat.le_log2 (by omega)]
      have := (Nat.log2_lt (k := 53) (by omega)).2 hm
      omega
    by_cases hnormal : 2 ^ 52 ≤ m
    · rw [if_pos (hlog.2 hnormal)]
      erw [toNat_packComponents]
      show (_ + (q + 1075).toNat % 2 ^ 11) * 2 ^ 52 + m % 2 ^ 52 = _
      omega
    · rw [if_neg (fun hn => hnormal (hlog.1 hn))]
      erw [toNat_packComponents]
      show (_ + 0) * 2 ^ 52 + m % 2 ^ 52 = _
      omega

/-- A number that is rounded to the right number of steps is packed into the nearest double. -/
theorem toNat_pack_of_inSteps (s : Sign) {num den m : Nat} {e : Int} {acc : Accuracy}
    {em : ExtendedMantissa} (hnum : 0 < num) (hden : 0 < den)
    (hfirst : shiftToTargetExponent .binary64 m e acc = (em, stepExponent num den))
    (hsteps : em.roundedMantissa = inSteps num den) :
    (UnpackedFloat.pack .binary64 (roundWithAccuracy .binary64 s m e acc)).toNat =
      s.toBitVec.toNat * 2 ^ 63 + nearestBits num den := by
  have hle := inSteps_le hnum hden
  have hlarge := le_inSteps hnum hden
  have hmin : -1074 ≤ stepExponent num den := Int.le_max_right _ _
  rw [nearestBits_eq hnum.ne']
  generalize stepExponent num den = q at *
  generalize inSteps num den = n at *
  rcases Nat.lt_or_eq_of_le hle with hlt | rfl
  · have hsecond := shiftToTargetExponent_small hmin hlt
    rw [← hsteps] at hsecond
    rw [roundWithAccuracy_eq hfirst hsecond, hsteps]
    by_cases hzero : n = 0
    · rw [dif_pos hzero, toNat_pack_zero, if_neg (by omega)]
      omega
    · rw [dif_neg hzero, toNat_pack_finite s _ hlt hmin (by omega)]
      congr 1
      split <;> omega
  · have hsecond := shiftToTargetExponent_carry hmin
    rw [← hsteps] at hsecond
    rw [roundWithAccuracy_eq hfirst hsecond, dif_neg (by decide),
      toNat_pack_finite s _ (by decide) (by omega) (.inr (Nat.le_refl _))]
    congr 1
    split <;> split <;> omega

/-- The rounding of the arithmetic of doubles gives the nearest double. -/
theorem toNat_pack_round (s : Sign) {m : Nat} (hm : 0 < m) (e : Int) :
    (UnpackedFloat.pack .binary64 (UnpackedFloat.round .binary64 s m e)).toNat =
      s.toBitVec.toNat * 2 ^ 63 + nearestBits (m * 2 ^ e.toNat) (2 ^ (-e).toNat) := by
  have hround : UnpackedFloat.round .binary64 s m e = roundWithAccuracy .binary64 s
      (m <<< (e - stepExponent (m * 2 ^ e.toNat) (2 ^ (-e).toNat)).toNat)
      (e - (e - stepExponent (m * 2 ^ e.toNat) (2 ^ (-e).toNat)).toNat) .exact := by
    rw [← targetExponent_eq hm]
    rfl
  obtain ⟨em, hfirst, hsteps⟩ := shiftToTargetExponent_first hm e
  rw [hround]
  exact toNat_pack_of_inSteps s (Nat.mul_pos hm (Nat.two_pow_pos _)) (Nat.two_pow_pos _) hfirst
    hsteps

end TrajectorySafety.Number
