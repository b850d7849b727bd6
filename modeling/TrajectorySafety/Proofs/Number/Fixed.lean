import TrajectorySafety.Number.Decimal
import TrajectorySafety.Number.Reading
import TrajectorySafety.Proofs.Number.Nearest

/-!
Numbers with a set number of places, written and read back.

What is read back is the double nearest to the decimal that was written (`float?_fixed`). It need
not be the double that the decimal was written for, but doubles are written in their order
(`writtenUnits_mono`), and so writing and reading keep the order of finite doubles and never leave
them (`reread_le_reread`, `isFinite_reread`).
-/

namespace TrajectorySafety.Number

open Float.Model.UnpackedFloat (Sign)

/-! ## Digits -/

theorem isDigit_eq (c : Char) : isDigit c = c.isDigit := rfl

theorem isDigit_of_mem_digitChars {n : Nat} {c : Char} (h : c ∈ digitChars n) :
    isDigit c = true := by
  rw [isDigit_eq]
  exact Nat.isDigit_of_mem_toDigits (by decide) (by decide) h

theorem digitsNat_eq (cs : List Char) : digitsNat cs = Nat.ofDigitChars 10 cs 0 := by
  rw [Nat.ofDigitChars_eq_foldl]
  simp only [digitsNat, Nat.mul_comm 10]

theorem digitsNat_digitChars (n : Nat) : digitsNat (digitChars n) = n := by
  rw [digitsNat_eq]
  exact Nat.ofDigitChars_toDigits (by decide) (by decide)

/-- Zeros in front change nothing. -/
theorem digitsNat_zeros (k : Nat) (cs : List Char) :
    digitsNat (List.replicate k '0' ++ cs) = digitsNat cs := by
  rw [digitsNat_eq, digitsNat_eq, Nat.ofDigitChars_append, Nat.ofDigitChars_replicate_zero,
    Nat.mul_zero]

/-! ## Numerals -/

/-- A number with a point: digits before it, the right number of them after it, and all of them
together are the number. -/
theorem pointed_eq {places : Nat} (hp : 0 < places) (n : Nat) :
    ∃ whole fraction, pointed places n = whole ++ '.' :: fraction ∧ whole ≠ [] ∧
      fraction.length = places ∧ (∀ c ∈ whole ++ fraction, isDigit c = true) ∧
      digitsNat (whole ++ fraction) = n := by
  let padded := List.replicate (places + 1 - (digitChars n).length) '0' ++ digitChars n
  have hlen : places + 1 ≤ padded.length := by
    simp only [padded, List.length_append, List.length_replicate]
    omega
  refine ⟨padded.take (padded.length - places), padded.drop (padded.length - places), ?_, ?_, ?_,
    ?_, ?_⟩
  · unfold pointed
    rw [if_neg (by omega)]
  · intro h
    have := congrArg List.length h
    simp only [List.length_take, List.length_nil] at this
    omega
  · rw [List.length_drop]
    omega
  · rw [List.take_append_drop]
    intro c hc
    rcases List.mem_append.1 hc with hc | hc
    · rw [List.eq_of_mem_replicate hc]
      rfl
    · exact isDigit_of_mem_digitChars hc
  · rw [List.take_append_drop, digitsNat_zeros, digitsNat_digitChars]

theorem numeral?_append {whole fraction : List Char} (hw : whole ≠ [])
    (hd : ∀ c ∈ whole ++ fraction, isDigit c = true) :
    numeral? (whole ++ '.' :: fraction) =
      some (digitsNat (whole ++ fraction), -(fraction.length : Int)) := by
  have hwhole : ∀ c ∈ whole, isDigit c = true := fun c hc => hd c (List.mem_append_left _ hc)
  have hfraction : ∀ c ∈ fraction, isDigit c = true := fun c hc => hd c (List.mem_append_right _ hc)
  have htake : (whole ++ '.' :: fraction).takeWhile isDigit = whole := by
    rw [List.takeWhile_append_of_pos hwhole, List.takeWhile_cons_of_neg (by decide),
      List.append_nil]
  have hdrop : (whole ++ '.' :: fraction).dropWhile isDigit = '.' :: fraction := by
    rw [List.dropWhile_append_of_pos hwhole, List.dropWhile_cons_of_neg (by decide)]
  have htake' : fraction.takeWhile isDigit = fraction := by
    rw [← List.append_nil fraction, List.takeWhile_append_of_pos hfraction]
    rfl
  have hdrop' : fraction.dropWhile isDigit = [] := by
    rw [← List.append_nil fraction, List.dropWhile_append_of_pos hfraction]
    rfl
  unfold numeral?
  simp only [htake, hdrop, htake', hdrop', List.isEmpty_eq_false_iff.2 hw, Bool.false_and,
    Bool.false_eq_true, if_false, exponentPart?]
  simp

/-- A body that starts with a digit is read as a numeral. -/
theorem splitSign_of_digit {c : Char} {cs : List Char} (hc : isDigit c = true) (negative : Bool) :
    splitSign (if negative then '-' :: c :: cs else c :: cs) = (negative, c :: cs) := by
  cases negative with
  | true => rfl
  | false =>
    simp only [Bool.false_eq_true, if_false]
    unfold splitSign
    split
    · next h => cases h; cases hc
    · next h => cases h; cases hc
    · rfl

theorem toLower_of_isDigit {c : Char} (hc : isDigit c = true) : c.toLower = c := by
  rw [isDigit_eq] at hc
  simp only [Char.toLower]
  rw [dif_neg]
  intro h
  simp only [Char.isDigit, Bool.and_eq_true, decide_eq_true_eq] at hc
  have h1 := UInt32.le_iff_toNat_le.1 h.1
  have h2 := UInt32.le_iff_toNat_le.1 hc.2
  simp at h1 h2
  omega

/-- What starts with a digit, or with a minus sign and a digit, can only be a numeral. -/
theorem float?_of_digit {c : Char} {cs : List Char} (hc : isDigit c = true) (negative : Bool) :
    float? (if negative then '-' :: c :: cs else c :: cs) =
      (numeral? (c :: cs)).map fun (m, e) => ofDecimal negative m e := by
  have hlower : ∀ d rest, isDigit d = false → (c :: cs).map Char.toLower ≠ d :: rest := by
    intro d rest hd h
    have hcd := (List.cons.inj h).1
    rw [toLower_of_isDigit hc] at hcd
    rw [hcd, hd] at hc
    cases hc
  unfold float?
  rw [splitSign_of_digit hc]
  simp only
  rw [if_neg, if_neg]
  · cases numeral? (c :: cs) <;> rfl
  · exact hlower 'n' _ rfl
  · rintro (h | h)
    · exact hlower 'i' _ rfl h
    · exact hlower 'i' _ rfl h

theorem ofDecimal_places {places : Nat} (hp : places ≤ 400) (negative : Bool) (n : Nat) :
    ofDecimal negative n (-(places : Int)) = nearest negative n (pow10 places) := by
  unfold ofDecimal
  by_cases hn : n = 0
  · simp only [hn, if_true, nearest, nearestBits_zero]
  · simp only [hn, if_false]
    rw [if_neg (by omega), if_neg (by omega), show (-(places : Int)).toNat = 0 by omega,
      show (- -(places : Int)).toNat = places by omega]
    simp [pow10]

/-! ## Reading back -/

/-- The magnitude of a double in units of the last of a number of places, rounded. -/
def Binary.inUnits (places : Nat) (b : Binary) : Nat :=
  roundDiv (b.ratio.1 * pow10 places) b.ratio.2

/-- The double that is read back from a double written with a number of places. -/
def Binary.reread (places : Nat) (b : Binary) : Float :=
  nearest b.negative (b.inUnits places) (pow10 places)

theorem float?_fixedChars {places : Nat} (h0 : 0 < places) (h1 : places ≤ 400) (b : Binary) :
    float? (fixedChars places b) = some (b.reread places) := by
  obtain ⟨whole, fraction, heq, hw, hf, hd, hn⟩ := pointed_eq h0 (b.inUnits places)
  have hchars : fixedChars places b =
      if b.negative then '-' :: pointed places (b.inUnits places)
      else pointed places (b.inUnits places) := rfl
  obtain ⟨c, cs, rfl⟩ := List.exists_cons_of_ne_nil hw
  have hc : isDigit c = true := hd c (by simp)
  have hnumeral := numeral?_append hw hd
  rw [hn, hf] at hnumeral
  rw [hchars, heq]
  rw [List.cons_append] at hnumeral ⊢
  rw [float?_of_digit hc, hnumeral, Option.map_some]
  exact congrArg some (ofDecimal_places h1 b.negative (b.inUnits places))

/-! ## The order of what is read back -/

theorem pow10_pos (n : Nat) : 0 < pow10 n := Nat.pow_pos (by decide)

theorem inUnits_mono {a b : Binary} (places : Nat) (ha : a.Canonical) (hb : b.Canonical)
    (h : a.index ≤ b.index) : a.inUnits places ≤ b.inUnits places := by
  refine roundDiv_mono (ratio_den_pos a) (ratio_den_pos b) ?_
  rw [Nat.mul_right_comm, Nat.mul_right_comm b.ratio.1]
  exact Nat.mul_le_mul_right _ (ratio_mono ha hb h)

theorem inUnits_eq_zero {b : Binary} (places : Nat) (hb : b.Canonical) (h : b.index = 0) :
    b.inUnits places = 0 := by
  have hs : b.ratio.1 = 0 := by
    show b.significand * pow2 b.exponent.toNat = 0
    rw [(significand_eq_zero_iff hb).2 h, Nat.zero_mul]
  unfold Binary.inUnits
  rw [hs, Nat.zero_mul, ← Nat.le_zero_eq, roundDiv_le_iff (ratio_den_pos b)]
  have := ratio_den_pos b
  omega

/-- The largest finite magnitude. -/
def Binary.largest : Binary := ⟨false, 2 ^ 53 - 1, 971⟩

theorem canonical_largest : Binary.largest.Canonical :=
  ⟨by decide, by decide, by decide, .inr (by decide)⟩

theorem index_le_largest {b : Binary} (hb : b.Canonical) : b.index ≤ Binary.largest.index := by
  have hlt := index_lt hb
  have hmax : Binary.largest.index = 2047 * 2 ^ 52 - 1 := by decide
  omega

/-- What is read back of a finite double is finite. -/
theorem Binary.isFinite_reread {b : Binary} (places : Nat) (hb : b.Canonical) :
    (b.reread places).isFinite = true := by
  have hmax : nearestBits Binary.largest.ratio.1 1 = 2047 * 2 ^ 52 - 1 := by decide +kernel
  have hunits : Binary.largest.inUnits places = Binary.largest.ratio.1 * pow10 places :=
    roundDiv_one _
  have hle : nearestBits (b.inUnits places) (pow10 places) ≤ 2047 * 2 ^ 52 - 1 := by
    have hmono := nearestBits_mono (pow10_pos places)
      (inUnits_mono places hb canonical_largest (index_le_largest hb))
    rw [hunits] at hmono
    have hscale := nearestBits_scale Binary.largest.ratio.1 Nat.one_pos (pow10_pos places)
    rw [Nat.one_mul, hmax] at hscale
    omega
  unfold Binary.reread
  rw [isFinite_iff_rank (isNaN_nearest _ _ _), rank_nearest]
  cases b.negative <;> simp only [Bool.false_eq_true, if_false, if_true] <;> omega

/-- The double that is read back from a double written with a number of places. -/
def reread (places : Nat) (x : Float) : Float :=
  match Binary.ofFloat? x with
  | some b => b.reread places
  | none => x

theorem reread_of_ofFloat? {x : Float} {b : Binary} (places : Nat)
    (h : Binary.ofFloat? x = some b) :
    reread places x = nearest b.negative (b.inUnits places) (pow10 places) := by
  simp only [reread, h]
  rfl

theorem float?_fixed {places : Nat} (h0 : 0 < places) (h1 : places ≤ 400) {x : Float}
    (hx : x.isFinite = true) : float? (fixed places x).toList = some (reread places x) := by
  obtain ⟨b, hb⟩ := ofFloat?_of_isFinite hx
  simp only [fixed, reread, hb, String.toList_ofList]
  exact float?_fixedChars h0 h1 b

theorem isFinite_reread {x : Float} (places : Nat) (hx : x.isFinite = true) :
    (reread places x).isFinite = true := by
  obtain ⟨b, hb⟩ := ofFloat?_of_isFinite hx
  simp only [reread, hb]
  exact Binary.isFinite_reread places (canonical_of_ofFloat? hb)

/-- A finite double as it is written: a number of units of the last place. -/
def writtenUnits (places : Nat) (x : Float) : Int :=
  match Binary.ofFloat? x with
  | some b => (sign x).apply (b.inUnits places)
  | none => 0

theorem writtenUnits_eq {x : Float} {b : Binary} (places : Nat) (h : Binary.ofFloat? x = some b) :
    writtenUnits places x = (sign x).apply (b.inUnits places) := by
  simp only [writtenUnits, h]

/-- Doubles are written in their order, possibly alike. -/
theorem writtenUnits_mono {x y : Float} (places : Nat) (hx : x.isFinite = true)
    (hy : y.isFinite = true) (h : x ≤ y) : writtenUnits places x ≤ writtenUnits places y := by
  obtain ⟨a, ha⟩ := ofFloat?_of_isFinite hx
  obtain ⟨b, hb⟩ := ofFloat?_of_isFinite hy
  have hca := canonical_of_ofFloat? ha
  have hcb := canonical_of_ofFloat? hb
  have ia := index_nonneg hca
  have ib := index_nonneg hcb
  have hrank := ((le_iff x y).1 h).2.2
  rw [rank_eq_index ha, rank_eq_index hb] at hrank
  rw [writtenUnits_eq places ha, writtenUnits_eq places hb]
  cases hsx : sign x <;> cases hsy : sign y <;> simp only [hsx, hsy, Sign.apply] at hrank ⊢
  · have := inUnits_mono places hcb hca (by omega)
    omega
  · omega
  · -- only the two zeros are in this order with these signs
    rw [inUnits_eq_zero places hca (by omega), inUnits_eq_zero places hcb (by omega)]
    decide
  · exact Int.ofNat_le.2 (inUnits_mono places hca hcb hrank)

/-- What is read back depends on what was written alone, but for the sign of a zero. -/
theorem rank_reread {x : Float} (places : Nat) (hx : x.isFinite = true) :
    rank (reread places x) = ratioRank (writtenUnits places x) (pow10 places) := by
  obtain ⟨b, hb⟩ := ofFloat?_of_isFinite hx
  rw [writtenUnits_eq places hb, ratioRank_apply, reread_of_ofFloat? places hb, rank_nearest, sign,
    negative_of_ofFloat? hb]
  cases signBit x <;> rfl

/-- Writing and reading back keeps the order of finite doubles. -/
theorem reread_le_reread {x y : Float} (places : Nat) (hx : x.isFinite = true)
    (hy : y.isFinite = true) (h : x ≤ y) : reread places x ≤ reread places y := by
  rw [le_iff, rank_reread places hx, rank_reread places hy]
  exact ⟨isNaN_of_isFinite (isFinite_reread places hx),
    isNaN_of_isFinite (isFinite_reread places hy),
    ratioRank_mono (pow10_pos places) (writtenUnits_mono places hx hy h)⟩

/-! ## The characters of a number -/

/-- The characters from the minus sign to the last digit, among them all that numbers are written
with. -/
def InNumber (c : Char) : Prop := 45 ≤ c.toNat ∧ c.toNat ≤ 57

instance (c : Char) : Decidable (InNumber c) :=
  inferInstanceAs (Decidable (45 ≤ c.toNat ∧ c.toNat ≤ 57))

theorem inNumber_of_isDigit {c : Char} (h : isDigit c = true) : InNumber c := by
  simp only [isDigit, Bool.and_eq_true, decide_eq_true_eq] at h
  have h1 := UInt32.le_iff_toNat_le.1 h.1
  have h2 := UInt32.le_iff_toNat_le.1 h.2
  have h3 : '0'.val.toNat = 48 := rfl
  have h4 : '9'.val.toNat = 57 := rfl
  unfold InNumber Char.toNat
  omega

theorem fixed_inNumber {places : Nat} (hp : 0 < places) {x : Float} (hx : x.isFinite = true) :
    (fixed places x).toList ≠ [] ∧ ∀ c ∈ (fixed places x).toList, InNumber c := by
  obtain ⟨b, hb⟩ := ofFloat?_of_isFinite hx
  obtain ⟨whole, fraction, heq, hw, -, hd, -⟩ := pointed_eq hp (b.inUnits places)
  have hchars : (fixed places x).toList =
      if b.negative then '-' :: (whole ++ '.' :: fraction) else whole ++ '.' :: fraction := by
    simp only [fixed, hb, String.toList_ofList]
    rw [← heq]
    rfl
  have hbody : ∀ c ∈ whole ++ '.' :: fraction, InNumber c := by
    intro c hc
    rcases List.mem_append.1 hc with hc | hc
    · exact inNumber_of_isDigit (hd c (List.mem_append_left _ hc))
    · rcases List.mem_cons.1 hc with rfl | hc
      · decide
      · exact inNumber_of_isDigit (hd c (List.mem_append_right _ hc))
  rw [hchars]
  cases b.negative with
  | true =>
    refine ⟨by simp, ?_⟩
    simp only [if_true, List.forall_mem_cons]
    exact ⟨by decide, hbody⟩
  | false => exact ⟨by simp, hbody⟩

end TrajectorySafety.Number
