import TrajectorySafety.Proofs.Log.Boxes
import TrajectorySafety.Proofs.Number.Infinity
import TrajectorySafety.Proofs.Random.Streams

/-!
Where a state drawn from a box lies.

A uniform draw is not negative and stays below one (`uniform_between`). A draw between two bounds
adds a part of the width to the lower one, and width, part and sum are rounded. Nonetheless the part
is never more than the exact width (`value_mul_le_sub`): were it more, it would be the whole rounded
width, but the uniform number is too far from one for that, except among numbers so small that the
width is not rounded at all. So the draw lies between the bounds, provided that their width is
finite (`contains_between_iff`); and what is drawn from a box lies in it exactly if no width
overflows (`contains_sampleBox_iff`).
-/

namespace TrajectorySafety

open Number

namespace Number

/-! ## Uniform numbers -/

theorem rank_toFloat (n : UInt64) :
    rank n.toFloat = rankOf n.toNat ∧ n.toFloat.isNaN = false := by
  have h := rank_of_packsTo (x := n.toFloat) (packsTo_normalize n.toNat 0 .positive) rfl
  rw [rankAt_eq, zpow_zero, mul_one, Int.cast_natCast] at h
  exact h

/-- A number of 53 bits, over `2 ^ 53`, does not reach one. -/
theorem toFloat_mul_between {n : UInt64} (h : n.toNat < 2 ^ 53) :
    0 ≤ n.toFloat * Float.ofBits 0x3ca0000000000000 ∧
      n.toFloat * Float.ofBits 0x3ca0000000000000 ≤ belowOne := by
  have hscale : value (Float.ofBits 0x3ca0000000000000) = 1 / 2 ^ 53 := by
    rw [value_of_ofFloat? (b := ⟨false, 2 ^ 52, -105⟩) (by decide)]
    norm_num [signed, Binary.magnitude]
  have hmost : value (Float.ofBits 0x433fffffffffffff) = 2 ^ 53 - 1 := by
    rw [value_of_ofFloat? (b := ⟨false, 2 ^ 53 - 1, 0⟩) (by decide)]
    norm_num [signed, Binary.magnitude]
  obtain ⟨hrank, hnan⟩ := rank_toFloat n
  have hbetween : 0 ≤ n.toFloat ∧ n.toFloat ≤ Float.ofBits 0x433fffffffffffff := by
    refine between_of_rankOf hnan hrank isFinite_zero (by decide) ?_ ?_
    · rw [value_zero]
      positivity
    · rw [hmost, le_sub_iff_add_le]
      exact_mod_cast h
  obtain ⟨hnonneg, hle⟩ := hbetween
  have hfinite := isFinite_of_between isFinite_zero (by decide) hnonneg hle
  rw [le_iff_value isFinite_zero hfinite, value_zero] at hnonneg
  rw [le_iff_value hfinite (by decide), hmost] at hle
  obtain ⟨hrank, hnan⟩ := rank_mul_eq (y := Float.ofBits 0x3ca0000000000000) hfinite (by decide)
  refine between_of_rankOf hnan hrank isFinite_zero (by decide) ?_ ?_
  · rw [value_zero, hscale]
    positivity
  · rw [value_belowOne, hscale]
    linarith

/-! ## A part of a width -/

/-- Finite doubles are multiples of the smallest one. -/
theorem exists_value_eq {x : Float} (hx : x.isFinite = true) :
    ∃ k : ℤ, value x = k * (1 / 2 ^ 1074) := by
  obtain ⟨a, ha⟩ := ofFloat?_of_isFinite hx
  refine ⟨a.units (sign x) (-1074), ?_⟩
  rw [← units_mul ha (canonical_of_ofFloat? ha).exponent_ge, zpow_neg, one_div]
  rfl

/-- If a part of a width is rounded to the whole width, the width is among the smallest numbers. -/
theorem sub_le_of_whole {w d u δ ε : ℚ} (hδ : 0 < δ) (hd : 0 ≤ d) (hdw : d < w)
    (hu : 0 ≤ u) (hu' : u ≤ 1 - δ) (hpart : |w - w * u| ≤ max (|w * u| * δ) ε)
    (hwidth : |w - d| ≤ max (|d| * δ) ε) : w - d ≤ ε := by
  have hw : 0 < w := hd.trans_lt hdw
  have hrest : w * δ ≤ w - w * u := by
    have := mul_le_mul_of_nonneg_left hu' hw.le
    linarith
  have hless : |w * u| * δ < w * δ := by
    rw [abs_of_nonneg (mul_nonneg hw.le hu)]
    exact mul_lt_mul_of_pos_right (mul_lt_of_lt_one_right hw (by linarith)) hδ
  have hsmall : w * δ ≤ ε := by
    obtain h | h := le_max_iff.1 ((le_abs_self _).trans hpart)
    · linarith
    · linarith
  have hsmaller : |d| * δ ≤ ε := by
    rw [abs_of_nonneg hd]
    exact (mul_le_mul_of_nonneg_right hdw.le hδ.le).trans hsmall
  exact ((le_abs_self _).trans hwidth).trans (max_le hsmaller (le_refl ε))

section
variable {lo hi u : Float}

/-- A part of a width, rounded as the width is, is at most the exact width. -/
theorem value_mul_le_sub (hlo : lo.isFinite = true) (hhi : hi.isFinite = true) (hle : lo ≤ hi)
    (hwidth : (hi - lo).isFinite = true) (hu : 0 ≤ u) (hu' : u ≤ belowOne) :
    value ((hi - lo) * u) ≤ value hi - value lo := by
  have hfinite := isFinite_of_between isFinite_zero (by decide) hu hu'
  obtain ⟨hrank, -⟩ := rank_sub_eq hhi hlo
  obtain ⟨hpart, hpart'⟩ := mul_between hwidth (zero_le_sub hhi hlo hle) hu
    (le_trans hu' (by decide))
  have hpfinite := isFinite_of_between isFinite_zero hwidth hpart hpart'
  obtain ⟨hprank, -⟩ := rank_mul_eq hwidth hfinite
  rw [le_iff_value hlo hhi] at hle
  by_contra hmore
  rw [not_le] at hmore
  -- the part is the whole rounded width, which is more than the exact one
  have hwhole : value ((hi - lo) * u) = value (hi - lo) := by
    have hge := rankOf_mono hmore.le
    rw [← hrank, ← rank_eq_rankOf hpfinite] at hge
    exact value_of_rank_eq hpfinite hwidth (le_antisymm ((le_iff _ _).1 hpart').2.2 hge)
  have hperror := abs_value_sub_le hpfinite hprank
  have herror := abs_value_sub_le hwidth hrank
  rw [hwhole, div_eq_mul_one_div] at hperror
  rw [div_eq_mul_one_div] at herror
  rw [hwhole] at hmore
  rw [le_iff_value isFinite_zero hfinite, value_zero] at hu
  rw [le_iff_value hfinite (by decide), value_belowOne] at hu'
  have hsmall := sub_le_of_whole (by positivity) (by linarith) hmore hu hu' hperror herror
  -- but both are multiples of the smallest number
  obtain ⟨k, hk⟩ := exists_value_eq hwidth
  obtain ⟨m, hm⟩ := exists_value_eq hhi
  obtain ⟨n, hn⟩ := exists_value_eq hlo
  have hcount : value (hi - lo) - (value hi - value lo) =
      ((k - (m - n) : ℤ) : ℚ) * (1 / 2 ^ 1074) := by
    rw [hk, hm, hn, ← sub_mul, ← sub_mul, Int.cast_sub, Int.cast_sub]
  have hunit : (0 : ℚ) < 1 / 2 ^ 1074 := by positivity
  rw [← sub_pos, hcount, mul_pos_iff_of_pos_right hunit, Int.cast_pos] at hmore
  have hone : (1 : ℚ) ≤ ((k - (m - n) : ℤ) : ℚ) := by exact_mod_cast hmore
  rw [hcount] at hsmall
  have hcontra := (le_mul_of_one_le_left hunit.le hone).trans hsmall
  rw [one_div_le_one_div (by positivity) (by positivity)] at hcontra
  exact absurd hcontra (not_le.2 (pow_lt_pow_right₀ one_lt_two (by norm_num)))

/-- A draw between two bounds lies between them, although width, part and sum are rounded. -/
theorem draw_between (hlo : lo.isFinite = true) (hhi : hi.isFinite = true) (hle : lo ≤ hi)
    (hwidth : (hi - lo).isFinite = true) (hu : 0 ≤ u) (hu' : u ≤ belowOne) :
    lo ≤ lo + (hi - lo) * u ∧ lo + (hi - lo) * u ≤ hi := by
  obtain ⟨hpart, hpart'⟩ := mul_between hwidth (zero_le_sub hhi hlo hle) hu
    (le_trans hu' (by decide))
  have hfinite := isFinite_of_between isFinite_zero hwidth hpart hpart'
  refine ⟨le_add hlo hfinite hpart, ?_⟩
  obtain ⟨hrank, hnan⟩ := rank_add_eq hlo hfinite
  have hvalue := value_mul_le_sub hlo hhi hle hwidth hu hu'
  rw [le_iff, hrank, rank_eq_rankOf hhi]
  exact ⟨hnan, isNaN_of_isFinite hhi, rankOf_mono (by linarith)⟩

end

end Number

/-! ## Draws from a box -/

namespace Random.Generator

theorem uniform_between (g : Generator) : 0 ≤ g.uniform.1 ∧ g.uniform.1 ≤ belowOne := by
  have hbits : (g.source.next.1 >>> 11).toNat < 2 ^ 53 := by
    rw [UInt64.toNat_shiftRight, Nat.shiftRight_eq_div_pow, Nat.div_lt_iff_lt_mul (by positivity)]
    exact g.source.next.1.toNat_lt
  exact toFloat_mul_between hbits

/-- A draw between the bounds of an interval lies in it exactly if the width does not overflow. -/
theorem contains_between_iff {i : Interval} (hi : i.Valid) (g : Generator) :
    i.contains (g.between i.lo i.hi).1 = true ↔ i.width.isFinite = true := by
  obtain ⟨hlo, hhi, hle⟩ := hi
  have hdraw : (g.between i.lo i.hi).1 = i.lo + (i.hi - i.lo) * g.uniform.1 := by
    simp only [between, if_pos hle]
  rw [hdraw]
  constructor
  · intro hcontains
    have hfinite := Interval.isFinite_of_contains ⟨hlo, hhi, hle⟩ hcontains
    exact isFinite_of_mul (isFinite_of_add hfinite).2
  · intro hwidth
    obtain ⟨hu, hu'⟩ := g.uniform_between
    rw [Interval.contains_iff]
    exact draw_between hlo hhi hle hwidth hu hu'

theorem forall₂_sampleIntervals (is : List Interval) (g : Generator) :
    List.Forall₂ (fun (i : Interval) x => ∃ g' : Generator, x = (g'.between i.lo i.hi).1) is
      (sampleIntervals is g).1 := by
  induction is generalizing g with
  | nil => exact .nil
  | cons i rest ih =>
    rw [sampleIntervals_cons]
    exact .cons ⟨g, rfl⟩ (ih _)

/-- A state drawn from a box lies in it exactly if no width overflows. -/
theorem contains_sampleBox_iff {region : Box} (hregion : ∀ i ∈ region.intervals, i.Valid)
    (g : Generator) :
    region.contains (g.sampleBox region).1 = true ↔
      ∀ i ∈ region.intervals, i.width.isFinite = true := by
  have hdrawn := forall₂_sampleIntervals region.intervals g
  have hlength := hdrawn.length_eq
  -- at every coordinate, the draw is one between the bounds of its interval
  have hcoordinate (k : Nat) (hk : k < region.intervals.length) :
      ∃ x, (g.sampleBox region).1.get? k = some x ∧
        (region.intervals[k].contains x = true ↔ region.intervals[k].width.isFinite = true) := by
    obtain ⟨g', hx⟩ := hdrawn.get hk (hlength ▸ hk)
    exact ⟨_, (List.getElem?_eq_getElem (hlength ▸ hk)).trans (congrArg some hx),
      contains_between_iff (hregion _ (List.getElem_mem hk)) g'⟩
  rw [Box.contains_iff]
  constructor
  · rintro ⟨-, hinside⟩ i hi
    obtain ⟨k, hk, rfl⟩ := List.getElem_of_mem hi
    obtain ⟨x, hx, hiff⟩ := hcoordinate k hk
    exact hiff.1 (hinside k _ x (List.getElem?_eq_getElem hk) hx)
  · intro hwidths
    refine ⟨hlength.symm, fun k i x hi hx => ?_⟩
    obtain ⟨hk, rfl⟩ := List.getElem?_eq_some_iff.1 hi
    obtain ⟨x', hx', hiff⟩ := hcoordinate k hk
    obtain rfl : x' = x := Option.some.inj (hx'.symm.trans hx)
    exact hiff.2 (hwidths _ (List.getElem_mem hk))

end Random.Generator

end TrajectorySafety
