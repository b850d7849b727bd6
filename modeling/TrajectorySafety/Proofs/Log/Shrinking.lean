import TrajectorySafety.Proofs.Log.Boxes
import TrajectorySafety.Proofs.Number.Infinity

/-!
A shrunk interval stays inside the one it came from.

With a factor of at most one, the ends of the scaled interval are clamped between the old ones, and
clamping gives no number beyond its bounds unless it is given a NaN (`clamp?_eq_some`). A NaN
appears only as the difference of two infinite numbers: the centre and half the width of an interval
that is so wide that its width overflows. Then there is no scaled interval (`scaled?_eq_none`); for
all others, and for all factors that leave no width, there is one (`scaled?_eq_some`).
-/

namespace TrajectorySafety

open Number

namespace Interval

/-- Clamping moves a number along the doubles, no further than to the nearest bound. -/
theorem clamp?_eq_some {value low high : Float} (h : low ≤ high) (hvalue : value.isNaN = false) :
    ∃ v, clamp? value low high = some v ∧ v.isNaN = false ∧
      rank v = min (max (rank value) (rank low)) (rank high) := by
  obtain ⟨hlow, hhigh, hrank⟩ := (le_iff low high).1 h
  have hlt (x y : Float) (hx : x.isNaN = false) (hy : y.isNaN = false) :
      x < y ↔ rank x < rank y := by
    rw [lt_iff, hx, hy]
    simp only [true_and]
  unfold clamp?
  simp only [if_pos h, hlt value low hvalue hlow]
  by_cases hbelow : rank value < rank low
  · simp only [if_pos hbelow, hlt high low hhigh hlow, if_neg (Int.not_lt.2 hrank)]
    exact ⟨low, rfl, hlow, by omega⟩
  · simp only [if_neg hbelow, hlt high value hhigh hvalue]
    by_cases habove : rank high < rank value
    · rw [if_pos habove]
      exact ⟨high, rfl, hhigh, by omega⟩
    · rw [if_neg habove]
      exact ⟨value, rfl, hvalue, by omega⟩

/-- A NaN is below no bound and above none. -/
theorem clamp?_of_isNaN {value low high : Float} (h : low ≤ high) (hvalue : value.isNaN = true) :
    clamp? value low high = some value := by
  have hbelow : ¬ value < low := fun hlt =>
    Bool.false_ne_true (((lt_iff _ _).1 hlt).1.symm.trans hvalue)
  have habove : ¬ high < value := fun hlt =>
    Bool.false_ne_true (((lt_iff _ _).1 hlt).2.1.symm.trans hvalue)
  unfold clamp?
  simp only [if_pos h, if_neg hbelow, if_neg habove]

/-! ## Centre and half-width -/

/-- The centre that an interval is scaled around. -/
def center (i : Interval) : Float := i.lo + i.width / 2

/-- How far the scaled interval reaches to both sides of the centre. -/
def reach (i : Interval) (factor : Float) : Float := larger (i.width / 2 * factor) 0

theorem scaled?_eq {factor : Float} (i : Interval) (hfactor : factor ≤ 1) :
    i.scaled? factor =
      (clamp? (i.center - i.reach factor) i.lo i.hi).bind fun lo =>
        (clamp? (i.center + i.reach factor) lo i.hi).bind fun hi => some ⟨lo, hi⟩ := by
  unfold scaled?
  simp only [hfactor, if_true]
  rfl

variable {i : Interval} {factor : Float}

theorem width_nonneg (hi : i.Valid) : 0 ≤ i.width := zero_le_sub hi.2.1 hi.1 hi.2.2

theorem width_eq_infinity (hi : i.Valid) (hwidth : ¬ i.width.isFinite = true) :
    i.width = infinity :=
  eq_infinity isFinite_zero (width_nonneg hi) hwidth

/-- Half of a finite width is finite too. -/
theorem half_width (hi : i.Valid) (hwidth : i.width.isFinite = true) :
    0 ≤ i.width / 2 ∧ i.width / 2 ≤ i.width := by
  have hnonneg := (le_iff_value isFinite_zero hwidth).1 (width_nonneg hi)
  obtain ⟨hrank, hnan⟩ := rank_div_eq hwidth isFinite_two (by rw [value_two]; norm_num)
  rw [value_two] at hrank
  rw [value_zero] at hnonneg
  refine between_of_rankOf hnan hrank isFinite_zero hwidth ?_ ?_
  · rw [value_zero]
    linarith
  · linarith

theorem half_width_nonneg (hi : i.Valid) : 0 ≤ i.width / 2 := by
  by_cases hwidth : i.width.isFinite = true
  · exact (half_width hi hwidth).1
  · rw [width_eq_infinity hi hwidth]
    decide

theorem reach_of_nonpos (hi : i.Valid) (hfactor : factor ≤ 0) : i.reach factor = 0 := by
  unfold reach larger
  obtain hnan | hle := mul_nonpos (half_width_nonneg hi) hfactor
  · rw [if_pos hnan]
  · rw [if_neg (ne_true_of_eq_false ((le_iff _ _).1 hle).1), if_neg (by decide), if_pos hle]

theorem isFinite_reach (hi : i.Valid) (hwidth : i.width.isFinite = true) (hfactor : factor ≤ 1) :
    (i.reach factor).isFinite = true := by
  by_cases hnonpos : factor ≤ 0
  · rw [reach_of_nonpos hi hnonpos]
    decide
  · have hpos : 0 ≤ factor :=
      le_of_lt (lt_of_not_le (by decide) ((le_iff _ _).1 hfactor).1 hnonpos)
    obtain ⟨hhalf, hhalf'⟩ := half_width hi hwidth
    have hfinite := isFinite_of_between isFinite_zero hwidth hhalf hhalf'
    obtain ⟨hproduct, hproduct'⟩ := mul_between hfinite hhalf hpos hfactor
    unfold reach larger
    rw [if_neg (ne_true_of_eq_false ((le_iff _ _).1 hproduct').1), if_neg (by decide)]
    split
    · decide
    · exact isFinite_of_between isFinite_zero hfinite hproduct hproduct'

theorem center_eq_infinity (hi : i.Valid) (hwidth : ¬ i.width.isFinite = true) :
    i.center = infinity := by
  rw [center, width_eq_infinity hi hwidth, show infinity / 2 = infinity by decide]
  exact (infinity_absorbs hi.1).1

theorem lo_le_center (hi : i.Valid) : i.lo ≤ i.center := by
  by_cases hwidth : i.width.isFinite = true
  · obtain ⟨hhalf, hhalf'⟩ := half_width hi hwidth
    exact le_add hi.1 (isFinite_of_between isFinite_zero hwidth hhalf hhalf') hhalf
  · rw [center_eq_infinity hi hwidth]
    exact (le_iff _ _).2 ⟨isNaN_of_isFinite hi.1, by decide,
      ((isFinite_iff_rank (isNaN_of_isFinite hi.1)).1 hi.1).2.le⟩

/-- From the centre, a finite reach leads to numbers on both sides. -/
theorem ends_of_isFinite_reach (hi : i.Valid) (h : (i.reach factor).isFinite = true) :
    (i.center - i.reach factor).isNaN = false ∧ (i.center + i.reach factor).isNaN = false := by
  by_cases hcenter : i.center.isFinite = true
  · exact ⟨(rank_sub_eq hcenter h).2, (rank_add_eq hcenter h).2⟩
  · obtain ⟨-, hadd, hsub⟩ := infinity_absorbs h
    rw [eq_infinity hi.1 (lo_le_center hi) hcenter, hadd, hsub]
    decide

/-! ## The scaled interval -/

theorem isFinite_reach_of (hi : i.Valid) (hfactor : factor ≤ 1)
    (h : i.width.isFinite = true ∨ factor ≤ 0) : (i.reach factor).isFinite = true := by
  obtain hwidth | hnonpos := h
  · exact isFinite_reach hi hwidth hfactor
  · rw [reach_of_nonpos hi hnonpos]
    decide

theorem rank_center_zero (hi : i.Valid) : rank (i.center + 0) = rank (i.center - 0) := by
  by_cases hcenter : i.center.isFinite = true
  · rw [(rank_add_eq hcenter isFinite_zero).1, (rank_sub_eq hcenter isFinite_zero).1, value_zero,
      add_zero, sub_zero]
  · rw [eq_infinity hi.1 (lo_le_center hi) hcenter]
    decide

theorem scaled?_eq_some (hi : i.Valid) (hfactor : factor ≤ 1)
    (h : i.width.isFinite = true ∨ factor ≤ 0) :
    ∃ j, i.scaled? factor = some j ∧ i.lo ≤ j.lo ∧ j.lo ≤ j.hi ∧ j.hi ≤ i.hi ∧
      (factor ≤ 0 → j.hi ≤ j.lo) := by
  obtain ⟨hlower, hupper⟩ := ends_of_isFinite_reach hi (isFinite_reach_of hi hfactor h)
  obtain ⟨nlo, nhi, hrank⟩ := (le_iff _ _).1 hi.2.2
  obtain ⟨lo, hlo, hlonan, hlorank⟩ := clamp?_eq_some hi.2.2 hlower
  have hlohi : lo ≤ i.hi := (le_iff _ _).2 ⟨hlonan, nhi, by omega⟩
  obtain ⟨up, hup, hupnan, huprank⟩ := clamp?_eq_some hlohi hupper
  have hlower : i.lo ≤ lo := (le_iff _ _).2 ⟨nlo, hlonan, by omega⟩
  have hordered : lo ≤ up := (le_iff _ _).2 ⟨hlonan, hupnan, by omega⟩
  have hupper : up ≤ i.hi := (le_iff _ _).2 ⟨hupnan, nhi, by omega⟩
  refine ⟨⟨lo, up⟩, ?_, hlower, hordered, hupper, ?_⟩
  · rw [scaled?_eq i hfactor, hlo, Option.bind_some, hup, Option.bind_some]
  · intro hnonpos
    rw [reach_of_nonpos hi hnonpos] at hlorank huprank
    have hsame := rank_center_zero hi
    have hpoint : up ≤ lo := (le_iff _ _).2 ⟨hupnan, hlonan, by omega⟩
    exact hpoint

theorem scaled?_eq_none (hi : i.Valid) (hfactor : factor ≤ 1) (hwidth : ¬ i.width.isFinite = true)
    (hpos : 0 < factor) : i.scaled? factor = none := by
  have hreach : i.reach factor = infinity := by
    rw [reach, width_eq_infinity hi hwidth, show infinity / 2 = infinity by decide,
      infinity_mul_of_pos hpos]
    decide
  have hlower : (infinity - infinity).isNaN = true := by decide
  have hnot : ¬ infinity - infinity ≤ i.hi := fun hle => absurd ((le_iff _ _).1 hle).1 (by decide)
  rw [scaled?_eq i hfactor, center_eq_infinity hi hwidth, hreach, clamp?_of_isNaN hi.2.2 hlower,
    Option.bind_some, clamp?, if_neg hnot, Option.bind_none]

theorem scales_or_overflows (i : Interval) (hfactor : factor ≤ 1) :
    (i.width.isFinite = true ∨ factor ≤ 0) ∨ (i.width.isFinite = false ∧ 0 < factor) := by
  by_cases hwidth : i.width.isFinite = true
  · exact .inl (.inl hwidth)
  · by_cases hpos : 0 < factor
    · exact .inr ⟨Bool.eq_false_of_not_eq_true hwidth, hpos⟩
    · exact .inl (.inr (le_of_not_lt ((le_iff _ _).1 hfactor).1 (by decide) hpos))

theorem scaled?_eq_none_iff (hi : i.Valid) (hfactor : factor ≤ 1) :
    i.scaled? factor = none ↔ i.width.isFinite = false ∧ 0 < factor := by
  constructor
  · intro hnone
    obtain hscales | hoverflows := scales_or_overflows i hfactor
    · obtain ⟨j, hj, -⟩ := scaled?_eq_some hi hfactor hscales
      cases hj.symm.trans hnone
    · exact hoverflows
  · rintro ⟨hwidth, hpos⟩
    exact scaled?_eq_none hi hfactor (ne_true_of_eq_false hwidth) hpos

theorem contains_of_contains {j : Interval} {x : Float} (hlo : i.lo ≤ j.lo) (hhi : j.hi ≤ i.hi)
    (h : j.contains x = true) : i.contains x = true := by
  rw [contains_iff] at h ⊢
  exact ⟨le_trans hlo h.1, le_trans h.2 hhi⟩

end Interval

/-! ## The scaled box -/

namespace Box

variable {b b' : Box} {factor : Float}

theorem scaled?_eq_none_iff (hb : ∀ i ∈ b.intervals, i.Valid) (hfactor : factor ≤ 1) :
    b.scaled? factor = none ↔ ∃ i ∈ b.intervals, i.width.isFinite = false ∧ 0 < factor := by
  rw [scaled?, Option.map_eq_map, Option.map_eq_none_iff, mapM_eq_none_iff]
  refine exists_congr fun i => and_congr_right fun hi => ?_
  exact Interval.scaled?_eq_none_iff (hb i hi) hfactor

/-- Coordinate by coordinate, a box is scaled as its intervals are. -/
theorem interval?_of_scaled? (h : b.scaled? factor = some b') :
    b'.dimension = b.dimension ∧ ∀ k i, b.interval? k = some i →
      ∃ j, b'.interval? k = some j ∧ i.scaled? factor = some j := by
  obtain ⟨is, his, rfl⟩ := Option.map_eq_some_iff.1 h
  have hscaled := mapM_eq_some_iff.1 his
  refine ⟨hscaled.length_eq.symm, fun k i hi => ?_⟩
  obtain ⟨hk, rfl⟩ := List.getElem?_eq_some_iff.1 hi
  have hk' := hscaled.length_eq ▸ hk
  exact ⟨_, List.getElem?_eq_getElem hk', hscaled.get hk hk'⟩

theorem contains_of_scaled? (hb : ∀ i ∈ b.intervals, i.Valid) (hfactor : factor ≤ 1)
    (h : b.scaled? factor = some b') {s : State} (hs : b'.contains s = true) :
    b.contains s = true := by
  obtain ⟨hdimension, hintervals⟩ := interval?_of_scaled? h
  rw [contains_iff] at hs ⊢
  refine ⟨hs.1.trans hdimension, fun k i x hi hx => ?_⟩
  obtain ⟨j, hj, hscaled⟩ := hintervals k i hi
  have hvalid := hb i (List.mem_of_getElem? hi)
  obtain hscales | hoverflows := i.scales_or_overflows hfactor
  · obtain ⟨j', hj', hlo, -, hhi, -⟩ := Interval.scaled?_eq_some hvalid hfactor hscales
    obtain rfl : j' = j := Option.some.inj (hj'.symm.trans hscaled)
    exact Interval.contains_of_contains hlo hhi (hs.2 k j' x hj hx)
  · rw [(Interval.scaled?_eq_none_iff hvalid hfactor).2 hoverflows] at hscaled
    cases hscaled

end Box

/-- Shrinking leads to nothing outside. With a factor of at most one, an interval whose width does
not overflow has a scaled interval, with ends in order between the old ones; so has every interval
with a factor of zero or less, and then no width is left. An interval whose width overflows has none
for a positive factor. A box is scaled coordinate by coordinate, and every state in the scaled box
is in the box. -/
theorem scaled_stays_inside (factor : Float) (hfactor : factor ≤ 1) :
    (∀ lo hi i, Interval.make lo hi = .ok i →
      ((hi - lo).isFinite = true ∨ factor ≤ 0 →
        ∃ j, i.scaled? factor = some j ∧ lo ≤ j.lo ∧ j.lo ≤ j.hi ∧ j.hi ≤ hi ∧ j.Valid ∧
          (∀ x, j.contains x = true → i.contains x = true) ∧ (factor ≤ 0 → j.hi ≤ j.lo)) ∧
      ((hi - lo).isFinite = false → 0 < factor → i.scaled? factor = none)) ∧
    ∀ bounds b, Box.ofBounds bounds = .ok b →
      (b.scaled? factor = none ↔ ∃ i ∈ b.intervals, i.width.isFinite = false ∧ 0 < factor) ∧
      ∀ b', b.scaled? factor = some b' →
        b'.dimension = b.dimension ∧
        (∀ k i, b.interval? k = some i →
          ∃ j, b'.interval? k = some j ∧ i.scaled? factor = some j) ∧
        ∀ s, b'.contains s = true → b.contains s = true := by
  constructor
  · intro lo hi i hmake
    obtain ⟨rfl, hvalid⟩ := (Interval.make_eq_ok_iff _ _ _).1 hmake
    constructor
    · intro hcase
      obtain ⟨j, hj, hlo, hle, hhi, hpoint⟩ := Interval.scaled?_eq_some hvalid hfactor hcase
      have hfinite : j.Valid :=
        ⟨isFinite_of_between hvalid.1 hvalid.2.1 hlo (le_trans hle hhi),
          isFinite_of_between hvalid.1 hvalid.2.1 (le_trans hlo hle) hhi, hle⟩
      exact ⟨j, hj, hlo, hle, hhi, hfinite, fun x => Interval.contains_of_contains hlo hhi, hpoint⟩
    · intro hwidth hpos
      exact (Interval.scaled?_eq_none_iff hvalid hfactor).2 ⟨hwidth, hpos⟩
  · intro bounds b hbounds
    have hb := Box.valid_of_ofBounds hbounds
    refine ⟨Box.scaled?_eq_none_iff hb hfactor, fun b' hb' => ?_⟩
    obtain ⟨hdimension, hintervals⟩ := Box.interval?_of_scaled? hb'
    exact ⟨hdimension, hintervals, fun s => Box.contains_of_scaled? hb hfactor hb'⟩

/-- The interval from `-2 ^ 1023` to `2 ^ 1023`, whose width overflows. -/
def vast : Interval := ⟨Float.ofBits 0xffe0000000000000, Float.ofBits 0x7fe0000000000000⟩

/-- Half of the interval from 0.1 to 0.7, where every step is rounded; an interval whose width
overflows, halved and scaled by the negative infinity; and both intervals as a box. -/
theorem scaled_half_inside :
    (∃ j, Interval.scaled? ⟨0.1, 0.7⟩ 0.5 = some j ∧ 0.1 ≤ j.lo ∧ j.lo ≤ j.hi ∧ j.hi ≤ 0.7) ∧
    vast.scaled? 0.5 = none ∧
    (∃ j, vast.scaled? negInfinity = some j ∧ j.hi ≤ j.lo ∧ j.hi ≤ vast.hi) ∧
    Box.scaled? ⟨[⟨0.1, 0.7⟩, vast]⟩ 0.5 = none := by
  have hmake : Interval.make 0.1 0.7 = .ok ⟨0.1, 0.7⟩ := rfl
  have hvast : Interval.make vast.lo vast.hi = .ok vast := rfl
  have hbox : Box.ofBounds [(0.1, 0.7), (vast.lo, vast.hi)] = .ok ⟨[⟨0.1, 0.7⟩, vast]⟩ := rfl
  obtain ⟨hintervals, hboxes⟩ := scaled_stays_inside 0.5 (by decide)
  obtain ⟨j, hj, hlo, hle, hhi, -⟩ := (hintervals _ _ _ hmake).1 (.inl (by decide))
  obtain ⟨p, hp, -, -, hhi', -, -, hpoint⟩ :=
    ((scaled_stays_inside negInfinity (by decide)).1 _ _ _ hvast).1 (.inr (by decide))
  exact ⟨⟨j, hj, hlo, hle, hhi⟩, (hintervals _ _ _ hvast).2 (by decide) (by decide),
    ⟨p, hp, hpoint (by decide), hhi'⟩,
    (hboxes _ _ hbox).1.2 ⟨vast, by simp, by decide, by decide⟩⟩

end TrajectorySafety
