import TrajectorySafety.Proofs.Log.Grammar
import TrajectorySafety.Proofs.Log.RoundTrip

/-!
A box is read exactly where the grammar has one (`box_eq_ok_iff`).

The reader counts brackets, strips the outer ones and takes intervals off the front of what is left,
each up to the next closing bracket. Every step is an equivalence with a rule of the grammar; that
the counts agree for every box follows from its marks (`marks_isIntervals`).
-/

namespace TrajectorySafety.LogText

open Text
open Number (float?)

/-! ## Intervals -/

theorem bound_eq_ok_iff {cs : List Char} {v : Float} :
    bound cs = .ok v ↔ float? cs = some v ∧ v.isFinite = true := by
  unfold bound
  cases float? cs with
  | none => simp
  | some w =>
    by_cases hw : w.isFinite = true
    · simp only [hw, if_true, Except.ok.injEq, Option.some.injEq]
      exact ⟨fun h => ⟨h, h ▸ hw⟩, fun h => h.1⟩
    · simp only [hw, if_false, Option.some.injEq, reduceCtorEq, false_iff, not_and]
      rintro rfl
      exact hw

theorem fields_cases (cs : List Char) :
    (fields cs = [cs] ∧ ∀ c ∈ cs, c ≠ ',') ∨
      ∃ field rest, cs = field ++ ',' :: rest ∧ fields cs = field :: fields rest ∧
        ∀ c ∈ field, c ≠ ',' := by
  by_cases h : ',' ∈ cs
  · obtain ⟨field, rest, rfl, hfield⟩ := List.eq_append_cons_of_mem h
    have hfield : ∀ c ∈ field, c ≠ ',' := fun c hc heq => hfield (heq ▸ hc)
    exact .inr ⟨field, rest, rfl, fields_append rest hfield, hfield⟩
  · have hcs : ∀ c ∈ cs, c ≠ ',' := fun c hc heq => h (heq ▸ hc)
    exact .inl ⟨fields_eq_singleton hcs, hcs⟩

theorem fields_ne_nil (cs : List Char) : fields cs ≠ [] := by
  rcases fields_cases cs with ⟨h, -⟩ | ⟨field, rest, -, h, -⟩
  · simp [h]
  · simp [h]

/-- Two fields are what one comma separates. -/
theorem fields_eq_pair_iff {cs low high : List Char} :
    fields cs = [low, high] ↔
      cs = low ++ ',' :: high ∧ (∀ c ∈ low, c ≠ ',') ∧ ∀ c ∈ high, c ≠ ',' := by
  constructor
  · intro h
    rcases fields_cases cs with ⟨hsingle, -⟩ | ⟨field, rest, rfl, hfields, hfield⟩
    · rw [h] at hsingle
      cases hsingle
    · rw [hfields, List.cons.injEq] at h
      obtain ⟨rfl, h⟩ := h
      rcases fields_cases rest with ⟨hsingle, hrest⟩ | ⟨field', rest', rfl, hfields', -⟩
      · rw [hsingle] at h
        cases h
        exact ⟨rfl, hfield, hrest⟩
      · rw [hfields', List.cons.injEq] at h
        exact absurd h.2 (fields_ne_nil rest')
  · rintro ⟨rfl, hlow, hhigh⟩
    rw [fields_append high hlow, fields_eq_singleton hhigh]

theorem interval_eq_ok_iff {cs : List Char} {i : Interval} :
    interval cs = .ok i ↔ ∃ low high, fields cs = [low, high] ∧
      float? (trim low) = some i.lo ∧ float? (trim high) = some i.hi ∧ i.Valid := by
  unfold interval
  constructor
  · intro h
    split at h
    · next lo hi hfields =>
      obtain ⟨low, rest, hcs, rfl, hrest⟩ := List.map_eq_cons_iff.1 hfields
      obtain ⟨high, rest', rfl, rfl, hrest'⟩ := List.map_eq_cons_iff.1 hrest
      obtain rfl := List.map_eq_nil_iff.1 hrest'
      obtain ⟨x, hx, h⟩ := bind_eq_ok_iff.1 h
      obtain ⟨y, hy, h⟩ := bind_eq_ok_iff.1 h
      obtain ⟨rfl, hvalid⟩ := (Interval.make_eq_ok_iff x y i).1 (mapError_eq_ok_iff.1 h)
      exact ⟨low, high, hcs, (bound_eq_ok_iff.1 hx).1, (bound_eq_ok_iff.1 hy).1, hvalid⟩
    · cases h
  · rintro ⟨low, high, hfields, hlo, hhi, hvalid⟩
    have hx := bound_eq_ok_iff.2 ⟨hlo, hvalid.1⟩
    have hy := bound_eq_ok_iff.2 ⟨hhi, hvalid.2.1⟩
    simp only [hfields, List.map_cons, List.map_nil, hx, hy]
    exact mapError_eq_ok_iff.2 ((Interval.make_eq_ok_iff _ _ i).2 ⟨rfl, hvalid⟩)

/-- What is read as an interval is one, once brackets are put around it. -/
theorem isInterval_of_interval {pair : List Char} {i : Interval} (h : interval pair = .ok i) :
    IsInterval ('[' :: (pair ++ [']'])) i := by
  obtain ⟨low, high, hfields, hlo, hhi, hvalid⟩ := interval_eq_ok_iff.1 h
  obtain ⟨rfl, -, -⟩ := fields_eq_pair_iff.1 hfields
  rw [List.append_assoc, List.cons_append]
  exact .mk (padded_trim low) hlo (padded_trim high) hhi hvalid

/-- What stands between the brackets of an interval: no further brackets, and it is read as the
interval. -/
theorem interval_of_isInterval {cs : List Char} {i : Interval} (h : IsInterval cs i) :
    ∃ pair, cs = '[' :: (pair ++ [']']) ∧ marks pair = [','] ∧ interval pair = .ok i := by
  obtain ⟨hlow, hlo, hhigh, hhi, hvalid⟩ := h
  rename_i low lo high hi
  have hmlow : marks low = [] := (marks_padded hlow).trans (marks_of_plain (plain_of_float? hlo))
  have hmhigh : marks high = [] := (marks_padded hhigh).trans (marks_of_plain (plain_of_float? hhi))
  refine ⟨low ++ ',' :: high, by simp, ?_, ?_⟩
  · rw [marks_append, hmlow, List.nil_append, marks_cons rfl, hmhigh]
  · refine interval_eq_ok_iff.2 ⟨low, high, ?_, ?_, ?_, hvalid⟩
    · exact fields_eq_pair_iff.2 ⟨rfl, ne_of_marks hmlow rfl, ne_of_marks hmhigh rfl⟩
    · rw [trim_of_plain hlow (plain_of_float? hlo), hlo]
    · rw [trim_of_plain hhigh (plain_of_float? hhi), hhi]

/-- An interval in brackets is read off the front of a text. -/
theorem bracketed_eq_ok_iff {cs tail : List Char} {i : Interval} :
    bracketed cs = .ok (i, tail) ↔
      ∃ front rest, cs = front ++ rest ∧ IsInterval front i ∧ tail = trimStart rest := by
  unfold bracketed
  constructor
  · intro h
    split at h
    · cases h
    · next body hbody =>
      obtain rfl := dropLeading?_eq_some_iff.1 hbody
      split at h
      · cases h
      · next pair rest hsplit =>
        obtain ⟨rfl, -⟩ := splitOnce_eq_some_iff.1 hsplit
        split at h
        · cases h
        · obtain ⟨j, hj, heq⟩ := bind_eq_ok_iff.1 h
          cases heq
          exact ⟨'[' :: (pair ++ [']']), rest, by simp, isInterval_of_interval hj, rfl⟩
  · rintro ⟨front, rest, rfl, hi, rfl⟩
    obtain ⟨pair, rfl, hmarks, hpair⟩ := interval_of_isInterval hi
    have hmem : ∀ d, isMark d = true → d ≠ ',' → ∀ c ∈ pair, c ≠ d := by
      rintro d hd hcomma c hc rfl
      have hmark : c ∈ marks pair := List.mem_filter.2 ⟨hc, hd⟩
      rw [hmarks, List.mem_singleton] at hmark
      exact hcomma hmark
    have hlead :
        dropLeading? ['['] ('[' :: (pair ++ [']']) ++ rest) = some (pair ++ ']' :: rest) := by
      rw [dropLeading?_eq_some_iff]
      simp
    have hnested : pair.contains '[' = false := by
      rw [Bool.eq_false_iff, ne_eq, List.contains_iff_mem]
      exact fun hc => hmem '[' rfl (by decide) '[' hc rfl
    simp only [hlead, splitOnce_append rest (hmem ']' rfl (by decide)), hnested,
      Bool.false_eq_true, if_false, hpair]
    rfl

/-! ## Boxes -/

theorem furtherIntervals_eq_ok_iff {cs : List Char} {is : List Interval} :
    furtherIntervals cs = .ok is ↔
      (cs = [] ∧ is = []) ∨ ∃ rest i tail others, cs = ',' :: rest ∧ is = i :: others ∧
        bracketed (trimStart rest) = .ok (i, tail) ∧ furtherIntervals tail = .ok others := by
  cases cs with
  | nil =>
    rw [furtherIntervals]
    simp [eq_comm]
  | cons c rest =>
    rw [furtherIntervals]
    by_cases hc : c = ','
    · subst hc
      simp only [if_true, reduceCtorEq, false_and, false_or]
      split
      · next fault hfault => simp [hfault]
      · next i tail hi =>
        rw [bind_eq_ok_iff]
        constructor
        · rintro ⟨others, hothers, heq⟩
          cases heq
          exact ⟨rest, i, tail, others, rfl, rfl, hi, hothers⟩
        · rintro ⟨rest', i', tail', others, hrest, rfl, hi', hothers⟩
          cases hrest
          rw [hi] at hi'
          cases hi'
          exact ⟨others, hothers, rfl⟩
    · simp [hc]

theorem IsInterval.eq_cons {cs : List Char} {i : Interval} (h : IsInterval cs i) :
    ∃ rest, cs = '[' :: rest := by
  cases h
  exact ⟨_, rfl⟩

theorem IsIntervals.eq_cons {cs : List Char} {is : List Interval} (h : IsIntervals cs is) :
    ∃ rest, cs = '[' :: rest := by
  cases h with
  | single h => exact h.eq_cons
  | cons h _ _ _ =>
    obtain ⟨rest, rfl⟩ := h.eq_cons
    exact ⟨_, rfl⟩

/-- What was read after an interval makes it the first of several. The induction is on what was
read: each further interval is the first one of the rest. -/
theorem isIntervals_of_furtherIntervals {front rest : List Char} {i : Interval}
    {is : List Interval} (hi : IsInterval front i)
    (h : furtherIntervals (trimStart rest) = .ok is) :
    ∃ core after, Blank after ∧ front ++ rest = core ++ after ∧ IsIntervals core (i :: is) := by
  induction is generalizing front rest i with
  | nil =>
    rcases furtherIntervals_eq_ok_iff.1 h with ⟨hnil, -⟩ | ⟨_, _, _, _, -, hcons, -⟩
    · exact ⟨front, rest, trimStart_eq_nil_iff.1 hnil, rfl, .single hi⟩
    · cases hcons
  | cons j js ih =>
    rcases furtherIntervals_eq_ok_iff.1 h with ⟨-, hnil⟩ | ⟨rest', _, tail, _, hcomma, heq, hj, hjs⟩
    · cases hnil
    · cases heq
      obtain ⟨front', rest'', hrest', hfront', rfl⟩ := bracketed_eq_ok_iff.1 hj
      obtain ⟨core, after, hafter, hcore, his⟩ := ih hfront' hjs
      obtain ⟨before, hbefore, hrest⟩ := exists_trimStart rest
      obtain ⟨before', hbefore', hrest''⟩ := exists_trimStart rest'
      refine ⟨front ++ (before ++ ',' :: (before' ++ core)), after, hafter, ?_,
        .cons hi hbefore hbefore' his⟩
      rw [hrest, hcomma, hrest'', hrest', hcore]
      simp

/-- Intervals are read one after the other. -/
theorem bracketed_of_isIntervals {core after : List Char} {is : List Interval}
    (h : IsIntervals core is) (hafter : Blank after) :
    ∃ i tail others, is = i :: others ∧ bracketed (core ++ after) = .ok (i, tail) ∧
      furtherIntervals tail = .ok others := by
  induction h with
  | @single cs i h =>
    refine ⟨i, [], [], rfl, bracketed_eq_ok_iff.2 ⟨cs, after, rfl, h, ?_⟩, ?_⟩
    · exact (trimStart_eq_nil_iff.2 hafter).symm
    · exact furtherIntervals_eq_ok_iff.2 (.inl ⟨rfl, rfl⟩)
  | @cons cs before before' rest i is h hbefore hbefore' hrest ih =>
    obtain ⟨j, tail, others, rfl, hj, hothers⟩ := ih
    obtain ⟨rest', hcons⟩ := hrest.eq_cons
    have htail : ',' :: (before' ++ (rest ++ after)) =
        trimStart (before ++ ',' :: (before' ++ (rest ++ after))) := by
      rw [trimStart_append hbefore, trimStart_cons _ rfl]
    have hstart : trimStart (before' ++ (rest ++ after)) = rest ++ after := by
      rw [trimStart_append hbefore', hcons, List.cons_append, trimStart_cons _ rfl]
    refine ⟨i, ',' :: (before' ++ (rest ++ after)), j :: others, rfl, ?_, ?_⟩
    · exact bracketed_eq_ok_iff.2 ⟨cs, _, by simp, h, htail⟩
    · exact furtherIntervals_eq_ok_iff.2
        (.inr ⟨_, j, tail, others, rfl, rfl, by rw [hstart, hj], hothers⟩)

/-- What is read between the brackets of a box, if it is not empty, is one or more intervals. -/
theorem intervals_eq_ok_iff {inner : List Char} {is : List Interval} (hne : is ≠ []) :
    intervals (trimStart inner) = .ok is ↔ ∃ core, Padded core inner ∧ IsIntervals core is := by
  obtain ⟨before, hbefore, hinner⟩ := exists_trimStart inner
  unfold intervals
  constructor
  · intro h
    split at h
    · cases h
      exact absurd rfl hne
    · obtain ⟨⟨i, tail⟩, hi, h⟩ := bind_eq_ok_iff.1 h
      obtain ⟨others, hothers, heq⟩ := bind_eq_ok_iff.1 h
      cases heq
      obtain ⟨front, rest, hfront, hfirst, rfl⟩ := bracketed_eq_ok_iff.1 hi
      obtain ⟨core, after, hafter, hcore, his⟩ := isIntervals_of_furtherIntervals hfirst hothers
      refine ⟨core, ⟨before, after, hbefore, hafter, ?_⟩, his⟩
      rw [← hcore, ← hfront, ← hinner]
  · rintro ⟨core, ⟨before', after, hbefore', hafter, rfl⟩, his⟩
    obtain ⟨rest, hcons⟩ := his.eq_cons
    obtain ⟨i, tail, others, rfl, hi, hothers⟩ := bracketed_of_isIntervals his hafter
    have hstart : trimStart (before' ++ (core ++ after)) = core ++ after := by
      rw [trimStart_append hbefore', hcons, List.cons_append, trimStart_cons _ rfl]
    rw [hstart, if_neg (by simp [hcons]), hi]
    exact bind_eq_ok_iff.2 ⟨(i, tail), rfl, bind_eq_ok_iff.2 ⟨others, hothers, rfl⟩⟩

theorem marks_isInterval {cs : List Char} {i : Interval} (h : IsInterval cs i) :
    marks cs = ['[', ',', ']'] := by
  obtain ⟨pair, rfl, hmarks, -⟩ := interval_of_isInterval h
  rw [marks_cons rfl, marks_append, hmarks]
  rfl

theorem marks_isIntervals {cs : List Char} {is : List Interval} (h : IsIntervals cs is) :
    marks cs = [','].intercalate (List.replicate is.length ['[', ',', ']']) := by
  induction h with
  | single h => simpa using marks_isInterval h
  | @cons cs before after rest i is h hbefore hafter hrest ih =>
    have hsep : marks (before ++ ',' :: (after ++ rest)) = ',' :: marks rest := by
      rw [marks_append, marks_blank hbefore, List.nil_append, marks_cons rfl, marks_append,
        marks_blank hafter, List.nil_append]
    have hne : ∃ n, is.length = n + 1 := by
      cases hrest with
      | single _ => exact ⟨0, rfl⟩
      | cons _ _ _ _ => exact ⟨_, rfl⟩
    obtain ⟨n, hn⟩ := hne
    rw [marks_append, marks_isInterval h, hsep, ih, List.length_cons, hn]
    simp only [List.replicate_succ, List.intercalate_cons_cons]
    rfl

theorem count_intercalate {d : Char} (hd : d = '[' ∨ d = ']') (n : Nat) :
    ([','].intercalate (List.replicate n ['[', ',', ']'])).count d = n := by
  have hone : ['[', ',', ']'].count d = 1 := by rcases hd with rfl | rfl <;> rfl
  have hcomma : [','].count d = 0 := by rcases hd with rfl | rfl <;> rfl
  induction n with
  | zero => rfl
  | succ n ih =>
    cases n with
    | zero => simpa using hone
    | succ n =>
      rw [List.replicate_succ] at ih
      rw [List.replicate_succ, List.replicate_succ, List.intercalate_cons_cons, List.count_append,
        List.count_append, ih, hone, hcomma]
      omega

/-- The brackets of a box balance. -/
theorem count_isBox {cs : List Char} {b : Box} (h : IsBox cs b) : cs.count '[' = cs.count ']' := by
  cases h with
  | @mk inner core _ hinner hcore =>
    have hcount : ∀ d, d = '[' ∨ d = ']' → inner.count d = b.dimension := by
      intro d hd
      have hmark : isMark d = true := by rcases hd with rfl | rfl <;> rfl
      rw [← List.count_filter hmark]
      show (marks inner).count d = _
      rw [marks_padded hinner, marks_isIntervals hcore, count_intercalate hd, Box.dimension]
    rw [List.count_cons, List.count_cons, List.count_append, List.count_append,
      hcount '[' (.inl rfl), hcount ']' (.inr rfl)]
    rfl

theorem enclosed?_eq_some_iff {cs inner : List Char} :
    enclosed? cs = some inner ↔ cs = '[' :: (inner ++ [']']) := by
  constructor
  · intro h
    unfold enclosed? at h
    split at h
    · next rest =>
      split at h
      · next hlast =>
        obtain ⟨front, rfl⟩ := List.getLast?_eq_some_iff.1 hlast
        cases h
        rw [List.dropLast_concat]
      · cases h
    · cases h
  · rintro rfl
    simp [enclosed?]

theorem intervals_ne_nil {cs : List Char} {is : List Interval} (h : IsIntervals cs is) :
    is ≠ [] := by
  cases h with
  | single _ => simp
  | cons _ _ _ _ => simp

theorem box_eq_ok_iff {cs : List Char} {b : Box} : box cs = .ok b ↔ IsBox cs b := by
  unfold box
  constructor
  · intro h
    simp only at h
    split at h
    · cases h
    · split at h
      · cases h
      · next inner hinner =>
        obtain rfl := enclosed?_eq_some_iff.1 hinner
        obtain ⟨is, his, h⟩ := bind_eq_ok_iff.1 h
        split at h
        · cases h
        · next hne =>
          cases h
          have hne : is ≠ [] := by simpa using hne
          obtain ⟨core, hpadded, hcore⟩ := (intervals_eq_ok_iff hne).1 his
          exact .mk hpadded hcore
  · intro h
    have hcount := count_isBox h
    cases h with
    | @mk inner core _ hinner hcore =>
      have hne := intervals_ne_nil hcore
      have hintervals := (intervals_eq_ok_iff hne).2 ⟨core, hinner, hcore⟩
      have henclosed := enclosed?_eq_some_iff.2 (rfl : '[' :: (inner ++ [']']) = _)
      simp only [hcount, ne_eq, not_true, if_false, henclosed]
      refine bind_eq_ok_iff.2 ⟨b.intervals, hintervals, ?_⟩
      rw [if_neg (by simpa using hne)]
      rfl

end TrajectorySafety.LogText
