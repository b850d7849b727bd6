import TrajectorySafety.Proofs.Number.Fixed
import TrajectorySafety.Text.Blank

/-!
Pieces of text: white space and trimming, separators, lines.

What the functions on text cut off or take apart is said without them: trimming leaves the text that
has only white space around it and none at its ends (`trim_eq_iff`), and the lines of a text are the
ones it consists of together with their line ends (`splitsInto_iff`).
-/

namespace TrajectorySafety.Text

open Number (InNumber)

/-! ## White space -/

/-- Nothing but white space. -/
def Blank (cs : List Char) : Prop := ∀ c ∈ cs, isBlank c = true

instance (cs : List Char) : Decidable (Blank cs) :=
  decidable_of_iff (cs.all isBlank = true) List.all_eq_true

/-- White space at neither end. -/
structure Tight (cs : List Char) : Prop where
  head : ∀ c, cs.head? = some c → isBlank c = false
  last : ∀ c, cs.getLast? = some c → isBlank c = false

/-- A text with white space around it. -/
def Padded (core cs : List Char) : Prop :=
  ∃ before after, Blank before ∧ Blank after ∧ cs = before ++ (core ++ after)

theorem isBlank_of_inNumber {c : Char} (h : InNumber c) : isBlank c = false := by
  obtain ⟨h1, h2⟩ := h
  simp only [isBlank]
  generalize c.toNat = n at h1 h2
  simp only [Bool.or_eq_false_iff, Bool.and_eq_false_iff, decide_eq_false_iff_not,
    beq_eq_false_iff_ne]
  omega

theorem trimStart_cons {c : Char} (cs : List Char) (h : isBlank c = false) :
    trimStart (c :: cs) = c :: cs := List.dropWhile_cons_of_neg (by simp [h])

theorem trimStart_space (cs : List Char) : trimStart (' ' :: cs) = trimStart cs :=
  List.dropWhile_cons_of_pos rfl

theorem trimEnd_concat {c : Char} (cs : List Char) (h : isBlank c = false) :
    trimEnd (cs ++ [c]) = cs ++ [c] := by
  unfold trimEnd
  rw [List.reverse_append, List.reverse_singleton, List.singleton_append,
    List.dropWhile_cons_of_neg (by simp [h]), List.reverse_cons, List.reverse_reverse]

/-- Text without blanks at its ends stays as it is. -/
theorem trim_eq_self {cs : List Char} (hhead : ∀ c, cs.head? = some c → isBlank c = false)
    (hlast : ∀ c, cs.getLast? = some c → isBlank c = false) : trim cs = cs := by
  rcases List.eq_nil_or_concat cs with rfl | ⟨front, c, rfl⟩
  · rfl
  · rw [List.concat_eq_append] at hhead hlast ⊢
    have hstart : trimStart (front ++ [c]) = front ++ [c] := by
      cases front with
      | nil => exact trimStart_cons [] (hlast c (by simp))
      | cons d front => exact trimStart_cons _ (hhead d (by simp))
    unfold trim
    rw [hstart, trimEnd_concat front (hlast c (by simp))]

theorem trim_space {cs : List Char} (h : trim cs = cs) : trim (' ' :: cs) = cs := by
  unfold trim at h ⊢
  rwa [trimStart_space]

theorem trim_of_inNumber {cs : List Char} (h : ∀ c ∈ cs, InNumber c) : trim cs = cs :=
  trim_eq_self (fun c hc => isBlank_of_inNumber (h c (List.mem_of_head? hc)))
    (fun c hc => isBlank_of_inNumber (h c (List.mem_of_getLast? hc)))

theorem trimStart_append {before : List Char} (h : Blank before) (cs : List Char) :
    trimStart (before ++ cs) = trimStart cs := List.dropWhile_append_of_pos h

theorem trimEnd_append {after : List Char} (cs : List Char) (h : Blank after) :
    trimEnd (cs ++ after) = trimEnd cs := by
  unfold trimEnd
  rw [List.reverse_append, List.dropWhile_append_of_pos]
  exact fun c hc => h c (List.mem_reverse.1 hc)

theorem trimStart_eq_nil_iff {cs : List Char} : trimStart cs = [] ↔ Blank cs :=
  List.dropWhile_eq_nil_iff

/-- What is trimmed in front is white space. -/
theorem exists_trimStart (cs : List Char) : ∃ before, Blank before ∧ cs = before ++ trimStart cs :=
  ⟨cs.takeWhile isBlank, fun _ hc => List.mem_takeWhile_imp hc,
    List.takeWhile_append_dropWhile.symm⟩

/-- What is trimmed at the end is white space. -/
theorem exists_trimEnd (cs : List Char) : ∃ after, Blank after ∧ cs = trimEnd cs ++ after := by
  refine ⟨(cs.reverse.takeWhile isBlank).reverse, ?_, ?_⟩
  · exact fun c hc => List.mem_takeWhile_imp (List.mem_reverse.1 hc)
  · unfold trimEnd
    rw [← List.reverse_append, List.takeWhile_append_dropWhile, List.reverse_reverse]

theorem padded_append {before : List Char} (h : Blank before) (cs : List Char) :
    Padded cs (before ++ cs) :=
  ⟨before, [], h, fun _ hc => absurd hc List.not_mem_nil, by rw [List.append_nil]⟩

theorem padded_trim (cs : List Char) : Padded (trim cs) cs := by
  obtain ⟨before, hbefore, hcs⟩ := exists_trimStart cs
  obtain ⟨after, hafter, hstart⟩ := exists_trimEnd (trimStart cs)
  refine ⟨before, after, hbefore, hafter, ?_⟩
  unfold trim
  rw [← hstart, ← hcs]

theorem isBlank_of_head?_trimStart {cs : List Char} {c : Char}
    (h : (trimStart cs).head? = some c) : isBlank c = false := by
  have hnot := List.head?_dropWhile_not isBlank cs
  unfold trimStart at h
  rw [h] at hnot
  exact hnot

theorem tight_trim (cs : List Char) : Tight (trim cs) := by
  obtain ⟨after, -, hstart⟩ := exists_trimEnd (trimStart cs)
  refine ⟨fun c hc => ?_, fun c hc => ?_⟩
  · have hhead : (trimStart cs).head? = some c := by
      rw [hstart, List.head?_append, show (trimEnd (trimStart cs)).head? = some c from hc]
      rfl
    exact isBlank_of_head?_trimStart hhead
  · unfold trim trimEnd at hc
    rw [List.getLast?_reverse] at hc
    exact isBlank_of_head?_trimStart hc

theorem Tight.before_eq_nil {before cs : List Char} (h : Tight (before ++ cs))
    (hbefore : Blank before) : before = [] := by
  cases before with
  | nil => rfl
  | cons c before => exact absurd (h.head c rfl) (by simp [hbefore c (by simp)])

theorem Tight.after_eq_nil {cs after : List Char} (h : Tight (cs ++ after))
    (hafter : Blank after) : after = [] := by
  rcases List.eq_nil_or_concat after with rfl | ⟨front, c, rfl⟩
  · rfl
  · rw [List.concat_eq_append] at h hafter
    rw [← List.append_assoc] at h
    exact absurd (h.last c (by simp)) (by simp [hafter c (by simp)])

/-- What stands in front does not matter for the end of a text. -/
theorem Tight.last_append {cs : List Char} (h : Tight cs) (hne : cs ≠ []) (front : List Char)
    (c : Char) (hc : (front ++ cs).getLast? = some c) : isBlank c = false := by
  rw [List.getLast?_append_of_ne_nil _ hne] at hc
  exact h.last c hc

theorem trim_of_padded {core cs : List Char} (h : Padded core cs) (htight : Tight core) :
    trim cs = core := by
  obtain ⟨before, after, hbefore, hafter, rfl⟩ := h
  unfold trim
  rw [trimStart_append hbefore]
  cases core with
  | nil =>
    rw [List.nil_append, trimStart_eq_nil_iff.2 hafter]
    rfl
  | cons c core =>
    rw [List.cons_append, trimStart_cons _ (htight.head c rfl), ← List.cons_append,
      trimEnd_append _ hafter]
    have htrim := trim_eq_self htight.head htight.last
    unfold trim at htrim
    rwa [trimStart_cons _ (htight.head c rfl)] at htrim

/-- Trimming leaves what has white space around it and none at its ends. -/
theorem trim_eq_iff {core cs : List Char} : trim cs = core ↔ Padded core cs ∧ Tight core := by
  constructor
  · rintro rfl
    exact ⟨padded_trim cs, tight_trim cs⟩
  · exact fun h => trim_of_padded h.1 h.2

theorem trim_eq_nil_iff {cs : List Char} : trim cs = [] ↔ Blank cs := by
  rw [trim_eq_iff]
  constructor
  · rintro ⟨⟨before, after, hbefore, hafter, rfl⟩, -⟩ c hc
    rw [List.nil_append, List.mem_append] at hc
    exact hc.elim (hbefore c) (hafter c)
  · intro h
    refine ⟨⟨cs, [], h, ?_, ?_⟩, ?_, ?_⟩ <;> simp [Blank]

/-! ## Separators -/

theorem splitOnce_append {sep : Char} {before : List Char} (after : List Char)
    (h : ∀ c ∈ before, c ≠ sep) :
    splitOnce sep (before ++ sep :: after) = some (before, after) := by
  induction before with
  | nil => simp [splitOnce]
  | cons c before ih =>
    rw [List.forall_mem_cons] at h
    simp [splitOnce, h.1, ih h.2]

theorem splitOnce_eq_some_iff {sep : Char} {cs before after : List Char} :
    splitOnce sep cs = some (before, after) ↔
      cs = before ++ sep :: after ∧ ∀ c ∈ before, c ≠ sep := by
  constructor
  · intro h
    induction cs generalizing before with
    | nil => cases h
    | cons c cs ih =>
      rw [splitOnce] at h
      by_cases hc : c = sep
      · rw [if_pos hc] at h
        cases h
        simp [hc]
      · rw [if_neg hc] at h
        obtain ⟨⟨front, tail⟩, hsplit, heq⟩ := Option.map_eq_some_iff.1 h
        cases heq
        obtain ⟨rfl, hfront⟩ := ih hsplit
        exact ⟨rfl, List.forall_mem_cons.2 ⟨hc, hfront⟩⟩
  · rintro ⟨rfl, h⟩
    exact splitOnce_append after h

theorem splitOnce_eq_none_iff {sep : Char} {cs : List Char} :
    splitOnce sep cs = none ↔ sep ∉ cs := by
  induction cs with
  | nil => simp [splitOnce]
  | cons c cs ih =>
    rw [splitOnce, List.mem_cons, not_or, eq_comm]
    by_cases hc : c = sep
    · simp [hc]
    · simp [hc, Ne.symm hc, ih]

theorem dropLeading?_eq_some_iff {lead cs rest : List Char} :
    dropLeading? lead cs = some rest ↔ cs = lead ++ rest := by
  induction lead generalizing cs with
  | nil => simp [dropLeading?]
  | cons l lead ih =>
    cases cs with
    | nil => simp [dropLeading?]
    | cons c cs =>
      rw [dropLeading?, List.cons_append, List.cons.injEq, ← ih, eq_comm (a := c)]
      by_cases hc : l = c
      · simp [hc]
      · simp [hc]

/-! ## Lines -/

theorem linesFrom_append {line : List Char} (current rest : List Char)
    (h : ∀ c ∈ line, c ≠ '\n') :
    linesFrom current (line ++ '\n' :: rest) =
      dropReturn (current.reverse ++ line) :: linesFrom [] rest := by
  induction line generalizing current with
  | nil => cases current <;> simp [linesFrom]
  | cons c line ih =>
    rw [List.forall_mem_cons] at h
    rw [List.cons_append, linesFrom]
    · rw [ih (c :: current) h.2]
      simp
    · exact h.1

theorem lines_append {line : List Char} (rest : List Char) (h : ∀ c ∈ line, c ≠ '\n') :
    lines (line ++ '\n' :: rest) = dropReturn line :: lines rest := linesFrom_append [] rest h

theorem dropReturn_concat {c : Char} (cs : List Char) (h : c ≠ '\r') :
    dropReturn (cs ++ [c]) = cs ++ [c] := by
  unfold dropReturn
  rw [List.reverse_append, List.reverse_singleton, List.singleton_append]
  split
  · next heq => exact absurd (List.cons.inj heq).1 h
  · rfl

/-- A line that ends in a visible character is followed by the lines of the rest. -/
theorem lines_concat {c : Char} (line rest : List Char) (hc : c ≠ '\r')
    (h : ∀ d ∈ line ++ [c], d ≠ '\n') :
    lines (line ++ [c] ++ '\n' :: rest) = (line ++ [c]) :: lines rest := by
  rw [lines_append rest h, dropReturn_concat line hc]

theorem dropReturn_return (cs : List Char) : dropReturn (cs ++ ['\r']) = cs := by
  simp [dropReturn]

theorem dropReturn_of_getLast? {cs : List Char} (h : cs.getLast? ≠ some '\r') :
    dropReturn cs = cs := by
  rcases List.eq_nil_or_concat cs with rfl | ⟨front, c, rfl⟩
  · rfl
  · rw [List.concat_eq_append] at h ⊢
    exact dropReturn_concat front fun hc => h (by rw [List.getLast?_concat, hc])

theorem linesFrom_eq_singleton {line : List Char} (current : List Char)
    (h : ∀ c ∈ line, c ≠ '\n') (hne : current.reverse ++ line ≠ []) :
    linesFrom current line = [current.reverse ++ line] := by
  induction line generalizing current with
  | nil =>
    cases current with
    | nil => exact absurd rfl hne
    | cons d current => simp [linesFrom]
  | cons c line ih =>
    rw [List.forall_mem_cons] at h
    rw [linesFrom]
    · rw [ih (c :: current) h.2 (by simp)]
      simp
    · exact h.1

/-- The lines that a text consists of. Each ends in a newline, or in a carriage return and a
newline; the last one may also end with the text, unless it is empty. -/
inductive SplitsInto : List Char → List (List Char) → Prop where
  | nil : SplitsInto [] []
  | last {line : List Char} (hne : line ≠ []) (h : ∀ c ∈ line, c ≠ '\n') : SplitsInto line [line]
  | newline {line rest : List Char} {ls : List (List Char)} (h : ∀ c ∈ line, c ≠ '\n')
      (hlast : line.getLast? ≠ some '\r') (hrest : SplitsInto rest ls) :
      SplitsInto (line ++ '\n' :: rest) (line :: ls)
  | returned {line rest : List Char} {ls : List (List Char)} (h : ∀ c ∈ line, c ≠ '\n')
      (hrest : SplitsInto rest ls) : SplitsInto (line ++ '\r' :: '\n' :: rest) (line :: ls)

theorem lines_of_splitsInto {cs : List Char} {ls : List (List Char)} (h : SplitsInto cs ls) :
    lines cs = ls := by
  induction h with
  | nil => rfl
  | last hne h => exact linesFrom_eq_singleton [] h hne
  | newline h hlast hrest ih => rw [lines_append _ h, dropReturn_of_getLast? hlast, ih]
  | @returned line rest ls h hrest ih =>
    have hreturn : ∀ c ∈ line ++ ['\r'], c ≠ '\n' := by
      rw [List.forall_mem_append, List.forall_mem_singleton]
      exact ⟨h, by decide⟩
    have happend : line ++ '\r' :: '\n' :: rest = (line ++ ['\r']) ++ '\n' :: rest := by simp
    rw [happend, lines_append _ hreturn, dropReturn_return, ih]

theorem splitsInto_lines (cs : List Char) : SplitsInto cs (lines cs) := by
  induction hn : cs.length using Nat.strong_induction_on generalizing cs with
  | _ n ih =>
    by_cases hnewline : '\n' ∈ cs
    · obtain ⟨line, rest, rfl, hline⟩ := List.eq_append_cons_of_mem hnewline
      have hline : ∀ c ∈ line, c ≠ '\n' := fun c hc heq => hline (heq ▸ hc)
      have hrest := ih rest.length (by simp at hn; omega) rest rfl
      rw [lines_append rest hline]
      by_cases hlast : line.getLast? = some '\r'
      · obtain ⟨front, rfl⟩ := List.getLast?_eq_some_iff.1 hlast
        rw [dropReturn_return, List.append_assoc]
        exact .returned (List.forall_mem_append.1 hline).1 hrest
      · rw [dropReturn_of_getLast? hlast]
        exact .newline hline hlast hrest
    · have hcs : ∀ c ∈ cs, c ≠ '\n' := fun c hc heq => hnewline (heq ▸ hc)
      cases cs with
      | nil => exact .nil
      | cons c cs =>
        have hlines : lines (c :: cs) = [c :: cs] := linesFrom_eq_singleton [] hcs (by simp)
        rw [hlines]
        exact .last (by simp) hcs

/-- The lines of a text are the ones it consists of. -/
theorem splitsInto_iff {cs : List Char} {ls : List (List Char)} :
    SplitsInto cs ls ↔ lines cs = ls := by
  constructor
  · exact lines_of_splitsInto
  · rintro rfl
    exact splitsInto_lines cs

end TrajectorySafety.Text
