import TrajectorySafety.Proofs.Log.Acceptance

/-!
A text that is no log is refused for its first line that does not fit.

Lines are read one by one. A blank line changes nothing, and of any other line it depends on the
entries before it alone whether it fits (`entries_cons_visible`), so that reading stops at the first
line that does not: the lines before it are read, and what follows it is not looked at
(`stops_of_entries`). Entries that were read one by one are a log, since each was held against the
one before it; what the lines let through is never refused as a whole (`parse_of_entries`).
-/

namespace TrajectorySafety

open Text

namespace Text

/-- The first lines of a text, with their line ends, are the beginning of it. -/
theorem SplitsInto.take {cs : List Char} {ls : List (List Char)} (h : SplitsInto cs ls) (k : Nat) :
    ∃ front rest, cs = front ++ rest ∧ SplitsInto front (ls.take k) := by
  induction h generalizing k with
  | nil => exact ⟨[], [], rfl, by rw [List.take_nil]; exact .nil⟩
  | @last line hne h =>
    cases k with
    | zero => exact ⟨[], line, rfl, .nil⟩
    | succ k => exact ⟨line, [], by rw [List.append_nil], by simpa using .last hne h⟩
  | @newline line rest ls h hlast hrest ih =>
    cases k with
    | zero => exact ⟨[], _, rfl, .nil⟩
    | succ k =>
      obtain ⟨front, after, rfl, hfront⟩ := ih k
      exact ⟨line ++ '\n' :: front, after, by simp, .newline h hlast hfront⟩
  | @returned line rest ls h hrest ih =>
    cases k with
    | zero => exact ⟨[], _, rfl, .nil⟩
    | succ k =>
      obtain ⟨front, after, rfl, hfront⟩ := ih k
      exact ⟨line ++ '\r' :: '\n' :: front, after, by simp, .returned h hfront⟩

end Text

namespace LogText

variable {n : Nat} {asked : Option Nat} {previous : Option LogEntry}

/-! ## One line -/

/-- The entry of line number `n`, if it fits after the ones before it. -/
def fitting (n : Nat) (asked : Option Nat) (previous : Option LogEntry) (line : List Char) :
    Except Error LogEntry := do
  let e ← (entry line).mapError (.parse n)
  (follows asked previous e).mapError (.parse n)
  return e

theorem fitting_eq_error {line : List Char} {err : Error}
    (h : fitting n asked previous line = .error err) : ∃ fault, err = .parse n fault := by
  unfold fitting at h
  cases he : entry line with
  | error fault =>
    rw [he] at h
    cases h
    exact ⟨fault, rfl⟩
  | ok e =>
    rw [he] at h
    cases hf : follows asked previous e with
    | error fault =>
      simp only [Except.mapError, bind, Except.bind, hf] at h
      cases h
      exact ⟨fault, rfl⟩
    | ok u =>
      simp only [Except.mapError, bind, Except.bind, hf] at h
      cases h

theorem entries_cons_blank {line : List Char} (hline : Blank line) (rest : List (List Char)) :
    entries n asked previous (line :: rest) = entries (n + 1) asked previous rest := by
  rw [entries]
  simp only [trim_eq_nil_iff.2 hline, List.isEmpty_nil, if_true]

/-- A line that is not blank is held against the entries before it, and its own entry is what the
rest is held against. -/
theorem entries_cons_visible {line : List Char} (hline : ¬ Blank line) (rest : List (List Char)) :
    entries n asked previous (line :: rest) = (fitting n asked previous (trim line)).bind fun e =>
      (entries (n + 1) (some e.region.dimension) (some e) rest).map (e :: ·) := by
  have hne : (trim line).isEmpty = false := by
    rw [List.isEmpty_eq_false_iff, ne_eq, trim_eq_nil_iff]
    exact hline
  rw [entries, fitting]
  simp only [hne, Bool.false_eq_true, if_false]
  cases entry (trim line) with
  | error fault => rfl
  | ok e =>
    cases hf : follows asked previous e with
    | error fault => simp only [Except.mapError, bind, Except.bind, hf]
    | ok u =>
      simp only [Except.mapError, bind, Except.bind, hf, pure, Except.pure]
      cases entries (n + 1) (some e.region.dimension) (some e) rest with
      | error err => rfl
      | ok es => rfl

/-! ## All lines -/

/-- Reading stops with an error at the line at position `k`: it is not blank, the lines before it
are read, and so it is whatever follows it. -/
structure StopsAt (n : Nat) (asked : Option Nat) (previous : Option LogEntry)
    (ls : List (List Char)) (k : Nat) (err : Error) : Prop where
  visible : ∃ line, ls[k]? = some line ∧ ¬ Blank line
  before : ∃ es, entries n asked previous (ls.take k) = .ok es
  after : ∀ rest, entries n asked previous (ls.take (k + 1) ++ rest) = .error err

/-- Lines that cannot be read stop at one of them, whose number the error gives. -/
theorem stops_of_entries {ls : List (List Char)} {err : Error}
    (h : entries n asked previous ls = .error err) :
    ∃ k fault, err = .parse (n + k) fault ∧ StopsAt n asked previous ls k err := by
  induction ls generalizing n asked previous with
  | nil => cases h
  | cons line ls ih =>
    by_cases hline : Blank line
    · rw [entries_cons_blank hline] at h
      obtain ⟨k, fault, rfl, hvisible, ⟨es, hes⟩, hafter⟩ := ih h
      refine ⟨k + 1, fault, by rw [Nat.add_assoc, Nat.add_comm 1], hvisible, ⟨es, ?_⟩,
        fun rest => ?_⟩
      · rw [List.take_succ_cons, entries_cons_blank hline, hes]
      · rw [List.take_succ_cons, List.cons_append, entries_cons_blank hline, hafter]
    · rw [entries_cons_visible hline] at h
      cases hfit : fitting n asked previous (trim line) with
      | error stopped =>
        rw [hfit] at h
        obtain rfl : stopped = err := Except.error.inj h
        obtain ⟨fault, rfl⟩ := fitting_eq_error hfit
        refine ⟨0, fault, rfl, ⟨line, rfl, hline⟩, ⟨[], rfl⟩, fun rest => ?_⟩
        rw [List.take_succ_cons, List.cons_append, entries_cons_visible hline, hfit]
        rfl
      | ok e =>
        rw [hfit] at h
        cases hrest : entries (n + 1) (some e.region.dimension) (some e) ls with
        | ok es =>
          simp only [Except.bind, hrest] at h
          cases h
        | error stopped =>
          simp only [Except.bind, hrest] at h
          obtain rfl : stopped = err := Except.error.inj h
          obtain ⟨k, fault, rfl, hvisible, ⟨es, hes⟩, hafter⟩ := ih hrest
          refine ⟨k + 1, fault, by rw [Nat.add_assoc, Nat.add_comm 1], hvisible, ⟨e :: es, ?_⟩,
            fun rest => ?_⟩
          · rw [List.take_succ_cons, entries_cons_visible hline, hfit]
            simp only [Except.bind, hes]
            rfl
          · rw [List.take_succ_cons, List.cons_append, entries_cons_visible hline, hfit]
            simp only [Except.bind, hafter]
            rfl

/-- Lines without an entry are blank. -/
theorem entries_eq_nil_iff {ls : List (List Char)} :
    entries n asked previous ls = .ok [] ↔ ∀ line ∈ ls, Blank line := by
  induction ls generalizing n with
  | nil => simp [entries]
  | cons line ls ih =>
    rw [List.forall_mem_cons]
    by_cases hline : Blank line
    · rw [entries_cons_blank hline, ih]
      exact (and_iff_right hline).symm
    · refine iff_of_false (fun h => ?_) fun h => hline h.1
      rw [entries_cons_visible hline] at h
      cases hfit : fitting n asked previous (trim line) with
      | error err =>
        rw [hfit] at h
        cases h
      | ok e =>
        rw [hfit] at h
        obtain ⟨es, -, hes⟩ := map_eq_ok_iff.1 h
        cases hes

end LogText

namespace UncertaintyLog

open LogText

variable {text : String} {asked : Option Nat}

/-! ## Texts -/

/-- Entries that the lines of a text let through are a log. -/
theorem parse_of_entries {es : List LogEntry}
    (h : LogText.entries 1 asked none (lines text.toList) = .ok es) (hne : es ≠ []) :
    ∃ log, parse text asked = .ok log := by
  have hlog := isLog_iff.2 ⟨h, hne⟩
  exact ⟨⟨es, hlog.faultless⟩, parse_eq_ok_iff.2 hlog⟩

theorem parse_of_entries_error {err : Error}
    (h : LogText.entries 1 asked none (lines text.toList) = .error err) :
    parse text asked = .error err := by
  unfold parse
  rw [h]
  rfl

theorem parse_of_blank (h : ∀ line ∈ lines text.toList, Blank line) :
    parse text asked = .error (.parse 1 .noEntries) := by
  unfold parse
  rw [entries_eq_nil_iff.2 h]
  rfl

/-- A text is refused because its lines are, or because all of them are blank. -/
theorem entries_of_parse_error {err : Error} (h : parse text asked = .error err) :
    LogText.entries 1 asked none (lines text.toList) = .error err ∨
      ∀ line ∈ lines text.toList, Blank line := by
  cases hes : LogText.entries 1 asked none (lines text.toList) with
  | error stopped =>
    rw [parse_of_entries_error hes] at h
    exact .inl (congrArg _ (Except.error.inj h))
  | ok es =>
    cases es with
    | nil => exact .inr (entries_eq_nil_iff.1 hes)
    | cons e es =>
      obtain ⟨log, hlog⟩ := parse_of_entries hes (List.cons_ne_nil e es)
      rw [hlog] at h
      cases h

/-- A text that cannot be read as a log is refused for one of its lines, never for its entries as a
whole. If all lines are blank this is the first. Otherwise it is the first line that does not fit:
the text that ends before it is read as a log, or has only blank lines, and every text that begins
with the same lines, this one included, is refused in the same words. -/
theorem parse_stops_at_first_fault {err : Error} (h : parse text asked = .error err)
    {ls : List (List Char)} (hls : SplitsInto text.toList ls) :
    ∃ k fault, err = .parse (k + 1) fault ∧
      ((∀ line ∈ ls, Blank line) → k = 0) ∧
      ((∃ line ∈ ls, ¬ Blank line) →
        k < ls.length ∧
        (∃ front rest, text.toList = front ++ rest ∧ SplitsInto front (ls.take k)) ∧
        (∀ front : String, SplitsInto front.toList (ls.take k) →
          (∃ log, parse front asked = .ok log) ∨ ∀ line ∈ ls.take k, Blank line) ∧
        ∀ (other : String) (ls' : List (List Char)), SplitsInto other.toList ls' →
          ls.take (k + 1) <+: ls' → parse other asked = .error err) := by
  obtain rfl := splitsInto_iff.1 hls
  rcases entries_of_parse_error h with hes | hblank
  · obtain ⟨k, fault, rfl, ⟨line, hline, hvisible⟩, ⟨es, hes⟩, hafter⟩ := stops_of_entries hes
    refine ⟨k, fault, by rw [Nat.add_comm], fun hblank => ?_, fun _ => ⟨?_, ?_, ?_, ?_⟩⟩
    · exact absurd (hblank line (List.mem_of_getElem? hline)) hvisible
    · exact (List.getElem?_eq_some_iff.1 hline).1
    · exact hls.take k
    · intro front hfront
      rw [← splitsInto_iff.1 hfront] at hes ⊢
      cases es with
      | nil => exact .inr (entries_eq_nil_iff.1 hes)
      | cons e es => exact .inl (parse_of_entries hes (List.cons_ne_nil e es))
    · rintro other ls' hother ⟨rest, rfl⟩
      refine parse_of_entries_error ?_
      rw [splitsInto_iff.1 hother]
      exact hafter rest
  · obtain rfl := Except.error.inj ((parse_of_blank hblank).symm.trans h)
    refine ⟨0, .noEntries, rfl, fun _ => rfl, ?_⟩
    rintro ⟨line, hline, hvisible⟩
    exact absurd (hblank line hline) hvisible

/-- A line that is an entry at time 0. -/
def startLine : List Char := ['t', '=', '0', ':', '[', '[', '0', ',', '1', ']', ']']

theorem entry_startLine : ∃ e, entry startLine = .ok e ∧ e.time = 0 ∧ e.region.dimension = 1 := by
  have hzero : Padded ['0'] ['0'] := padded_append (show Blank [] by decide) ['0']
  have hone : Padded ['1'] ['1'] := padded_append (show Blank [] by decide) ['1']
  have hinterval : IsInterval ('[' :: (['0'] ++ ',' :: (['1'] ++ [']'])))
      ⟨Number.ofDecimal false 0 0, Number.ofDecimal false 1 0⟩ :=
    .mk hzero rfl hone rfl (by decide +kernel)
  have hbox : IsBox _ ⟨_⟩ := .mk (padded_append (show Blank [] by decide) _) (.single hinterval)
  have hentry : IsEntry startLine ⟨_, 0⟩ := .mk hzero rfl (show Blank [] by decide) hbox
  exact ⟨_, (entry_eq_ok_iff hentry.tight).2 hentry, rfl, rfl⟩

/-- A blank line, an entry at time 0, and a second one. -/
def repeatedText : String := "\nt=0:[[0,1]]\nt=0:[[0,1]]"

theorem splitsInto_repeatedText : SplitsInto repeatedText.toList [[], startLine, startLine] := by
  rw [splitsInto_iff]
  simp [repeatedText]
  decide

theorem parse_repeatedText :
    parse repeatedText (some 1) = .error (.parse 3 (.unordered 0 0)) := by
  obtain ⟨e, hentry, htime, hdimension⟩ := entry_startLine
  have hvisible : ¬ Blank startLine := by decide
  have htrim : trim startLine = startLine := by decide
  refine parse_of_entries_error ?_
  rw [splitsInto_iff.1 splitsInto_repeatedText, entries_cons_blank (by decide),
    entries_cons_visible hvisible, htrim]
  have hfirst : fitting (1 + 1) (some 1) none startLine = .ok e := by
    rw [fitting, hentry]
    simp [follows, Option.filter, hdimension, htime, Except.mapError, bind, Except.bind, pure,
      Except.pure]
  have hsecond : fitting (1 + 1 + 1) (some e.region.dimension) (some e) startLine =
      .error (.parse 3 (.unordered 0 0)) := by
    rw [fitting, hentry]
    simp [follows, Option.filter, hdimension, htime, Except.mapError, bind, Except.bind]
  simp only [hfirst, Except.bind, entries_cons_visible hvisible, htrim, hsecond]
  rfl

/-- The second entry at time 0 is refused at line 3, after two lines that are read, and also with
other line ends and more lines after it. -/
theorem parse_stops_at_repeated :
    parse repeatedText (some 1) = .error (.parse 3 (.unordered 0 0)) ∧
    (∃ log, parse "\nt=0:[[0,1]]\n" (some 1) = .ok log) ∧
    parse "\r\nt=0:[[0,1]]\nt=0:[[0,1]]\r\n?" (some 1) = .error (.parse 3 (.unordered 0 0)) := by
  obtain ⟨k, fault, herr, -, hvisible⟩ :=
    parse_stops_at_first_fault parse_repeatedText splitsInto_repeatedText
  obtain rfl : 2 = k := by
    injection herr with hline
    omega
  obtain ⟨-, -, hbefore, hafter⟩ := hvisible ⟨startLine, by simp, by decide⟩
  refine ⟨parse_repeatedText, (hbefore _ ?_).resolve_right fun hblank => ?_, hafter _
    [[], startLine, startLine, ['?']] ?_ (by simp)⟩
  · rw [splitsInto_iff]
    simp
    decide
  · exact absurd (hblank startLine (by simp)) (by decide)
  · rw [splitsInto_iff]
    simp
    decide

end UncertaintyLog

end TrajectorySafety
