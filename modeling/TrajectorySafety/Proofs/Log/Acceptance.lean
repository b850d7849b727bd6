import TrajectorySafety.Proofs.Log.BoxText

/-!
A text is read as a log exactly when it is one by the grammar (`parse_eq_ok_iff`).

A line is read as the entry that it is (`entry_eq_ok_iff`), and lines are read one by one, with the
expected dimension and the entry before passed along (`entries_eq_ok_iff`). What was passed along
amounts to one dimension for all boxes and to times that increase from 0 on (`continues_cons_iff`).
-/

namespace TrajectorySafety

open Text
open Number (unsigned?)

namespace LogText

/-! ## Entries -/

theorem IsBox.tight {cs : List Char} {b : Box} (h : IsBox cs b) : Tight cs := by
  cases h with
  | @mk inner core _ hinner hcore =>
    refine ⟨fun c hc => ?_, fun c hc => ?_⟩
    · cases hc
      rfl
    · rw [← List.cons_append, List.getLast?_concat] at hc
      cases hc
      rfl

/-- A line without white space at its ends is read as the entry that it is. -/
theorem entry_eq_ok_iff {line : List Char} {e : LogEntry} (hline : Tight line) :
    entry line = .ok e ↔ IsEntry line e := by
  unfold entry
  constructor
  · intro h
    split at h
    · cases h
    · next timePart boxPart hsplit =>
      obtain ⟨rfl, -⟩ := splitOnce_eq_some_iff.1 hsplit
      split at h
      · cases h
      · next digits hdigits =>
        split at h
        · cases h
        · next time htime =>
          obtain ⟨region, hregion, heq⟩ := bind_eq_ok_iff.1 h
          cases heq
          have hbox := box_eq_ok_iff.1 hregion
          have htimePart := padded_trim timePart
          rw [dropLeading?_eq_some_iff.1 hdigits] at htimePart
          have hboxPart := padded_trim boxPart
          have hpadded := padded_trim digits
          generalize trim boxPart = box at hbox hboxPart
          generalize trim digits = core at htime hpadded
          -- White space in front of the time or after the box would be at an end of the line.
          obtain ⟨before, after, hbefore, hafter, rfl⟩ := htimePart
          obtain ⟨before', after', hbefore', hafter', rfl⟩ := hboxPart
          have hshape :
              before ++ (['t', '='] ++ digits ++ after) ++ ':' :: (before' ++ (box ++ after')) =
                before ++
                  (('t' :: '=' :: ((digits ++ after) ++ ':' :: (before' ++ box))) ++ after') := by
            simp
          rw [hshape] at hline ⊢
          obtain rfl := hline.before_eq_nil hbefore
          rw [List.nil_append] at hline ⊢
          obtain rfl := hline.after_eq_nil hafter'
          obtain ⟨before'', after'', hbefore'', hafter'', rfl⟩ := hpadded
          rw [List.append_nil]
          refine .mk ⟨before'', after'' ++ after, hbefore'', ?_, by simp⟩ htime hbefore' hbox
          rw [Blank, List.forall_mem_append]
          exact ⟨hafter'', hafter⟩
  · intro h
    cases h with
    | @mk time digits before box _ htime hdigits hbefore hbox =>
      obtain ⟨hne, hplain⟩ := plain_of_unsigned? hdigits
      have hcolon : ∀ c ∈ 't' :: '=' :: time, c ≠ ':' := by
        have hmarks := (marks_padded htime).trans (marks_of_plain hplain)
        simp only [List.forall_mem_cons]
        exact ⟨by decide, by decide, ne_of_marks hmarks rfl⟩
      obtain ⟨before', after', hbefore', hafter', rfl⟩ := htime
      have htime : trim ('t' :: '=' :: (before' ++ (digits ++ after'))) =
          't' :: '=' :: (before' ++ digits) := by
        refine trim_of_padded ⟨[], after', by simp [Blank], hafter', by simp⟩ ⟨fun c hc => ?_, ?_⟩
        · cases hc
          rfl
        · exact (tight_of_plain hplain).last_append hne ('t' :: '=' :: before')
      have hdigits' : trim (before' ++ digits) = digits :=
        trim_of_plain (padded_append hbefore' digits) hplain
      have hbox' : trim (before ++ box) = box :=
        trim_of_padded (padded_append hbefore box) hbox.tight
      have hsplit := splitOnce_append (before ++ box) hcolon
      rw [List.cons_append, List.cons_append] at hsplit
      simp only [hsplit, htime, dropLeading?, if_true, hdigits', hdigits, hbox']
      exact bind_eq_ok_iff.2 ⟨e.region, box_eq_ok_iff.2 hbox, rfl⟩

/-- An entry starts with its time and ends with the bracket of its box. -/
theorem IsEntry.ends {cs : List Char} {e : LogEntry} (h : IsEntry cs e) :
    cs.head? = some 't' ∧ ∃ front, cs = front ++ [']'] := by
  cases h with
  | @mk time digits before box _ htime hdigits hbefore hbox =>
    cases hbox with
    | @mk inner core _ hinner hcore =>
      exact ⟨rfl, 't' :: '=' :: (time ++ ':' :: (before ++ '[' :: inner)), by simp⟩

theorem IsEntry.tight {cs : List Char} {e : LogEntry} (h : IsEntry cs e) : Tight cs := by
  obtain ⟨hhead, front, rfl⟩ := h.ends
  refine ⟨fun c hc => ?_, fun c hc => ?_⟩
  · rw [hhead] at hc
    cases hc
    rfl
  · rw [List.getLast?_concat] at hc
    cases hc
    rfl

theorem marks_isEntry {cs : List Char} {e : LogEntry} (h : IsEntry cs e) :
    marks cs = entryMarks e.region.dimension := by
  cases h with
  | @mk time digits before box _ htime hdigits hbefore hbox =>
    cases hbox with
    | @mk inner core _ hinner hcore =>
      have hnumber := (marks_padded htime).trans (marks_of_plain (plain_of_unsigned? hdigits).2)
      have hinner := (marks_padded hinner).trans (marks_isIntervals hcore)
      have hbefore := marks_blank hbefore
      unfold marks at hnumber hinner hbefore
      simp only [marks, entryMarks, List.filter_cons, List.filter_append, hnumber, hbefore, hinner,
        Box.dimension, List.filter_nil]
      rfl

/-! ## Logs -/

theorem isEntries_blank_iff {line : List Char} {rest : List (List Char)} {es : List LogEntry}
    (h : Blank line) : IsEntries (line :: rest) es ↔ IsEntries rest es := by
  constructor
  · intro hes
    cases hes with
    | blank _ hrest => exact hrest
    | entry hline hcore _ =>
      have hnil := trim_of_padded hline hcore.tight
      rw [trim_eq_nil_iff.2 h] at hnil
      rw [← hnil] at hcore
      cases hcore
  · exact .blank h

theorem isEntries_entry_iff {line : List Char} {rest : List (List Char)} {es : List LogEntry}
    (h : ¬ Blank line) : IsEntries (line :: rest) es ↔
      ∃ e others, es = e :: others ∧ IsEntry (trim line) e ∧ IsEntries rest others := by
  constructor
  · intro hes
    cases hes with
    | blank hline _ => exact absurd hline h
    | @entry _ core e _ others hline hcore hrest =>
      rw [← trim_of_padded hline hcore.tight] at hcore
      exact ⟨e, others, rfl, hcore, hrest⟩
  · rintro ⟨e, others, rfl, hcore, hrest⟩
    exact .entry (padded_trim line) hcore hrest

/-- Entries fit after others when the first of them does and the rest fits after it. -/
theorem continues_cons_iff {dimension : Nat} {previous : Option LogEntry} {e : LogEntry}
    {es : List LogEntry} : Continues dimension previous (e :: es) ↔
      follows (some dimension) previous e = .ok () ∧ Continues dimension (some e) es := by
  rw [follows_eq_ok_iff]
  unfold Continues
  constructor
  · rintro ⟨hdims, htimes, hfirst⟩
    rw [List.forall_mem_cons] at hdims
    rw [List.pairwise_cons] at htimes
    have hfirst := hfirst e rfl
    refine ⟨⟨fun d hd => ?_, ?_, ?_⟩, hdims.2, htimes.2, fun f hf => ?_⟩
    · rw [← Option.some.inj hd, hdims.1]
    · rintro rfl
      exact hfirst
    · rintro p rfl
      exact hfirst
    · exact htimes.1 f (List.mem_of_head? hf)
  · rintro ⟨⟨hdim, hnone, hsome⟩, hdims, htimes, hfirst⟩
    refine ⟨List.forall_mem_cons.2 ⟨(hdim _ rfl).symm, hdims⟩,
      List.pairwise_cons.2 ⟨?_, htimes⟩, ?_⟩
    · cases es with
      | nil => simp
      | cons f es =>
        have hf : e.time < f.time := hfirst f rfl
        refine List.forall_mem_cons.2 ⟨hf, fun g hg => ?_⟩
        exact hf.trans ((List.pairwise_cons.1 htimes).1 g hg)
    · intro f hf
      cases hf
      cases previous with
      | none => exact hnone rfl
      | some p => exact hsome p rfl

/-- The entries of the lines are read, if they fit after the ones before them. -/
theorem entries_eq_ok_iff {n : Nat} {asked : Option Nat} {previous : Option LogEntry}
    {ls : List (List Char)} {es : List LogEntry} :
    entries n asked previous ls = .ok es ↔ IsEntries ls es ∧
      ∃ dimension, (∀ d, asked = some d → d = dimension) ∧ Continues dimension previous es := by
  induction ls generalizing n asked previous es with
  | nil =>
    have hnil : IsEntries [] es ↔ [] = es := by
      constructor
      · rintro ⟨⟩
        rfl
      · rintro rfl
        exact .nil
    rw [entries, Except.ok.injEq, hnil]
    constructor
    · rintro rfl
      refine ⟨rfl, asked.getD 0, fun d hd => ?_, by simp, List.Pairwise.nil, by simp⟩
      rw [hd]
      rfl
    · exact fun h => h.1
  | cons line rest ih =>
    rw [entries]
    by_cases hline : Blank line
    · simp only [trim_eq_nil_iff.2 hline, List.isEmpty_nil, if_true]
      rw [ih, isEntries_blank_iff hline]
    · have hne : (trim line).isEmpty = false := by
        rw [List.isEmpty_eq_false_iff, ne_eq, trim_eq_nil_iff]
        exact hline
      simp only [hne, Bool.false_eq_true, if_false]
      rw [isEntries_entry_iff hline, bind_eq_ok_iff]
      simp only [mapError_eq_ok_iff, entry_eq_ok_iff (tight_trim line)]
      constructor
      · rintro ⟨e, he, h⟩
        obtain ⟨_, hfollows, h⟩ := bind_eq_ok_iff.1 h
        obtain ⟨others, hothers, heq⟩ := bind_eq_ok_iff.1 h
        cases heq
        obtain ⟨hrest, dimension, hdim, hcontinues⟩ := ih.1 hothers
        obtain ⟨hasked, htime⟩ := follows_eq_ok_iff.1 (mapError_eq_ok_iff.1 hfollows)
        obtain rfl := hdim _ rfl
        refine ⟨⟨e, others, rfl, he, hrest⟩, e.region.dimension, hasked, ?_⟩
        have hfits : follows (some e.region.dimension) previous e = .ok () :=
          follows_eq_ok_iff.2 ⟨fun d hd => (Option.some.inj hd).symm, htime⟩
        exact continues_cons_iff.2 ⟨hfits, hcontinues⟩
      · rintro ⟨⟨e, others, rfl, he, hrest⟩, dimension, hasked, hcontinues⟩
        obtain ⟨hfollows, hcontinues⟩ := continues_cons_iff.1 hcontinues
        obtain ⟨hdim, htime⟩ := follows_eq_ok_iff.1 hfollows
        obtain rfl := hdim _ rfl
        refine ⟨e, he, bind_eq_ok_iff.2 ⟨(), ?_, bind_eq_ok_iff.2 ⟨others, ?_, rfl⟩⟩⟩
        · exact mapError_eq_ok_iff.2 (follows_eq_ok_iff.2 ⟨hasked, htime⟩)
        · exact ih.2 ⟨hrest, _, fun d hd => (Option.some.inj hd).symm, hcontinues⟩

theorem dimension_ne_zero {ls : List (List Char)} {es : List LogEntry} (h : IsEntries ls es) :
    ∀ e ∈ es, e.region.dimension ≠ 0 := by
  induction h with
  | nil => simp
  | blank _ _ ih => exact ih
  | entry _ hcore _ ih =>
    refine List.forall_mem_cons.2 ⟨?_, ih⟩
    cases hcore with
    | mk _ _ _ hbox =>
      cases hbox with
      | mk _ hintervals => simpa [Box.dimension] using intervals_ne_nil hintervals

/-- A line that is not blank is the entry of its own. -/
theorem exists_isEntry {ls : List (List Char)} {es : List LogEntry} (h : IsEntries ls es)
    {line : List Char} (hmem : line ∈ ls) :
    Blank line ∨ ∃ e ∈ es, ∃ core, Padded core line ∧ IsEntry core e := by
  induction h with
  | nil => cases hmem
  | blank hline _ ih =>
    rcases List.mem_cons.1 hmem with rfl | hmem
    · exact .inl hline
    · exact ih hmem
  | @entry _ core e _ es hline hcore _ ih =>
    rcases List.mem_cons.1 hmem with rfl | hmem
    · exact .inr ⟨e, by simp, core, hline, hcore⟩
    · rcases ih hmem with hblank | ⟨f, hf, hline⟩
      · exact .inl hblank
      · exact .inr ⟨f, by simp [hf], hline⟩

theorem isLog_iff {text : List Char} {asked : Option Nat} {es : List LogEntry} :
    IsLog text asked es ↔ entries 1 asked none (lines text) = .ok es ∧ es ≠ [] := by
  rw [entries_eq_ok_iff]
  constructor
  · rintro ⟨⟨ls, hls, hes⟩, hne, hdims, hasked, hstart, htimes⟩
    obtain rfl := splitsInto_iff.1 hls
    obtain ⟨first, rest, rfl⟩ := List.exists_cons_of_ne_nil hne
    have hfirst : first ∈ first :: rest := by simp
    refine ⟨⟨hes, first.region.dimension, fun d hd => (hasked d hd first hfirst).symm, ?_⟩, hne⟩
    exact ⟨fun e he => hdims e he first hfirst, htimes, hstart⟩
  · rintro ⟨⟨hes, dimension, hasked, hdims, htimes, hstart⟩, hne⟩
    refine ⟨⟨_, splitsInto_lines text, hes⟩, hne, ?_, ?_, hstart, htimes⟩
    · exact fun e he f hf => (hdims e he).trans (hdims f hf).symm
    · exact fun d hd e he => (hdims e he).trans (hasked d hd).symm

theorem IsLog.faultless {text : List Char} {asked : Option Nat} {es : List LogEntry}
    (h : IsLog text asked es) : LogEntry.fault? es = none := by
  obtain ⟨ls, -, hes⟩ := h.entries
  obtain ⟨first, rest, rfl⟩ := List.exists_cons_of_ne_nil h.nonempty
  rw [LogEntry.fault?_eq_none_iff]
  refine ⟨h.start first rfl, dimension_ne_zero hes first (by simp), h.increasing, ?_⟩
  exact fun e he => h.dimension e (by simp [he]) first (by simp)

end LogText

namespace UncertaintyLog

open LogText

theorem parse_eq_ok_iff {text : String} {asked : Option Nat} {log : UncertaintyLog} :
    parse text asked = .ok log ↔ IsLog text.toList asked log.entries := by
  rw [isLog_iff]
  unfold parse
  rw [bind_eq_ok_iff]
  constructor
  · rintro ⟨es, hes, h⟩
    split at h
    · cases h
    · next hne =>
      obtain rfl := ofEntries_eq_ok_iff.1 (mapError_eq_ok_iff.1 h)
      exact ⟨hes, log.entries_ne_nil⟩
  · rintro ⟨hes, hne⟩
    refine ⟨log.entries, hes, ?_⟩
    rw [if_neg (by simpa using hne)]
    exact mapError_eq_ok_iff.2 (ofEntries_eq_ok_iff.2 rfl)

/-- A text is read as a log exactly when it is the text of one by the grammar, and the log that is
read has the entries that the grammar gives to its lines. In every line that is not blank the marks
are then those of a box of the log's dimension and nothing but white space follows the last of them:
no comma is missing, doubled or left over, no bracket is nested or unbalanced, no interval has one
or three bounds, and nothing follows a box. -/
theorem parse_accepts_grammar (text : String) (asked : Option Nat) :
    (∀ log, parse text asked = .ok log ↔ IsLog text.toList asked log.entries) ∧
      ((∃ log, parse text asked = .ok log) ↔ ∃ es, IsLog text.toList asked es) ∧
      ∀ log, parse text asked = .ok log →
        ∀ ls, SplitsInto text.toList ls → ∀ line ∈ ls, ¬ Blank line →
          marks line = entryMarks log.dimension ∧
            ∃ front after, line = front ++ ']' :: after ∧ Blank after := by
  refine ⟨fun log => parse_eq_ok_iff, ⟨?_, ?_⟩, ?_⟩
  · rintro ⟨log, hlog⟩
    exact ⟨log.entries, parse_eq_ok_iff.1 hlog⟩
  · rintro ⟨es, hes⟩
    exact ⟨⟨es, hes.faultless⟩, parse_eq_ok_iff.2 hes⟩
  · intro log hlog ls hls line hline hblank
    obtain ⟨ls', hls', hes⟩ := (parse_eq_ok_iff.1 hlog).entries
    obtain rfl : ls = ls' := (splitsInto_iff.1 hls).symm.trans (splitsInto_iff.1 hls')
    obtain ⟨e, he, core, hcore, hentry⟩ := (exists_isEntry hes hline).resolve_left hblank
    constructor
    · rw [marks_padded hcore, marks_isEntry hentry, dimension_of_mem he]
    · obtain ⟨-, front, rfl⟩ := hentry.ends
      obtain ⟨before, after, -, hafter, rfl⟩ := hcore
      exact ⟨before ++ front, after, by simp, hafter⟩

/-- A log of one entry, with white space where it can stand. -/
def looseText : String := "\r\n t= +0\t:\u2003[ [-1e0 ,.5]\t, [2, 2.] ] \n"

theorem parse_looseText :
    (∃ log, parse looseText (some 2) = .ok log) ∧ ∀ log, parse "t=0:[[1,2]]x" none ≠ .ok log := by
  constructor
  · have hlines : SplitsInto looseText.toList
        [[], [' '] ++ (['t', '=', ' ', '+', '0', '\t', ':', '\u2003', '[', ' ', '[', '-', '1', 'e',
          '0', ' ', ',', '.', '5', ']', '\t', ',', ' ', '[', '2', ',', ' ', '2', '.', ']', ' ',
          ']'] ++ [' '])] := by
      rw [splitsInto_iff]
      simp [looseText]
      decide
    have hlow : Padded ['-', '1', 'e', '0'] ['-', '1', 'e', '0', ' '] :=
      ⟨[], [' '], by decide, by decide, rfl⟩
    have hhigh : Padded ['2', '.'] [' ', '2', '.'] := ⟨[' '], [], by decide, by decide, rfl⟩
    have hfirst : IsInterval ('[' :: (['-', '1', 'e', '0', ' '] ++ ',' :: (['.', '5'] ++ [']'])))
        ⟨Number.ofDecimal true 1 0, Number.ofDecimal false 5 (-1)⟩ :=
      .mk hlow rfl (padded_append (show Blank [] by decide) ['.', '5']) rfl (by decide +kernel)
    have hsecond : IsInterval ('[' :: (['2'] ++ ',' :: ([' ', '2', '.'] ++ [']'])))
        ⟨Number.ofDecimal false 2 0, Number.ofDecimal false 2 0⟩ :=
      .mk (padded_append (show Blank [] by decide) ['2']) rfl hhigh rfl (by decide +kernel)
    have hintervals := IsIntervals.cons hfirst (show Blank ['\t'] by decide)
      (show Blank [' '] by decide) (.single hsecond)
    have hbox : IsBox _ ⟨_⟩ := .mk ⟨[' '], [' '], by decide, by decide, rfl⟩ hintervals
    have htime : Padded ['+', '0'] [' ', '+', '0', '\t'] :=
      ⟨[' '], ['\t'], by decide, by decide, rfl⟩
    have hentry : IsEntry _ ⟨_, 0⟩ := .mk htime rfl (show Blank ['\u2003'] by decide) hbox
    have hentries := IsEntries.blank (show Blank [] by decide)
      (.entry ⟨[' '], [' '], by decide, by decide, rfl⟩ hentry .nil)
    refine (parse_accepts_grammar looseText (some 2)).2.1.2
      ⟨_, ⟨_, hlines, hentries⟩, ?_, ?_, ?_, ?_, ?_⟩
    all_goals simp [Box.dimension]
  · intro log hlog
    have hlines : SplitsInto "t=0:[[1,2]]x".toList ["t=0:[[1,2]]x".toList] := by
      rw [splitsInto_iff]
      simp
      decide
    obtain ⟨-, front, after, hline, hafter⟩ := (parse_accepts_grammar _ none).2.2 log hlog _ hlines
      _ (List.mem_singleton.2 rfl) (fun h => absurd (h 'x' (by simp)) (by decide))
    have hlast : (']' :: after).getLast? = some 'x' := by
      have h := congrArg List.getLast? hline
      rw [List.getLast?_append_of_ne_nil _ (by simp)] at h
      simpa using h.symm
    rcases List.mem_cons.1 (List.mem_of_getLast? hlast) with hx | hx
    · exact absurd hx (by decide)
    · exact absurd (hafter 'x' hx) (by decide)

end UncertaintyLog

end TrajectorySafety
