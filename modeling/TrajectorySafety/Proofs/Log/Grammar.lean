import TrajectorySafety.Log.Text
import TrajectorySafety.Proofs.Text.Pieces
import TrajectorySafety.Validity

/-!
The grammar of a written log.

    entry     = "t=" ws* time ws* ":" ws* box
    box       = "[" ws* interval (ws* "," ws* interval)* ws* "]"
    interval  = "[" ws* bound ws* "," ws* bound ws* "]"

It is stated by relations between a text and what it stands for (`IsInterval`, `IsBox`, `IsEntry`,
`IsLog`), without the functions that read it. Its marks are the colon, the commas and the brackets;
no number contains one (`plain_of_float?`, `plain_of_unsigned?`), which is why a reader that looks
for the next mark finds the one of the grammar.
-/

namespace TrajectorySafety.LogText

open Text
open Number (InNumber isDigit float? unsigned? numeral? exponentPart? splitSign inNumber_of_isDigit)

/-! ## The grammar -/

/-- An interval: two finite numbers in order, a comma between them and brackets around them. -/
inductive IsInterval : List Char → Interval → Prop where
  | mk {low lo high hi : List Char} {i : Interval} (hlow : Padded lo low)
      (hlo : float? lo = some i.lo) (hhigh : Padded hi high) (hhi : float? hi = some i.hi)
      (hvalid : i.Valid) :
      IsInterval ('[' :: (low ++ ',' :: (high ++ [']']))) i

/-- One or more intervals, with a comma between neighbours. -/
inductive IsIntervals : List Char → List Interval → Prop where
  | single {cs : List Char} {i : Interval} (h : IsInterval cs i) : IsIntervals cs [i]
  | cons {cs before after rest : List Char} {i : Interval} {is : List Interval}
      (h : IsInterval cs i) (hbefore : Blank before) (hafter : Blank after)
      (hrest : IsIntervals rest is) :
      IsIntervals (cs ++ (before ++ ',' :: (after ++ rest))) (i :: is)

/-- A box: its intervals in brackets. -/
inductive IsBox : List Char → Box → Prop where
  | mk {inner core : List Char} {b : Box} (hinner : Padded core inner)
      (hcore : IsIntervals core b.intervals) : IsBox ('[' :: (inner ++ [']'])) b

/-- An entry: a time, a colon and a box. -/
inductive IsEntry : List Char → LogEntry → Prop where
  | mk {time digits before box : List Char} {e : LogEntry} (htime : Padded digits time)
      (hdigits : unsigned? digits = some e.time) (hbefore : Blank before)
      (hbox : IsBox box e.region) : IsEntry ('t' :: '=' :: (time ++ ':' :: (before ++ box))) e

/-- Lines that are blank or hold an entry, and the entries. -/
inductive IsEntries : List (List Char) → List LogEntry → Prop where
  | nil : IsEntries [] []
  | blank {line : List Char} {rest : List (List Char)} {es : List LogEntry} (hline : Blank line)
      (hrest : IsEntries rest es) : IsEntries (line :: rest) es
  | entry {line core : List Char} {e : LogEntry} {rest : List (List Char)} {es : List LogEntry}
      (hline : Padded core line) (hcore : IsEntry core e) (hrest : IsEntries rest es) :
      IsEntries (line :: rest) (e :: es)

/-- The text of a log with the given entries: they are the entries of its lines, there is one at
least, their boxes have one dimension, which is the one that is asked for, and their times increase
from 0 on. -/
structure IsLog (text : List Char) (asked : Option Nat) (es : List LogEntry) : Prop where
  entries : ∃ ls, SplitsInto text ls ∧ IsEntries ls es
  nonempty : es ≠ []
  dimension : ∀ e ∈ es, ∀ f ∈ es, e.region.dimension = f.region.dimension
  asked : ∀ d, asked = some d → ∀ e ∈ es, e.region.dimension = d
  start : ∀ e, es.head? = some e → e.time = 0
  increasing : es.Pairwise fun e f => e.time < f.time

/-! ## Marks

Colons, commas and brackets are the marks of an entry. None of them, and no white space, can stand
in a number, so that marks found by searching are the ones that the grammar puts there. -/

def isMark (c : Char) : Bool := c = ':' || c = ',' || c = '[' || c = ']'

/-- The marks of a text, in order. -/
def marks (cs : List Char) : List Char := cs.filter isMark

/-- The marks of an entry whose box has the given dimension. -/
def entryMarks (dimension : Nat) : List Char :=
  [':', '['] ++ [','].intercalate (List.replicate dimension ['[', ',', ']']) ++ [']']

/-- Neither white space nor a mark. -/
def Plain (c : Char) : Prop := isBlank c = false ∧ isMark c = false

instance (c : Char) : Decidable (Plain c) :=
  inferInstanceAs (Decidable (isBlank c = false ∧ isMark c = false))

theorem mark_cases {c : Char} (h : isMark c = true) : c = ':' ∨ c = ',' ∨ c = '[' ∨ c = ']' := by
  simpa [isMark, or_assoc] using h

theorem isMark_of_isBlank {c : Char} (h : isBlank c = true) : isMark c = false := by
  rw [Bool.eq_false_iff]
  intro hmark
  rcases mark_cases hmark with rfl | rfl | rfl | rfl <;> cases h

theorem plain_of_range {c : Char} (h : InNumber c ∨ (65 ≤ c.toNat ∧ c.toNat ≤ 90)) : Plain c := by
  have hmark : isMark c = false := by
    rw [Bool.eq_false_iff]
    intro hmark
    rcases mark_cases hmark with rfl | rfl | rfl | rfl <;> revert h <;> decide
  refine ⟨?_, hmark⟩
  simp only [InNumber, isBlank] at h ⊢
  generalize c.toNat = n at h
  simp only [Bool.or_eq_false_iff, Bool.and_eq_false_iff, decide_eq_false_iff_not,
    beq_eq_false_iff_ne]
  omega

theorem plain_of_isDigit {c : Char} (h : isDigit c = true) : Plain c :=
  plain_of_range (.inl (inNumber_of_isDigit h))

/-- A letter of a word in lower case, in either case. -/
theorem plain_of_toLower {c : Char} (h : Plain c.toLower) : Plain c := by
  by_cases hupper : c.val ≥ 'A'.val ∧ c.val ≤ 'Z'.val
  · refine plain_of_range (.inr ?_)
    have h1 := UInt32.le_iff_toNat_le.1 hupper.1
    have h2 := UInt32.le_iff_toNat_le.1 hupper.2
    exact ⟨h1, h2⟩
  · rwa [Char.toLower, dif_neg hupper] at h

theorem plain_of_digits {cs : List Char} (h : cs.all isDigit = true) : ∀ c ∈ cs, Plain c :=
  fun c hc => plain_of_isDigit (List.all_eq_true.1 h c hc)

/-- Digits in front do not matter. -/
theorem plain_of_dropWhile {cs : List Char} (h : ∀ c ∈ cs.dropWhile isDigit, Plain c) :
    ∀ c ∈ cs, Plain c := by
  intro c hc
  rw [← List.takeWhile_append_dropWhile (p := isDigit) (l := cs), List.mem_append] at hc
  rcases hc with hc | hc
  · exact plain_of_isDigit (List.mem_takeWhile_imp hc)
  · exact h c hc

/-- A sign in front does not matter. -/
theorem plain_of_splitSign {cs : List Char} (h : ∀ c ∈ (splitSign cs).2, Plain c) :
    ∀ c ∈ cs, Plain c := by
  unfold splitSign at h
  split at h
  · exact List.forall_mem_cons.2 ⟨by decide, h⟩
  · exact List.forall_mem_cons.2 ⟨by decide, h⟩
  · exact h

theorem plain_of_exponentPart? {cs : List Char} {e : Int} (h : exponentPart? cs = some e) :
    ∀ c ∈ cs, Plain c := by
  cases cs with
  | nil => simp
  | cons c rest =>
    rw [exponentPart?] at h
    split at h
    · next hmark =>
      have hc : Plain c := by rcases hmark with rfl | rfl <;> decide
      refine List.forall_mem_cons.2 ⟨hc, plain_of_splitSign ?_⟩
      generalize splitSign rest = signed at h ⊢
      obtain ⟨negative, ds⟩ := signed
      simp only at h ⊢
      split at h
      · cases h
      · next hds =>
        rw [Bool.not_eq_true, Bool.or_eq_false_iff, Bool.not_eq_false'] at hds
        exact plain_of_digits hds.2
    · cases h

theorem plain_of_numeral? {cs : List Char} {v : Nat × Int} (h : numeral? cs = some v) :
    ∀ c ∈ cs, Plain c := by
  refine plain_of_dropWhile ?_
  unfold numeral? at h
  simp only at h
  split at h
  · next after heq =>
    rw [heq]
    split at h
    · cases h
    · obtain ⟨e, he, -⟩ := Option.bind_eq_some_iff.1 h
      exact List.forall_mem_cons.2 ⟨by decide, plain_of_dropWhile (plain_of_exponentPart? he)⟩
  · split at h
    · cases h
    · obtain ⟨e, he, -⟩ := Option.bind_eq_some_iff.1 h
      exact plain_of_exponentPart? he

theorem plain_of_float? {cs : List Char} {x : Float} (h : float? cs = some x) :
    ∀ c ∈ cs, Plain c := by
  have hword : ∀ word : List Char, (∀ c ∈ word, Plain c) →
      (splitSign cs).2.map Char.toLower = word → ∀ c ∈ (splitSign cs).2, Plain c := by
    rintro word hword rfl c hc
    exact plain_of_toLower (hword c.toLower (List.mem_map_of_mem hc))
  refine plain_of_splitSign ?_
  unfold float? at h
  simp only at h
  split at h
  · next hinf =>
    rcases hinf with hinf | hinf
    · exact hword _ (by simp; decide) hinf
    · exact hword _ (by simp; decide) hinf
  · split at h
    · next hnan => exact hword _ (by simp; decide) hnan
    · obtain ⟨v, hv, -⟩ := Option.bind_eq_some_iff.1 h
      exact plain_of_numeral? hv

theorem isDigit_of_digitValue? {c : Char} {v : Nat} (h : Number.digitValue? 10 c = some v) :
    isDigit c = true := by
  unfold Number.digitValue? at h
  by_cases hc : '0' ≤ c ∧ c ≤ '9'
  · simpa [isDigit] using hc
  · simp only [hc, if_false] at h
    have hbig : ∀ w, ¬ w + 10 < 10 := by omega
    split at h
    · simp [hbig] at h
    · split at h
      · simp [hbig] at h
      · simp at h

theorem plain_of_digitsValue? {cs : List Char} {v n : Nat}
    (h : Number.digitsValue? 10 v cs = some n) : ∀ c ∈ cs, Plain c := by
  induction cs generalizing v with
  | nil => simp
  | cons c cs ih =>
    rw [Number.digitsValue?] at h
    obtain ⟨d, hd, hrest⟩ := Option.bind_eq_some_iff.1 h
    exact List.forall_mem_cons.2 ⟨plain_of_isDigit (isDigit_of_digitValue? hd), ih hrest⟩

theorem plain_of_unsigned? {cs : List Char} {n : Nat} (h : unsigned? cs = some n) :
    cs ≠ [] ∧ ∀ c ∈ cs, Plain c := by
  have hnatural : ∀ {ds : List Char} {m : Nat}, Number.natural? 10 ds = some m →
      ds ≠ [] ∧ ∀ c ∈ ds, Plain c := by
    intro ds m hds
    unfold Number.natural? at hds
    split at hds
    · cases hds
    · next hne => exact ⟨hne, plain_of_digitsValue? hds⟩
  obtain ⟨m, hm, -⟩ := Option.bind_eq_some_iff.1 h
  split at hm
  · exact ⟨by simp, List.forall_mem_cons.2 ⟨by decide, (hnatural hm).2⟩⟩
  · exact hnatural hm


theorem tight_of_plain {cs : List Char} (h : ∀ c ∈ cs, Plain c) : Tight cs :=
  ⟨fun c hc => (h c (List.mem_of_head? hc)).1, fun c hc => (h c (List.mem_of_getLast? hc)).1⟩

theorem trim_of_plain {core cs : List Char} (h : Padded core cs) (hcore : ∀ c ∈ core, Plain c) :
    trim cs = core := trim_of_padded h (tight_of_plain hcore)

theorem marks_blank {cs : List Char} (h : Blank cs) : marks cs = [] := by
  rw [marks, List.filter_eq_nil_iff]
  exact fun c hc => by simp [isMark_of_isBlank (h c hc)]

theorem marks_cons {c : Char} {cs : List Char} (h : isMark c = true) :
    marks (c :: cs) = c :: marks cs := List.filter_cons_of_pos h

theorem marks_append (cs ds : List Char) : marks (cs ++ ds) = marks cs ++ marks ds :=
  List.filter_append ..

/-- What has only white space around it has the marks of what is inside. -/
theorem marks_padded {core cs : List Char} (h : Padded core cs) : marks cs = marks core := by
  obtain ⟨before, after, hbefore, hafter, rfl⟩ := h
  rw [marks_append, marks_append, marks_blank hbefore, marks_blank hafter, List.nil_append,
    List.append_nil]

theorem marks_of_plain {cs : List Char} (h : ∀ c ∈ cs, Plain c) : marks cs = [] := by
  rw [marks, List.filter_eq_nil_iff]
  exact fun c hc => by simp [(h c hc).2]

theorem ne_of_marks {cs : List Char} (h : marks cs = []) {d : Char} (hd : isMark d = true) :
    ∀ c ∈ cs, c ≠ d := by
  rintro c hc rfl
  exact List.filter_eq_nil_iff.1 h c hc hd

end TrajectorySafety.LogText
