import TrajectorySafety.Log.Text
import TrajectorySafety.Proofs.Log.Boxes
import TrajectorySafety.Proofs.Success
import TrajectorySafety.Proofs.Text.Pieces

/-!
A written log can be read.

Reading what was written of a log of proper intervals gives a log with the same times and
dimensions, whose bounds are the written decimals (`parse_text`). The proof follows the reader from
the inside out: a bound, an interval, a box, a line, the lines of a log.
-/

namespace TrajectorySafety

open Text
open Number (InNumber reread fixed digitChars)

/-! ## What is read back -/

/-- An interval with the bounds that are read back. -/
def Interval.reread (i : Interval) : Interval :=
  ⟨Number.reread boundPlaces i.lo, Number.reread boundPlaces i.hi⟩

/-- An entry with the bounds that are read back. -/
def LogEntry.reread (e : LogEntry) : LogEntry := ⟨⟨e.region.intervals.map Interval.reread⟩, e.time⟩

theorem Interval.valid_reread {i : Interval} (h : i.Valid) : i.reread.Valid :=
  ⟨Number.isFinite_reread _ h.1, Number.isFinite_reread _ h.2.1,
    Number.reread_le_reread _ h.1 h.2.1 h.2.2⟩

theorem LogEntry.dimension_reread (e : LogEntry) :
    e.reread.region.dimension = e.region.dimension := by
  simp [reread, Box.dimension]

/-! ## Intervals -/

/-- What stands between the brackets of an interval. -/
def Interval.inner (i : Interval) : List Char :=
  (fixed boundPlaces i.lo).toList ++ ',' :: ' ' :: (fixed boundPlaces i.hi).toList

theorem Interval.toList_line (i : Interval) : i.line.toList = '[' :: (i.inner ++ [']']) := by
  show ("[" ++ fixed boundPlaces i.lo ++ ", " ++ fixed boundPlaces i.hi ++ "]").toList = _
  simp [inner, String.toList_append]

theorem mem_written {x : Float} (hx : x.isFinite = true) :
    ∀ c ∈ (fixed boundPlaces x).toList, InNumber c :=
  (Number.fixed_inNumber (by decide) hx).2

theorem Interval.mem_inner {i : Interval} (h : i.Valid) {c : Char} (hc : c ∈ i.inner) :
    InNumber c ∨ c = ',' ∨ c = ' ' := by
  simp only [inner, List.mem_append, List.mem_cons] at hc
  rcases hc with hc | rfl | rfl | hc
  · exact .inl (mem_written h.1 c hc)
  · exact .inr (.inl rfl)
  · exact .inr (.inr rfl)
  · exact .inl (mem_written h.2.1 c hc)

namespace LogText

theorem fields_eq_singleton {cs : List Char} (h : ∀ c ∈ cs, c ≠ ',') : fields cs = [cs] := by
  induction cs with
  | nil => rfl
  | cons c cs ih =>
    rw [List.forall_mem_cons] at h
    rw [fields, ih h.2]
    exact h.1

theorem fields_append {field : List Char} (rest : List Char) (h : ∀ c ∈ field, c ≠ ',') :
    fields (field ++ ',' :: rest) = field :: fields rest := by
  induction field with
  | nil => rfl
  | cons c field ih =>
    rw [List.forall_mem_cons] at h
    rw [List.cons_append, fields, ih h.2]
    exact h.1

theorem ne_of_inNumber {c d : Char} (h : InNumber c) (hd : ¬ InNumber d) : c ≠ d := by
  rintro rfl
  exact hd h

theorem bound_fixed {x : Float} (hx : x.isFinite = true) :
    bound (fixed boundPlaces x).toList = .ok (reread boundPlaces x) := by
  unfold bound
  rw [Number.float?_fixed (by decide) (by decide) hx]
  simp [Number.isFinite_reread _ hx]

theorem interval_inner {i : Interval} (h : i.Valid) : interval i.inner = .ok i.reread := by
  have hlo := mem_written h.1
  have hhi := mem_written h.2.1
  have hfields : (fields i.inner).map trim =
      [(fixed boundPlaces i.lo).toList, (fixed boundPlaces i.hi).toList] := by
    unfold Interval.inner
    rw [fields_append _ fun c hc => ne_of_inNumber (hlo c hc) (by decide), fields_eq_singleton]
    · rw [List.map_cons, List.map_singleton, trim_of_inNumber hlo,
        trim_space (trim_of_inNumber hhi)]
    · rw [List.forall_mem_cons]
      exact ⟨by decide, fun c hc => ne_of_inNumber (hhi c hc) (by decide)⟩
  have hmake := (Interval.make_eq_ok_iff _ _ i.reread).2 ⟨rfl, Interval.valid_reread h⟩
  unfold interval
  rw [hfields]
  simp only [bound_fixed h.1, bound_fixed h.2.1]
  show (Interval.make (reread boundPlaces i.lo) (reread boundPlaces i.hi)).mapError _ = _
  rw [hmake]
  rfl

theorem bracketed_line {i : Interval} (h : i.Valid) (tail : List Char) :
    bracketed (i.line.toList ++ tail) = .ok (i.reread, trimStart tail) := by
  have hmem : ∀ d, ¬ InNumber d → d ≠ ',' → d ≠ ' ' → ∀ c ∈ i.inner, c ≠ d := by
    rintro d h1 h2 h3 c hc rfl
    rcases Interval.mem_inner h hc with hc | hc | hc
    · exact h1 hc
    · exact h2 hc
    · exact h3 hc
  have hlead : dropLeading? ['['] (i.line.toList ++ tail) = some (i.inner ++ ']' :: tail) := by
    rw [Interval.toList_line]
    simp [dropLeading?]
  have hnested : i.inner.contains '[' = false := by
    rw [List.contains_eq_any_beq, List.any_eq_false]
    intro c hc
    simpa using (hmem '[' (by decide) (by decide) (by decide) c hc).symm
  unfold bracketed
  rw [hlead]
  simp only
  rw [splitOnce_append tail (hmem ']' (by decide) (by decide) (by decide))]
  simp only [hnested, Bool.false_eq_true, if_false, interval_inner h]
  rfl

/-- The further intervals of a box as they are written. -/
def further (is : List Interval) : List Char := is.flatMap fun i => ',' :: ' ' :: i.line.toList

theorem trimStart_further (is : List Interval) : trimStart (further is) = further is := by
  cases is with
  | nil => rfl
  | cons i is => exact trimStart_cons _ rfl

theorem furtherIntervals_further {is : List Interval} (h : ∀ i ∈ is, i.Valid) :
    furtherIntervals (further is) = .ok (is.map Interval.reread) := by
  induction is with
  | nil => rw [further, List.flatMap_nil, furtherIntervals]; rfl
  | cons i is ih =>
    rw [List.forall_mem_cons] at h
    have hrest : bracketed (trimStart (' ' :: (i.line.toList ++ further is))) =
        .ok (i.reread, further is) := by
      rw [trimStart_space, Interval.toList_line, List.cons_append, trimStart_cons _ rfl,
        ← List.cons_append, ← Interval.toList_line, bracketed_line h.1, trimStart_further]
    have hcons : further (i :: is) = ',' :: ' ' :: (i.line.toList ++ further is) := rfl
    rw [hcons, furtherIntervals]
    simp only [if_true]
    split
    · next fault heq =>
      rw [hrest] at heq
      cases heq
    · next j tail heq =>
      rw [hrest] at heq
      cases heq
      rw [ih h.2]
      rfl

end LogText

/-! ## Boxes -/

/-- What stands between the brackets of a box. -/
def Box.inner (b : Box) : List Char :=
  (commaSeparated (b.intervals.map Interval.line)).toList

theorem Box.inner_cons (i : Interval) (is : List Interval) :
    (⟨i :: is⟩ : Box).inner = i.line.toList ++ LogText.further is := by
  unfold inner commaSeparated
  rw [String.toList_intercalate]
  induction is generalizing i with
  | nil => simp [LogText.further]
  | cons j is ih =>
    simp only [List.map_cons] at ih ⊢
    rw [List.intercalate_cons_cons, ih j]
    simp [LogText.further]

namespace LogText

theorem count_line {i : Interval} (h : i.Valid) {d : Char} (hd : d = '[' ∨ d = ']') :
    i.line.toList.count d = 1 := by
  have hzero : i.inner.count d = 0 := by
    rw [List.count_eq_zero]
    intro hc
    rcases hd with rfl | rfl <;> rcases Interval.mem_inner h hc with hc | hc | hc <;>
      revert hc <;> decide
  rw [Interval.toList_line, List.count_cons, List.count_append, hzero]
  rcases hd with rfl | rfl <;> rfl

theorem count_further {is : List Interval} (h : ∀ i ∈ is, i.Valid) {d : Char}
    (hd : d = '[' ∨ d = ']') : (further is).count d = is.length := by
  induction is with
  | nil => rfl
  | cons i is ih =>
    rw [List.forall_mem_cons] at h
    have hcons : further (i :: is) = [',', ' '] ++ (i.line.toList ++ further is) := rfl
    have hlead : [',', ' '].count d = 0 := by rcases hd with rfl | rfl <;> rfl
    rw [hcons, List.count_append, List.count_append, hlead, count_line h.1 hd, ih h.2,
      List.length_cons]
    omega

/-- A box is read as it was written, if it has intervals. -/
theorem box_inner {b : Box} (h : ∀ i ∈ b.intervals, i.Valid) (hb : b.dimension ≠ 0) :
    box ('[' :: (b.inner ++ [']'])) = .ok ⟨b.intervals.map Interval.reread⟩ := by
  obtain ⟨is⟩ := b
  cases is with
  | nil => exact absurd rfl hb
  | cons i is =>
    rw [List.forall_mem_cons] at h
    have hcount : ∀ {d : Char}, d = '[' ∨ d = ']' →
        ('[' :: ((⟨i :: is⟩ : Box).inner ++ [']'])).count d = is.length + 2 := by
      intro d hd
      rw [List.count_cons, List.count_append, Box.inner_cons, List.count_append,
        count_line h.1 hd, count_further h.2 hd]
      rcases hd with rfl | rfl <;> simp <;> omega
    have henclosed : enclosed? ('[' :: ((⟨i :: is⟩ : Box).inner ++ [']'])) =
        some (⟨i :: is⟩ : Box).inner := by
      simp [enclosed?]
    have hstart : trimStart (⟨i :: is⟩ : Box).inner = i.line.toList ++ further is := by
      rw [Box.inner_cons, Interval.toList_line, List.cons_append, trimStart_cons _ rfl]
    have hintervals : intervals (i.line.toList ++ further is) =
        .ok (i.reread :: is.map Interval.reread) := by
      unfold intervals
      rw [if_neg (by simp [Interval.toList_line]), bracketed_line h.1, trimStart_further]
      simp only [bind, Except.bind, furtherIntervals_further h.2]
      rfl
    unfold box
    simp only [hcount (.inl rfl), hcount (.inr rfl), ne_eq, not_true, if_false, henclosed, hstart,
      hintervals]
    rfl

end LogText

/-! ## Times -/

namespace Number

theorem digitValue?_of_isDigit {c : Char} (h : isDigit c = true) :
    digitValue? 10 c = some (c.toNat - '0'.toNat) := by
  have hle := inNumber_of_isDigit h
  simp only [isDigit, Bool.and_eq_true, decide_eq_true_eq] at h
  have hzero : '0'.toNat = 48 := rfl
  unfold InNumber at hle
  unfold digitValue?
  simp only [h, and_self, if_true]
  rw [if_pos (by omega)]

theorem digitsValue?_of_isDigit {cs : List Char} (h : ∀ c ∈ cs, isDigit c = true) (v : Nat) :
    digitsValue? 10 v cs = some (Nat.ofDigitChars 10 cs v) := by
  induction cs generalizing v with
  | nil => rfl
  | cons c cs ih =>
    rw [List.forall_mem_cons] at h
    rw [digitsValue?, digitValue?_of_isDigit h.1, Nat.ofDigitChars_cons, Nat.mul_comm 10]
    exact ih h.2 _

theorem digitChars_ne_nil (n : Nat) : digitChars n ≠ [] := by
  intro h
  have : 0 < (digitChars n).length := Nat.length_toDigits_pos
  rw [h] at this
  exact absurd this (by simp)

theorem unsigned?_digitChars {n : Nat} (h : n ≤ wordLimit) : unsigned? (digitChars n) = some n := by
  have hd : ∀ c ∈ digitChars n, isDigit c = true := fun c => isDigit_of_mem_digitChars
  have hvalue : natural? 10 (digitChars n) = some n := by
    rw [natural?, digitsValue?_of_isDigit hd]
    · exact congrArg some (Nat.ofDigitChars_toDigits (by decide) (by decide))
    · exact digitChars_ne_nil n
  unfold unsigned?
  split
  · next rest hplus => exact absurd (hd '+' (by simp [hplus])) (by decide)
  · rw [hvalue]
    simp [h]

end Number

/-! ## Lines -/

/-- An entry as it is written, without its line end. -/
def LogEntry.chars (e : LogEntry) : List Char :=
  't' :: '=' :: (digitChars e.time ++ ':' :: ' ' :: '[' :: (e.region.inner ++ [']']))

theorem LogEntry.toList_line (e : LogEntry) : e.line.toList = e.chars ++ ['\n'] := by
  show ("t=" ++ e.time.repr ++ ": [" ++ commaSeparated (e.region.intervals.map Interval.line) ++
    "]\n").toList = _
  simp [chars, Box.inner, digitChars, String.toList_append, Nat.toList_repr]

theorem UncertaintyLog.toList_text (log : UncertaintyLog) :
    log.text.toList = log.entries.flatMap fun e => e.chars ++ ['\n'] := by
  unfold text
  rw [String.toList_join, List.flatMap_map]
  simp only [LogEntry.toList_line]

theorem Box.mem_inner {b : Box} (h : ∀ i ∈ b.intervals, i.Valid) {c : Char} (hc : c ∈ b.inner) :
    InNumber c ∨ c = ',' ∨ c = ' ' ∨ c = '[' ∨ c = ']' := by
  have hline : ∀ i ∈ b.intervals, c ∈ i.line.toList →
      InNumber c ∨ c = ',' ∨ c = ' ' ∨ c = '[' ∨ c = ']' := by
    intro i hi hc
    rw [Interval.toList_line] at hc
    simp only [List.mem_cons, List.mem_append, List.not_mem_nil, or_false] at hc
    rcases hc with hc | hc | hc
    · exact .inr (.inr (.inr (.inl hc)))
    · rcases Interval.mem_inner (h i hi) hc with hc | hc | hc
      · exact .inl hc
      · exact .inr (.inl hc)
      · exact .inr (.inr (.inl hc))
    · exact .inr (.inr (.inr (.inr hc)))
  obtain ⟨is⟩ := b
  cases is with
  | nil => exact absurd hc (by simp [inner, commaSeparated])
  | cons i is =>
    rw [inner_cons, List.mem_append] at hc
    rcases hc with hc | hc
    · exact hline i (by simp) hc
    · obtain ⟨j, hj, hc⟩ := List.mem_flatMap.1 hc
      rcases List.mem_cons.1 hc with hc | hc
      · exact .inr (.inl hc)
      · rcases List.mem_cons.1 hc with hc | hc
        · exact .inr (.inr (.inl hc))
        · exact hline j (by simp [hj]) hc

namespace LogText

theorem trim_enclosed (cs : List Char) : trim ('[' :: (cs ++ [']'])) = '[' :: (cs ++ [']']) := by
  refine trim_eq_self ?_ ?_
  · intro c hc
    cases hc
    rfl
  · intro c hc
    rw [← List.cons_append, List.getLast?_concat] at hc
    cases hc
    rfl

/-- A line is read as it was written, if its time fits a word. -/
theorem entry_chars {e : LogEntry} (h : ∀ i ∈ e.region.intervals, i.Valid)
    (hb : e.region.dimension ≠ 0) (ht : e.time ≤ Number.wordLimit) :
    entry e.chars = .ok e.reread := by
  have hdigits : ∀ c ∈ digitChars e.time, InNumber c :=
    fun c hc => Number.inNumber_of_isDigit (Number.isDigit_of_mem_digitChars hc)
  have hsplit : splitOnce ':' e.chars =
      some ('t' :: '=' :: digitChars e.time, ' ' :: '[' :: (e.region.inner ++ [']'])) := by
    have hcolon : ∀ c ∈ 't' :: '=' :: digitChars e.time, c ≠ ':' := by
      simp only [List.forall_mem_cons]
      exact ⟨by decide, by decide, fun c hc => ne_of_inNumber (hdigits c hc) (by decide)⟩
    exact splitOnce_append _ hcolon
  have htrim : trim ('t' :: '=' :: digitChars e.time) = 't' :: '=' :: digitChars e.time := by
    refine trim_eq_self ?_ ?_
    · intro c hc
      cases hc
      rfl
    · intro c hc
      have hne := Number.digitChars_ne_nil e.time
      rw [List.getLast?_cons_cons, List.getLast?_cons, List.getLast?_eq_some_getLast hne] at hc
      cases hc
      exact isBlank_of_inNumber (hdigits _ (List.getLast_mem hne))
  unfold entry
  rw [hsplit]
  simp only
  rw [htrim]
  simp only [dropLeading?, if_true, trim_of_inNumber hdigits, Number.unsigned?_digitChars ht,
    trim_space (trim_enclosed e.region.inner), box_inner h hb]
  rfl

end LogText

/-! ## Logs -/

theorem LogEntry.chars_ends (e : LogEntry) :
    ∃ front, e.chars = front ++ [']'] ∧ e.chars.head? = some 't' := by
  refine ⟨'t' :: '=' :: (digitChars e.time ++ ':' :: ' ' :: '[' :: e.region.inner), ?_, rfl⟩
  simp [chars]

theorem LogEntry.newline_not_mem_chars {e : LogEntry} (h : ∀ i ∈ e.region.intervals, i.Valid) :
    ∀ c ∈ e.chars, c ≠ '\n' := by
  rintro c hc rfl
  simp only [chars, List.mem_cons, List.mem_append, List.not_mem_nil, or_false] at hc
  rcases hc with hc | hc | hc | hc | hc | hc | hc | hc
  · exact absurd hc (by decide)
  · exact absurd hc (by decide)
  · exact absurd (Number.inNumber_of_isDigit (Number.isDigit_of_mem_digitChars hc)) (by decide)
  · exact absurd hc (by decide)
  · exact absurd hc (by decide)
  · exact absurd hc (by decide)
  · rcases Box.mem_inner h hc with hc | hc | hc | hc | hc <;> exact absurd hc (by decide)
  · exact absurd hc (by decide)

theorem LogEntry.trim_chars (e : LogEntry) : trim e.chars = e.chars := by
  obtain ⟨front, hfront, hhead⟩ := e.chars_ends
  refine trim_eq_self ?_ ?_
  · intro c hc
    rw [hhead] at hc
    cases hc
    rfl
  · intro c hc
    rw [hfront, List.getLast?_concat] at hc
    cases hc
    rfl

theorem lines_text {es : List LogEntry} (h : ∀ e ∈ es, ∀ i ∈ e.region.intervals, i.Valid) :
    lines (es.flatMap fun e => e.chars ++ ['\n']) = es.map LogEntry.chars := by
  induction es with
  | nil => rfl
  | cons e es ih =>
    rw [List.forall_mem_cons] at h
    obtain ⟨front, hfront, -⟩ := e.chars_ends
    have hnewline := LogEntry.newline_not_mem_chars h.1
    rw [hfront] at hnewline
    rw [List.flatMap_cons, List.append_assoc, List.singleton_append, hfront,
      lines_concat front _ (by decide) hnewline, ih h.2, ← hfront, List.map_cons]

namespace LogText

/-- Entries that can follow the ones read so far: in boxes of the expected dimension, at increasing
times, the first of them at time 0. -/
def Continues (dimension : Nat) (previous : Option LogEntry) (es : List LogEntry) : Prop :=
  (∀ e ∈ es, e.region.dimension = dimension) ∧ es.Pairwise (fun a b => a.time < b.time) ∧
    ∀ e, es.head? = some e →
      match previous with
      | none => e.time = 0
      | some p => p.time < e.time

theorem follows_eq_ok_iff {asked : Option Nat} {previous : Option LogEntry} {e : LogEntry} :
    follows asked previous e = .ok () ↔ (∀ d, asked = some d → d = e.region.dimension) ∧
      (previous = none → e.time = 0) ∧ ∀ p, previous = some p → p.time < e.time := by
  unfold follows
  simp only
  cases asked with
  | none => cases previous <;> simp
  | some d =>
    by_cases hd : d = e.region.dimension
    · have hfilter : (some d).filter (fun d => decide (d ≠ e.region.dimension)) = none := by
        simp [Option.filter, hd]
      rw [hfilter]
      cases previous <;> simp [hd]
    · have hfilter : (some d).filter (fun d => decide (d ≠ e.region.dimension)) = some d := by
        simp [Option.filter, hd]
      rw [hfilter]
      simp [hd]

theorem follows_reread {e : LogEntry} {expected : Option Nat} {previous : Option LogEntry}
    (hexpected : ∀ d, expected = some d → d = e.region.dimension)
    (htime : match previous with
      | none => e.time = 0
      | some p => p.time < e.time) : follows expected previous e.reread = .ok () := by
  rw [follows_eq_ok_iff]
  refine ⟨fun d hd => (hexpected d hd).trans e.dimension_reread.symm, ?_, ?_⟩
  · rintro rfl
    exact htime
  · rintro p rfl
    exact htime

theorem entries_chars {es : List LogEntry} {dimension : Nat} {expected : Option Nat}
    {previous : Option LogEntry} (n : Nat) (hd : dimension ≠ 0)
    (hexpected : ∀ d, expected = some d → d = dimension)
    (hes : Continues dimension previous es)
    (hvalid : ∀ e ∈ es, ∀ i ∈ e.region.intervals, i.Valid)
    (htime : ∀ e ∈ es, e.time ≤ Number.wordLimit) :
    entries n expected previous (es.map LogEntry.chars) = .ok (es.map LogEntry.reread) := by
  induction es generalizing n expected previous with
  | nil => rfl
  | cons e es ih =>
    obtain ⟨hdims, htimes, hfirst⟩ := hes
    rw [List.forall_mem_cons] at hdims hvalid htime
    obtain ⟨hlater, htimes⟩ := List.pairwise_cons.1 htimes
    obtain ⟨front, hfront, -⟩ := e.chars_ends
    have hentry := entry_chars hvalid.1 (hdims.1 ▸ hd) htime.1
    have hfollows := follows_reread (fun d hd => (hexpected d hd).trans hdims.1.symm) (hfirst e rfl)
    have hdimension : ∀ d, some e.reread.region.dimension = some d → d = dimension := by
      intro d hd
      rw [← Option.some.inj hd, LogEntry.dimension_reread, hdims.1]
    have hnext : Continues dimension (some e.reread) es :=
      ⟨hdims.2, htimes, fun e' he' => hlater e' (List.mem_of_head? he')⟩
    have hrest := ih (n + 1) hdimension hnext hvalid.2 htime.2
    rw [List.map_cons, entries]
    simp only [e.trim_chars]
    rw [if_neg (by rw [hfront]; simp), hentry]
    simp only [Except.mapError, bind, Except.bind, hfollows, hrest, pure, Except.pure,
      List.map_cons]

end LogText

/-- Reading what was written of a log of proper intervals, at times that fit a word, gives the log
with its bounds read back. -/
theorem parse_text {log : UncertaintyLog} {expected : Option Nat}
    (hvalid : ∀ e ∈ log.entries, ∀ i ∈ e.region.intervals, i.Valid)
    (htime : ∀ e ∈ log.entries, e.time ≤ Number.wordLimit)
    (hexpected : ∀ d, expected = some d → d = log.dimension) :
    ∃ read, UncertaintyLog.parse log.text expected = .ok read ∧
      read.entries = log.entries.map LogEntry.reread := by
  obtain ⟨hzero, hdim, htimes, -⟩ := log.faultless_first
  have hcontinues : LogText.Continues log.dimension none log.entries := by
    refine ⟨fun e he => UncertaintyLog.dimension_of_mem he, htimes, fun e he => ?_⟩
    rw [log.entries_eq_cons] at he
    cases he
    exact hzero
  have hentries := LogText.entries_chars 1 hdim hexpected hcontinues hvalid htime
  have hfault : LogEntry.fault? (log.entries.map LogEntry.reread) = none := by
    have h := log.faultless
    rw [log.entries_eq_cons] at h ⊢
    rw [LogEntry.fault?_eq_none_iff] at h
    rw [List.map_cons, LogEntry.fault?_eq_none_iff, ← List.map_cons, List.pairwise_map]
    refine ⟨h.1, ?_, h.2.2.1, ?_⟩
    · rw [LogEntry.dimension_reread]
      exact h.2.1
    · intro e he
      obtain ⟨e', he', rfl⟩ := List.mem_map.1 he
      rw [LogEntry.dimension_reread, LogEntry.dimension_reread]
      exact h.2.2.2 e' he'
  refine ⟨⟨log.entries.map LogEntry.reread, hfault⟩, ?_, rfl⟩
  have hne : (log.entries.map LogEntry.reread).isEmpty = false := by
    simpa using log.entries_ne_nil
  unfold UncertaintyLog.parse
  rw [UncertaintyLog.toList_text, lines_text hvalid]
  simp only [hentries, bind, Except.bind, hne, Bool.false_eq_true, if_false]
  exact mapError_eq_ok_iff.2 (UncertaintyLog.ofEntries_eq_ok_iff.2 rfl)

/-- A log that was read back has the dimension and the times of the one that was written. -/
theorem UncertaintyLog.shape_of_reread {log read : UncertaintyLog}
    (h : read.entries = log.entries.map LogEntry.reread) :
    read.dimension = log.dimension ∧ read.maxTime = log.maxTime := by
  constructor
  · simp only [dimension, first, h, List.head_map]
    exact LogEntry.dimension_reread _
  · simp only [maxTime, h, List.getLast_map]
    rfl

end TrajectorySafety
