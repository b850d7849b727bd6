import TrajectorySafety.Log
import TrajectorySafety.Number.Reading
import TrajectorySafety.Text.Blank

/-!
The written form of a log: one entry per line, bounds with six decimal places.

    t=0: [[0.850000, 0.950000], [0.850000, 0.950000]]
    t=3: [[0.851200, 0.951200], [0.849700, 0.949700]]

`UncertaintyLog.text` writes a log and `UncertaintyLog.parse` reads one; blank lines are passed
over, and the first line that is not an entry, or does not fit the entries before it, is the error.
-/

namespace TrajectorySafety

open Text

/-- Decimal places of a written bound. -/
def boundPlaces : Nat := 6

/-- Items with a comma and a space between neighbours. -/
def commaSeparated (items : List String) : String := ", ".intercalate items

/-- The written form of an interval. -/
def Interval.line (i : Interval) : String :=
  s!"[{Number.fixed boundPlaces i.lo}, {Number.fixed boundPlaces i.hi}]"

/-- The written form of an entry, with its line end. -/
def LogEntry.line (e : LogEntry) : String :=
  s!"t={e.time}: [{commaSeparated (e.region.intervals.map Interval.line)}]\n"

/-- The written form of a log. -/
def UncertaintyLog.text (log : UncertaintyLog) : String :=
  String.join (log.entries.map LogEntry.line)

namespace LogText

/-- The fields between commas; a text without commas is one field. -/
def fields : List Char → List (List Char)
  | [] => [[]]
  | ',' :: rest => [] :: fields rest
  | c :: rest =>
    match fields rest with
    | [] => [[c]]
    | f :: fs => (c :: f) :: fs

/-- A bound: a finite number. -/
def bound (cs : List Char) : Except LineFault Float :=
  match Number.float? cs with
  | none => .error (.notNumeric (String.ofList cs))
  | some v => if v.isFinite then .ok v else .error (.notFinite (String.ofList cs))

/-- What stands between the brackets of an interval: two bounds in order. -/
def interval (cs : List Char) : Except LineFault Interval :=
  match (fields cs).map trim with
  | [low, high] => do
    let lo ← bound low
    let hi ← bound high
    (Interval.make lo hi).mapError .interval
  | _ => .error (.boundCount (String.ofList cs))

/-- One interval in brackets, and what follows it. -/
def bracketed (cs : List Char) : Except LineFault (Interval × List Char) :=
  match dropLeading? ['['] cs with
  | none => .error (.noOpening (String.ofList cs))
  | some body =>
    match splitOnce ']' body with
    | none => .error .unterminated
    | some (pair, tail) =>
      if pair.contains '[' then .error .nested
      else do
        let i ← interval pair
        return (i, trimStart tail)

theorem length_lt_of_splitOnce {sep : Char} {cs before after : List Char}
    (h : splitOnce sep cs = some (before, after)) : after.length < cs.length := by
  induction cs generalizing before after with
  | nil => simp [splitOnce] at h
  | cons c rest ih =>
    rw [splitOnce] at h
    split at h
    · simp only [Option.some.injEq, Prod.mk.injEq] at h
      simp [h.2]
    · obtain ⟨⟨b, a⟩, hr, heq⟩ := Option.map_eq_some_iff.1 h
      simp only [Prod.mk.injEq] at heq
      have := ih hr
      rw [← heq.2, List.length_cons]
      omega

theorem length_trimStart_le (cs : List Char) : (trimStart cs).length ≤ cs.length :=
  (List.dropWhile_sublist _).length_le

theorem length_lt_of_bracketed {cs tail : List Char} {i : Interval}
    (h : bracketed cs = .ok (i, tail)) : tail.length < cs.length := by
  unfold bracketed at h
  match cs with
  | [] => simp [dropLeading?] at h
  | c :: body =>
    simp only [dropLeading?] at h
    split at h
    · simp at h
    · rename_i inner hin
      have hb : inner = body := by
        split at hin
        · simpa using hin.symm
        · simp at hin
      subst hb
      split at h
      · simp at h
      · rename_i pair rest hs
        have h1 := length_lt_of_splitOnce hs
        have h2 := length_trimStart_le rest
        split at h
        · simp at h
        · cases hi : interval pair with
          | error e => rw [hi] at h; simp [bind, Except.bind] at h
          | ok j =>
            rw [hi] at h
            simp only [bind, Except.bind, pure, Except.pure, Except.ok.injEq, Prod.mk.injEq] at h
            rw [← h.2, List.length_cons]
            omega

/-- The further intervals up to the end of a box, each after a comma. -/
def furtherIntervals (cs : List Char) : Except LineFault (List Interval) :=
  match cs with
  | [] => .ok []
  | c :: rest =>
    if c = ',' then
      match h : bracketed (trimStart rest) with
      | .error fault => .error fault
      | .ok (i, tail) => do
        have : tail.length < rest.length + 1 :=
          Nat.lt_succ_of_lt
            (Nat.lt_of_lt_of_le (length_lt_of_bracketed h) (length_trimStart_le rest))
        let others ← furtherIntervals tail
        return i :: others
    else .error (.noComma (String.ofList (c :: rest)))
termination_by cs.length

/-- The intervals of a box. -/
def intervals (cs : List Char) : Except LineFault (List Interval) :=
  if cs.isEmpty then .ok []
  else do
    let (i, tail) ← bracketed cs
    let others ← furtherIntervals tail
    return i :: others

/-- What stands between an opening bracket in front and a closing bracket at the end. -/
def enclosed? : List Char → Option (List Char)
  | '[' :: rest => if rest.getLast? = some ']' then some rest.dropLast else none
  | _ => none

/-- A box: at least one interval, in brackets that balance. -/
def box (cs : List Char) : Except LineFault Box :=
  let opening := cs.count '['
  let closing := cs.count ']'
  if opening ≠ closing then .error (.brackets opening closing)
  else
    match enclosed? cs with
    | none => .error .notEnclosed
    | some inner => do
      let is ← intervals (trimStart inner)
      if is.isEmpty then .error .noIntervals else return ⟨is⟩

/-- A line: a time, a colon and a box. -/
def entry (line : List Char) : Except LineFault LogEntry :=
  match splitOnce ':' line with
  | none => .error .noColon
  | some (timePart, boxPart) =>
    match dropLeading? ['t', '='] (trim timePart) with
    | none => .error (.noTime (String.ofList (trim timePart)))
    | some digits =>
      match Number.unsigned? (trim digits) with
      | none => .error (.badTime (String.ofList (trim digits)))
      | some time => do
        let region ← box (trim boxPart)
        return ⟨region, time⟩

/-- Whether an entry fits after the entry before it, if there is one, and has the dimension that is
expected by then. -/
def follows (expected : Option Nat) (previous : Option LogEntry) (e : LogEntry) :
    Except LineFault Unit :=
  let dimension := e.region.dimension
  match expected.filter (· ≠ dimension) with
  | some d => .error (.dimension dimension d)
  | none =>
    match previous with
    | none => if e.time = 0 then .ok () else .error (.lateStart e.time)
    | some p => if p.time < e.time then .ok () else .error (.unordered e.time p.time)

/-- The entries of the lines from number `n` on, each fitting the one before it. -/
def entries : (n : Nat) → (expected : Option Nat) → (previous : Option LogEntry) →
    List (List Char) → Except Error (List LogEntry)
  | _, _, _, [] => .ok []
  | n, expected, previous, raw :: rest =>
    let line := trim raw
    if line.isEmpty then entries (n + 1) expected previous rest
    else do
      let e ← (entry line).mapError (.parse n)
      (follows expected previous e).mapError (.parse n)
      let others ← entries (n + 1) (some e.region.dimension) (some e) rest
      return e :: others

end LogText

/-- Reads a log. Every box has the given number of coordinates, or that of the first box if none is
given. -/
def UncertaintyLog.parse (text : String) (dimension : Option Nat) :
    Except Error UncertaintyLog := do
  let entries ← LogText.entries 1 dimension none (lines text.toList)
  if entries.isEmpty then .error (.parse 1 .noEntries)
  else (UncertaintyLog.ofEntries entries).mapError .config

end TrajectorySafety
