import TrajectorySafety.Proofs.Number.Order
import TrajectorySafety.Proofs.Success
import TrajectorySafety.Validity

/-!
Boxes, logs and the trajectories that agree with them, as conditions on coordinates and times.

A state lies in a box when it has the box's dimension and every coordinate lies in its interval
(`contains_iff`); a trajectory agrees with a log when it has a state in the box of every entry
(`admits_iff`). A sequence of entries has no fault when it starts at time 0, its times increase and
its boxes have one positive dimension (`fault?_eq_none_iff`).
-/

namespace TrajectorySafety

open Number

namespace Interval

instance (i : Interval) : Decidable i.Valid :=
  inferInstanceAs (Decidable (i.lo.isFinite = true ∧ i.hi.isFinite = true ∧ i.lo ≤ i.hi))

theorem make_eq_ok_iff (lo hi : Float) (i : Interval) :
    make lo hi = .ok i ↔ i = ⟨lo, hi⟩ ∧ i.Valid := by
  unfold make Valid
  by_cases hl : lo.isFinite = true
  · by_cases hh : hi.isFinite = true
    · have nl := isNaN_of_isFinite hl
      have nh := isNaN_of_isFinite hh
      by_cases hlt : hi < lo
      · simp only [hl, hh, hlt, Bool.not_true, Bool.or_self, Bool.false_eq_true, if_false, if_true,
          reduceCtorEq, false_iff, not_and]
        rintro rfl - -
        exact not_le_of_lt hlt
      · have hle := le_of_not_lt nl nh hlt
        simp only [hl, hh, hlt, Bool.not_true, Bool.or_self, Bool.false_eq_true, if_false,
          Except.ok.injEq]
        constructor
        · rintro rfl
          exact ⟨rfl, hl, hh, hle⟩
        · exact fun h => h.1.symm
    · simp only [hh, Bool.not_false, Bool.or_true, if_true, reduceCtorEq, false_iff, not_and]
      rintro rfl - h
      exact absurd h hh
  · simp only [hl, Bool.not_false, Bool.true_or, if_true, reduceCtorEq, false_iff, not_and]
    rintro rfl h
    exact absurd h hl

theorem contains_iff (i : Interval) (x : Float) : i.contains x = true ↔ i.lo ≤ x ∧ x ≤ i.hi := by
  simp [contains]

theorem isFinite_of_contains {i : Interval} {x : Float} (hi : i.Valid) (h : i.contains x = true) :
    x.isFinite = true := by
  rw [contains_iff] at h
  exact isFinite_of_between hi.1 hi.2.1 h.1 h.2

end Interval

namespace Box

theorem contains_iff (b : Box) (s : State) :
    b.contains s = true ↔ s.dimension = b.dimension ∧
      ∀ k i x, b.interval? k = some i → s.get? k = some x → i.contains x = true := by
  unfold contains firstOutside
  by_cases hd : s.dimension = b.dimension
  · simp only [hd, ne_eq, not_true, if_false, Option.isNone_iff_eq_none, List.findIdx?_eq_none_iff,
      Bool.not_eq_false', true_and]
    constructor
    · intro h k i x hi hx
      refine h (i, x) ?_
      rw [List.mem_iff_getElem?]
      exact ⟨k, List.getElem?_zip_eq_some.2 ⟨hi, hx⟩⟩
    · rintro h ⟨i, x⟩ hm
      obtain ⟨k, hk⟩ := List.mem_iff_getElem?.1 hm
      obtain ⟨hi, hx⟩ := List.getElem?_zip_eq_some.1 hk
      exact h k i x hi hx
  · simp [hd]

/-- Every interval of an accepted box has finite bounds in order. -/
theorem valid_of_ofBounds {bounds : List (Float × Float)} {b : Box} (h : ofBounds bounds = .ok b) :
    ∀ i ∈ b.intervals, i.Valid := by
  obtain ⟨is, his, rfl⟩ := map_eq_ok_iff.1 h
  intro i hi
  obtain ⟨k, hk, rfl⟩ := List.getElem_of_mem hi
  have hmade := forall₂_of_mapM_ok his
  have hmake := hmade.get (hmade.length_eq.symm ▸ hk) hk
  exact ((Interval.make_eq_ok_iff _ _ _).1 hmake).2

end Box

namespace LogEntry

theorem firstUnordered_eq_none_iff (es : List LogEntry) :
    firstUnordered es = none ↔ es.Pairwise fun a b => a.time < b.time := by
  induction es with
  | nil => simp [firstUnordered]
  | cons a es ih =>
    cases es with
    | nil => simp [firstUnordered]
    | cons b es =>
      rw [firstUnordered, List.pairwise_cons]
      by_cases h : b.time ≤ a.time
      · simp only [h, if_true, reduceCtorEq, List.mem_cons, forall_eq_or_imp, false_iff]
        omega
      · simp only [h, if_false]
        rw [ih, List.pairwise_cons]
        constructor
        · rintro ⟨hb, hp⟩
          refine ⟨?_, hb, hp⟩
          intro c hc
          rcases List.mem_cons.1 hc with rfl | hc
          · omega
          · have := hb c hc
            omega
        · exact fun hp => hp.2

/-- What it takes for a sequence of entries to be a log. -/
theorem fault?_eq_none_iff (first : LogEntry) (rest : List LogEntry) :
    fault? (first :: rest) = none ↔
      first.time = 0 ∧ first.region.dimension ≠ 0 ∧
      (first :: rest).Pairwise (fun a b => a.time < b.time) ∧
      ∀ e ∈ rest, e.region.dimension = first.region.dimension := by
  rw [← firstUnordered_eq_none_iff]
  simp only [fault?]
  by_cases ht : first.time = 0
  · by_cases hd : first.region.dimension = 0
    · simp [ht, hd]
    · cases hu : firstUnordered (first :: rest) with
      | some p => simp [ht, hd]
      | none =>
        cases hf : rest.find? fun e => decide (e.region.dimension ≠ first.region.dimension) with
        | some e =>
          have hm := List.mem_of_find?_eq_some hf
          have he := List.find?_some hf
          simp only [ht, hd, ne_eq, not_true, if_false, reduceCtorEq, false_iff, not_and]
          intro _ _ _ hall
          simp [hall e hm] at he
        | none =>
          simp only [ht, hd, ne_eq, not_true, if_false, true_iff, not_false_eq_true, true_and]
          simpa using hf
  · simp [ht]

end LogEntry

namespace UncertaintyLog

theorem ext_entries {log log' : UncertaintyLog} (h : log.entries = log'.entries) : log = log' := by
  obtain ⟨entries, faultless⟩ := log
  obtain rfl : entries = log'.entries := h
  rfl

/-- Entries give the log that consists of them. -/
theorem ofEntries_eq_ok_iff {es : List LogEntry} {log : UncertaintyLog} :
    ofEntries es = .ok log ↔ log.entries = es := by
  unfold ofEntries
  constructor
  · intro h
    split at h
    · cases h
    · cases h
      rfl
  · rintro rfl
    split
    · next fault hfault =>
      rw [log.faultless] at hfault
      cases hfault
    · rfl

theorem entries_eq_cons (log : UncertaintyLog) : log.entries = log.first :: log.entries.tail :=
  (List.cons_head_tail log.entries_ne_nil).symm

theorem first_mem (log : UncertaintyLog) : log.first ∈ log.entries := List.head_mem _

theorem faultless_first (log : UncertaintyLog) :
    log.first.time = 0 ∧ log.dimension ≠ 0 ∧
      log.entries.Pairwise (fun a b => a.time < b.time) ∧
      ∀ e ∈ log.entries.tail, e.region.dimension = log.dimension := by
  have h := log.faultless
  rw [log.entries_eq_cons, LogEntry.fault?_eq_none_iff] at h
  rw [← log.entries_eq_cons] at h
  exact h

theorem first_time (log : UncertaintyLog) : log.first.time = 0 := log.faultless_first.1

theorem dimension_of_mem {log : UncertaintyLog} {e : LogEntry} (he : e ∈ log.entries) :
    e.region.dimension = log.dimension := by
  rw [log.entries_eq_cons] at he
  rcases List.mem_cons.1 he with rfl | he
  · rfl
  · exact log.faultless_first.2.2.2 e he

/-- A trajectory agrees with a log when its state at every logged time lies in the logged box. -/
theorem admits_iff (log : UncertaintyLog) (t : Trajectory) :
    log.admits t = true ↔
      ∀ e ∈ log.entries, ∃ s, t.at? e.time = some s ∧ e.region.contains s = true := by
  rw [admits, Option.isNone_iff_eq_none, inconsistency?_eq_findSome?,
    List.findSome?_eq_none_iff]
  refine forall_congr' fun e => imp_congr_right fun _ => ?_
  unfold LogEntry.inconsistency? LogEntry.missedBy Box.contains
  cases t.at? e.time with
  | none => simp
  | some s => simp

theorem split_fst (log : UncertaintyLog) (ts : List Trajectory) :
    (log.split ts).1 = ts.filter log.admits := by
  rw [split, List.partition_eq_filter_filter]

end UncertaintyLog

end TrajectorySafety
