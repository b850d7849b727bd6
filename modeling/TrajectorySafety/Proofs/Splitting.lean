import Mathlib.Data.List.Basic

/-!
Lists that are split in two by a test.

`Interleaves xs ys l` says that `l` is made of `xs` and `ys`, each in its own order, and `SplitBy`
that the one are the elements that pass a test and the other those that fail it. There is one such
split of a list (`splitBy_iff`), the one that `List.partition` makes (`splitBy_partition`). An
easier test only moves elements from the failed part to the passed part (`SplitBy.sublist`). What
stands before the first failed element is the beginning of the passed part
(`Interleaves.first_right`).
-/

namespace TrajectorySafety

/-- The list `l` consists of the elements of `xs` and those of `ys`, each in their order. -/
inductive Interleaves {α : Type} : (xs ys l : List α) → Prop
  | nil : Interleaves [] [] []
  | left {a : α} {xs ys l : List α} : Interleaves xs ys l → Interleaves (a :: xs) ys (a :: l)
  | right {a : α} {xs ys l : List α} : Interleaves xs ys l → Interleaves xs (a :: ys) (a :: l)

/-- The elements of a list that pass a test and those that fail it, each in their order. -/
structure SplitBy {α : Type} (test : α → Bool) (passed failed l : List α) : Prop where
  interleaves : Interleaves passed failed l
  passes : ∀ a ∈ passed, test a = true
  fails : ∀ a ∈ failed, test a = false

section
variable {α : Type} {test easier : α → Bool} {xs ys l passed failed : List α}

namespace Interleaves

theorem perm (h : Interleaves xs ys l) : (xs ++ ys).Perm l := by
  induction h with
  | nil => exact .nil
  | left _ ih => exact ih.cons _
  | right _ ih => exact List.perm_middle.trans (ih.cons _)

theorem sublist_left (h : Interleaves xs ys l) : xs.Sublist l := by
  induction h with
  | nil => exact .slnil
  | left _ ih => exact ih.cons_cons _
  | right _ ih => exact ih.cons _

/-- What stands before the first element of the second list is the beginning of the first. -/
theorem first_right {y : α} (h : Interleaves xs (y :: ys) l) :
    ∃ before later rest, xs = before ++ later ∧ l = before ++ y :: rest ∧
      Interleaves later ys rest := by
  generalize hfailed : y :: ys = failed at h
  induction h with
  | nil => cases hfailed
  | @left a xs _ l _ ih =>
    obtain ⟨before, later, rest, rfl, rfl, hrest⟩ := ih hfailed
    exact ⟨a :: before, later, rest, rfl, rfl, hrest⟩
  | @right a xs _ l h _ =>
    cases hfailed
    exact ⟨[], xs, l, rfl, rfl, h⟩

end Interleaves

theorem filter_of_splitBy (h : SplitBy test passed failed l) :
    passed = l.filter test ∧ failed = l.filter fun a => !test a := by
  obtain ⟨h, hpassed, hfailed⟩ := h
  induction h with
  | nil => exact ⟨rfl, rfl⟩
  | left _ ih =>
    obtain ⟨ha, hpassed⟩ := List.forall_mem_cons.1 hpassed
    obtain ⟨rfl, rfl⟩ := ih hpassed hfailed
    simp [ha]
  | right _ ih =>
    obtain ⟨ha, hfailed⟩ := List.forall_mem_cons.1 hfailed
    obtain ⟨rfl, rfl⟩ := ih hpassed hfailed
    simp [ha]

theorem interleaves_filter (test : α → Bool) (l : List α) :
    Interleaves (l.filter test) (l.filter fun a => !test a) l := by
  induction l with
  | nil => exact .nil
  | cons a l ih =>
    cases ha : test a with
    | true => simpa [ha] using ih.left
    | false => simpa [ha] using ih.right

/-- A test splits a list in one way. -/
theorem splitBy_iff :
    SplitBy test passed failed l ↔ passed = l.filter test ∧ failed = l.filter fun a => !test a := by
  constructor
  · exact filter_of_splitBy
  · rintro ⟨rfl, rfl⟩
    refine ⟨interleaves_filter test l, fun a ha => (List.mem_filter.1 ha).2, fun a ha => ?_⟩
    simpa using (List.mem_filter.1 ha).2

theorem splitBy_partition (test : α → Bool) (l : List α) :
    SplitBy test (l.partition test).1 (l.partition test).2 l := by
  rw [splitBy_iff, List.partition_eq_filter_filter]
  exact ⟨rfl, rfl⟩

/-- A test that is easier to pass is passed by more elements and failed by fewer. -/
theorem SplitBy.sublist {passed' failed' : List α} (h : SplitBy test passed failed l)
    (h' : SplitBy easier passed' failed' l) (himp : ∀ a, test a = true → easier a = true) :
    passed.Sublist passed' ∧ failed'.Sublist failed := by
  obtain ⟨rfl, rfl⟩ := splitBy_iff.1 h
  obtain ⟨rfl, rfl⟩ := splitBy_iff.1 h'
  refine ⟨List.monotone_filter_right l himp, List.monotone_filter_right l fun a ha => ?_⟩
  cases htest : test a with
  | false => rfl
  | true => simp [himp a htest] at ha

end

end TrajectorySafety
