import Mathlib.Data.List.Forall2
import TrajectorySafety.Error

/-!
What a computation that succeeds has done before: each statement takes one step off a successful
`Except` computation, so that functions written in steps are inverted step by step. A pass over a
list that can fail has succeeded at every element.
-/

namespace TrajectorySafety

variable {ε ε' α β γ : Type}

theorem bind_eq_ok_iff {x : Except ε α} {f : α → Except ε β} {b : β} :
    x >>= f = .ok b ↔ ∃ a, x = .ok a ∧ f a = .ok b := by
  cases x with
  | error err => simp [bind, Except.bind]
  | ok a => simp [bind, Except.bind]

theorem mapError_eq_ok_iff {g : ε → ε'} {x : Except ε α} {a : α} :
    x.mapError g = .ok a ↔ x = .ok a := by
  cases x with
  | error err => exact ⟨fun h => (nomatch h), fun h => (nomatch h)⟩
  | ok b =>
    constructor
    · intro h
      cases h
      rfl
    · intro h
      cases h
      rfl

theorem map_eq_ok_iff {f : α → β} {x : Except ε α} {b : β} :
    f <$> x = .ok b ↔ ∃ a, x = .ok a ∧ f a = b := by
  cases x <;> simp [Functor.map, Except.map]

/-- A value that a computation is seen to end with. -/
theorem exists_ok_of_any {x : Except ε α} {p : α → Bool} (h : x.toOption.any p = true) :
    ∃ a, x = .ok a ∧ p a = true := by
  cases x with
  | error err => cases h
  | ok a => exact ⟨a, rfl, h⟩

/-- A step that is taken under a condition only. -/
theorem ok_of_when {p : Prop} [Decidable p] {x : Except ε PUnit} {rest : Except ε α} {a : α}
    (h : (if p then x >>= fun _ => rest else rest) = .ok a) :
    (p → x = .ok ⟨⟩) ∧ rest = .ok a := by
  by_cases hp : p
  · rw [if_pos hp] at h
    obtain ⟨u, hx, hrest⟩ := bind_eq_ok_iff.1 h
    exact ⟨fun _ => hx, hrest⟩
  · rw [if_neg hp] at h
    exact ⟨fun hn => absurd hn hp, h⟩

/-- A condition that is refused. -/
theorem ok_of_refuse {p : Prop} [Decidable p] {fault : ε} {rest : Except ε α} {a : α}
    (h : (if p then (throw fault : Except ε PUnit) >>= fun _ => rest else rest) = .ok a) :
    ¬p ∧ rest = .ok a := by
  obtain ⟨hthrow, hrest⟩ := ok_of_when h
  exact ⟨fun hp => (nomatch hthrow hp), hrest⟩

/-! ## Passes over lists -/

theorem mapM_cons_eq (f : α → Option β) (a : α) (l : List α) :
    (a :: l).mapM f = (f a).bind fun b => (l.mapM f).map (b :: ·) := by
  rw [List.mapM_cons]
  cases f a with
  | none => rfl
  | some b =>
    cases l.mapM f with
    | none => rfl
    | some bs => rfl

theorem mapM_eq_some_iff {f : α → Option β} {l : List α} {bs : List β} :
    l.mapM f = some bs ↔ List.Forall₂ (fun a b => f a = some b) l bs := by
  induction l generalizing bs with
  | nil =>
    rw [List.mapM_nil, List.forall₂_nil_left_iff]
    exact Option.some_inj.trans eq_comm
  | cons a l ih =>
    rw [mapM_cons_eq, List.forall₂_cons_left_iff]
    simp only [Option.bind_eq_some_iff, Option.map_eq_some_iff, ih]
    constructor
    · rintro ⟨b, hb, rest, hrest, rfl⟩
      exact ⟨b, rest, hb, hrest, rfl⟩
    · rintro ⟨b, rest, hb, hrest, rfl⟩
      exact ⟨b, hb, rest, hrest, rfl⟩

theorem mapM_eq_none_iff {f : α → Option β} {l : List α} :
    l.mapM f = none ↔ ∃ a ∈ l, f a = none := by
  induction l with
  | nil => simp
  | cons a l ih =>
    rw [mapM_cons_eq, List.exists_mem_cons_iff, ← ih]
    cases f a with
    | none => simp
    | some b => simp

theorem forall₂_of_mapM_ok {f : α → Except ε β} {l : List α} {bs : List β}
    (h : l.mapM f = .ok bs) : List.Forall₂ (fun a b => f a = .ok b) l bs := by
  induction l generalizing bs with
  | nil =>
    cases h
    exact .nil
  | cons a l ih =>
    rw [List.mapM_cons, bind_eq_ok_iff] at h
    obtain ⟨b, hb, h⟩ := h
    obtain ⟨rest, hrest, h⟩ := bind_eq_ok_iff.1 h
    cases h
    exact .cons hb (ih hrest)

end TrajectorySafety
