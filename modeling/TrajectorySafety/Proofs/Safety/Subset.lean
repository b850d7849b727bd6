import TrajectorySafety.Proofs.Safety.Scan

/-!
More constraints find more violations, and none of them later.

`FindsToo find find'` says that wherever one search finds a violation, the other finds one too, at
the same time or earlier. The scans over trajectories and over logged boxes are such searches: if
every constraint of `cs` is one of `ds`, then `ds` finds what `cs` finds (`findsToo_firstViolation`,
`findsToo_checkEntry`). So the first element with a violation is met no later
(`FindsToo.first`), and two lists with the same constraints, in whatever order and however
often repeated, meet it at the same place and time (`FindsToo.first_congr`).
-/

namespace TrajectorySafety

/-- Wherever `find` finds a violation, `find'` finds one that is no later. -/
def FindsToo {α : Type} (find find' : α → Option Violation) : Prop :=
  ∀ a v, find a = some v → ∃ v', find' a = some v' ∧ v'.time ≤ v.time

section
variable {α : Type} {find find' : α → Option Violation}

theorem FindsToo.first (h : FindsToo find find') {l : List α} {n i : Nat} {v : Violation}
    (hfound : firstFinding find n l = some (i, v)) :
    ∃ i' v', firstFinding find' n l = some (i', v') ∧ i' ≤ i ∧
      (i' = i → v'.time ≤ v.time) := by
  induction l generalizing n with
  | nil => cases hfound
  | cons a l ih =>
    rw [firstFinding] at hfound ⊢
    cases ha : find a with
    | some w =>
      rw [ha] at hfound
      cases hfound
      obtain ⟨v', hv', hle⟩ := h a v ha
      exact ⟨i, v', by rw [hv'], Nat.le_refl _, fun _ => hle⟩
    | none =>
      rw [ha] at hfound
      cases ha' : find' a with
      | some v' =>
        -- the other search is ahead: it stops here
        obtain ⟨j, hj, -⟩ := (firstFinding_eq_some_iff _ _ _ _ _).1 hfound
        exact ⟨n, v', rfl, by omega, fun heq => by omega⟩
      | none => exact ih hfound

theorem FindsToo.first_eq_none (h : FindsToo find find') {l : List α} {n : Nat}
    (hnone : firstFinding find' n l = none) :
    firstFinding find n l = none := by
  rw [firstFinding_eq_none_iff] at hnone ⊢
  intro a ha
  cases hv : find a with
  | none => rfl
  | some v =>
    obtain ⟨v', hv', -⟩ := h a v hv
    rw [hnone a ha] at hv'
    cases hv'

/-- Two searches that find what the other finds meet the same element first, at the same time. -/
theorem FindsToo.first_congr (h : FindsToo find find') (h' : FindsToo find' find)
    {l : List α} {n i : Nat} {v : Violation}
    (hfound : firstFinding find n l = some (i, v)) :
    ∃ v', firstFinding find' n l = some (i, v') ∧ v'.time = v.time := by
  obtain ⟨i', v', hfound', hle, htime⟩ := h.first hfound
  obtain ⟨j, w, hback, hge, htime'⟩ := h'.first hfound'
  obtain ⟨rfl, rfl⟩ := Prod.mk.inj (Option.some.inj (hback.symm.trans hfound))
  obtain rfl : i' = j := by omega
  exact ⟨v', hfound', Nat.le_antisymm (htime rfl) (htime' rfl)⟩

theorem FindsToo.isNone_congr (h : FindsToo find find') (h' : FindsToo find' find) (a : α) :
    (find a).isNone = (find' a).isNone := by
  cases hv : find a with
  | some v =>
    obtain ⟨v', hv', -⟩ := h a v hv
    rw [hv']
    rfl
  | none =>
    cases hv' : find' a with
    | none => rfl
    | some v' =>
      obtain ⟨w, hw, -⟩ := h' a v' hv'
      rw [hv] at hw
      cases hw

end

section
variable {cs ds : List Constraint}

theorem ViolatedAt.subset (h : cs ⊆ ds) {t : Trajectory} {time k : Nat} {x : Float}
    (hv : ViolatedAt cs t time k x) : ∃ j, ViolatedAt ds t time j x := by
  obtain ⟨s, c, hs, hc, hx⟩ := hv
  obtain ⟨j, hj⟩ := List.mem_iff_getElem?.1 (h (List.mem_of_getElem? hc))
  exact ⟨j, s, c, hs, hj, hx⟩

theorem findsToo_firstViolation (h : cs ⊆ ds) :
    FindsToo (firstViolation cs) (firstViolation ds) := by
  intro t v hv
  obtain ⟨k, x, -, -, hviolated, -⟩ := (firstViolation_eq_some_iff _ _ _).1 hv
  obtain ⟨j, hviolated'⟩ := hviolated.subset h
  cases hv' : firstViolation ds t with
  | none => exact absurd hviolated' ((firstViolation_eq_none_iff _ _).1 hv' _ _ _)
  | some v' =>
    obtain ⟨k', x', -, -, -, hearliest⟩ := (firstViolation_eq_some_iff _ _ _).1 hv'
    have hle := hearliest _ _ _ hviolated'
    exact ⟨v', rfl, by omega⟩

theorem findsToo_checkEntry (h : cs ⊆ ds) : FindsToo (checkEntry cs) (checkEntry ds) := by
  intro entry v hv
  obtain ⟨k, c, i, hc, hi, hholds, rfl, -⟩ := (checkEntry_list_eq_some_iff _ _ _).1 hv
  cases hv' : checkEntry ds entry with
  | none =>
    have hflags : c.Flags entry := ⟨i, hi, hholds⟩
    exact absurd hflags ((checkEntry_list_eq_none_iff _ _).1 hv' c (h (List.mem_of_getElem? hc)))
  | some v' =>
    obtain ⟨-, c', i', -, -, -, rfl, -⟩ := (checkEntry_list_eq_some_iff _ _ _).1 hv'
    exact ⟨_, rfl, Nat.le_refl _⟩

theorem auditLog_first (cs : List Constraint) (log : UncertaintyLog) :
    (auditLog cs log).first = firstFinding (checkEntry cs) 0 log.entries := by
  rw [auditLog, scan_eq]

/-- A log in which more constraints flag nothing has no flags. -/
theorem auditLog_first_eq_none (h : cs ⊆ ds) {log : UncertaintyLog}
    (hnone : (auditLog ds log).first = none) : (auditLog cs log).first = none := by
  rw [auditLog_first] at hnone ⊢
  exact (findsToo_checkEntry h).first_eq_none hnone

/-- The same constraints in another order split trajectories in the same way. -/
theorem splitTrajectories_congr (h : cs ⊆ ds) (h' : ds ⊆ cs) (ts : List Trajectory) :
    splitTrajectories ds ts = splitTrajectories cs ts := by
  have hsafe : isSafe ds = isSafe cs := by
    funext t
    exact (findsToo_firstViolation h').isNone_congr (findsToo_firstViolation h) t
  rw [splitTrajectories, splitTrajectories, hsafe]

end

end TrajectorySafety
