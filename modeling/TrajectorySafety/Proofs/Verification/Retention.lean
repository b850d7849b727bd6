import TrajectorySafety.Verification

/-!
How many examples a run keeps changes nothing else.

`bare` forgets the kept examples, in a tally and in whatever holds one. No step of a run looks at
them, so two engines that differ in the number of examples they keep take the same steps but for
the examples (`advance_retaining`), and end with the same outcome but for the examples
(`run_retaining`): verdict, counts, what the engine keeps from run to run, and diagnostics.
-/

namespace TrajectorySafety

open TrajectorySafety.Random

/-- The counts alone. -/
def Tally.bare (t : Tally) : Tally := { t with safeTrajectories := #[], unsafeTrajectories := [] }

def Turn.bare : Turn → Turn
  | stop verdict t => stop verdict t.bare
  | next t => next t.bare

/-- A report without its examples of trajectories. -/
def Report.bare (r : Report) : Report := { r with safeTrajectories := [], unsafeTrajectories := [] }

variable {μ : Type}

def Pending.bare (p : Pending μ) : Pending μ := { p with tally := p.tally.bare }

def Outcome.bare (o : Outcome μ) : Outcome μ := { o with result := o.result.map Report.bare }

theorem Tally.exists_of_bare {t t' : Tally} (h : t'.bare = t.bare) :
    ∃ kept found, t' = { t with safeTrajectories := kept, unsafeTrajectories := found } := by
  obtain ⟨total, valid, batches, diverged, kept, found⟩ := t'
  simp only [bare, Tally.mk.injEq, and_true] at h
  obtain ⟨rfl, rfl, rfl, rfl⟩ := h
  exact ⟨kept, found, rfl⟩

theorem Turn.announce_bare (turn : Turn) : (turn.bare.announce : Sim μ Unit) = turn.announce := by
  cases turn with
  | next t => rfl
  | stop verdict t =>
    cases verdict with
    | safe => rfl
    | inconclusive reason => rfl
    | violated v source => cases source <;> rfl

theorem Sim.map_apply {α β : Type} (f : α → β) (x : Sim μ α) (w : World μ) :
    (f <$> x) w = match x w with
      | .ok a w => .ok (f a) w
      | .error err w => .error err w := by
  rw [← bind_pure_comp, bind_apply]
  rfl

namespace Engine

/-- The same engine, keeping up to `n` examples. -/
def retaining (e : Engine μ) (n : Nat) : Engine μ :=
  { e with sampling := { e.sampling with retain := n } }

theorem judge_retaining (e : Engine μ) (n : Nat) {t t' : Tally} (h : t'.bare = t.bare) (b : Batch)
    (valid : List Trajectory) :
    ((e.retaining n).judge t' b valid).bare = (e.judge t b valid).bare := by
  obtain ⟨kept, found, rfl⟩ := Tally.exists_of_bare h
  cases hf : firstUnsafe e.constraints valid with
  | none =>
    have hf' : firstUnsafe (e.retaining n).constraints valid = none := hf
    simp only [judge, hf, hf']
    rfl
  | some first =>
    have hf' : firstUnsafe (e.retaining n).constraints valid = some first := hf
    simp only [judge, hf, hf']
    rfl

theorem sampleBatch_retaining (e : Engine μ) (n : Nat) {t t' : Tally} (h : t'.bare = t.bare)
    (g : Generator) :
    Turn.bare <$> (e.retaining n).sampleBatch t' g = Turn.bare <$> e.sampleBatch t g := by
  have hjudge := e.judge_retaining n h
  have hannounce (b : Batch) (valid : List Trajectory) :
      ((e.retaining n).judge t' b valid).announce =
        ((e.judge t b valid).announce : Sim μ Unit) := by
    rw [← Turn.announce_bare, hjudge, Turn.announce_bare]
  obtain ⟨kept, found, rfl⟩ := Tally.exists_of_bare h
  simp only [sampleBatch, map_bind, map_pure, hjudge, hannounce]
  rfl

theorem turn_retaining (e : Engine μ) (n required : Nat) {t t' : Tally} (h : t'.bare = t.bare)
    (signals : Signals) (g : Generator) :
    Turn.bare <$> (e.retaining n).turn required t' signals g =
      Turn.bare <$> e.turn required t signals g := by
  have hsample := e.sampleBatch_retaining n h g
  obtain ⟨kept, found, rfl⟩ := Tally.exists_of_bare h
  unfold turn
  by_cases hr : required ≤ t.valid
  · simp only [hr, if_true, map_pure, Turn.bare, h]
  · simp only [hr, if_false, map_bind]
    refine bind_congr fun _ => bind_congr fun w => ?_
    have hstop : (e.retaining n).stopReason?
        { t with safeTrajectories := kept, unsafeTrajectories := found } w.cancelled signals.late =
          e.stopReason? t w.cancelled signals.late := rfl
    rw [hstop]
    cases e.stopReason? t w.cancelled signals.late with
    | none => exact hsample
    | some reason => rfl

theorem advance_retaining (e : Engine μ) (n : Nat) {p p' : Pending μ} (h : p'.bare = p.bare)
    (signals : Signals) :
    Sum.map Outcome.bare Pending.bare ((e.retaining n).advance p' signals) =
      Sum.map Outcome.bare Pending.bare (e.advance p signals) := by
  obtain ⟨required, audit, t, master, cache, w⟩ := p
  obtain ⟨required', audit', t', master', cache', w'⟩ := p'
  simp only [Pending.bare, Pending.mk.injEq] at h
  obtain ⟨rfl, rfl, ht, rfl, rfl, rfl⟩ := h
  have hturn := congrFun (e.turn_retaining n required' ht signals master'.fork.1) w'
  rw [Sim.map_apply, Sim.map_apply] at hturn
  generalize hx : e.turn required' t signals master'.fork.1 w' = x at hturn
  generalize hx' : (e.retaining n).turn required' t' signals master'.fork.1 w' = x' at hturn
  simp only [advance, hx, hx']
  cases x with
  | error err w =>
    cases x' with
    | error err' w' =>
      cases hturn
      rfl
    | ok turn' w' => cases hturn
  | ok turn w =>
    cases x' with
    | error err' w' => cases hturn
    | ok turn' w' =>
      simp only [EStateM.Result.ok.injEq] at hturn
      obtain ⟨hbare, rfl⟩ := hturn
      cases turn with
      | stop verdict t =>
        cases turn' with
        | stop verdict' t' =>
          simp only [Turn.bare, Turn.stop.injEq] at hbare
          obtain ⟨rfl, ht⟩ := hbare
          obtain ⟨kept, found, rfl⟩ := Tally.exists_of_bare ht
          rfl
        | next t' => cases hbare
      | next t =>
        cases turn' with
        | stop verdict' t' => cases hbare
        | next t' =>
          simp only [Turn.bare, Turn.next.injEq] at hbare
          simp only [Sum.map_inr, Pending.bare, hbare]

/-- Whatever the number of examples to keep, a run is driven to the same end but for the examples.
-/
theorem drive_retaining (e : Engine μ) (n : Nat) (signals : Nat → Signals) {p p' : Pending μ}
    (h : p'.bare = p.bare) :
    ((e.retaining n).drive signals p').bare = (e.drive signals p).bare := by
  fun_induction drive e signals p generalizing p' with
  | case1 p outcome hstep =>
    have hbatches : p'.tally.batches = p.tally.batches := congrArg (·.tally.batches) h
    have hadvance := e.advance_retaining n h (signals p.tally.batches)
    rw [hstep, Sum.map_inl, ← hbatches] at hadvance
    cases hstep' : (e.retaining n).advance p' (signals p'.tally.batches) with
    | inl outcome' =>
      rw [hstep', Sum.map_inl] at hadvance
      rw [drive_of_inl hstep']
      exact Sum.inl.inj hadvance
    | inr next' =>
      rw [hstep'] at hadvance
      cases hadvance
  | case2 p next hstep _ ih =>
    have hbatches : p'.tally.batches = p.tally.batches := congrArg (·.tally.batches) h
    have hadvance := e.advance_retaining n h (signals p.tally.batches)
    rw [hstep, Sum.map_inr, ← hbatches] at hadvance
    cases hstep' : (e.retaining n).advance p' (signals p'.tally.batches) with
    | inl outcome' =>
      rw [hstep'] at hadvance
      cases hadvance
    | inr next' =>
      rw [hstep', Sum.map_inr] at hadvance
      rw [drive_of_inr hstep']
      exact ih (Sum.inr.inj hadvance)

theorem run_retaining (e : Engine μ) (n : Nat) (signals : Nat → Signals) (s : Status μ) :
    ((e.retaining n).run signals s).bare = (e.run signals s).bare := by
  have hbegin : (e.retaining n).begin s = e.begin s := rfl
  unfold run
  rw [hbegin]
  cases e.begin s with
  | inl outcome => rfl
  | inr p => exact e.drive_retaining n signals rfl

end Engine

end TrajectorySafety
