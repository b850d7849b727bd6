import TrajectorySafety.Proofs.Simulation.Dialogue
import TrajectorySafety.Proofs.Simulation.Lockstep

/-!
The shape of a batch, whatever the model answers.

In lockstep the dialogues of all trajectories are held at the same time. The call of a round asks
for the latest states of the trajectories that go on, so the rounds are the columns of the dialogues
(`columns`). One round takes every track that goes on one exchange further (`Track.Round`,
`rounds_of_distribute`), and the rest of the run continues its course (`Track.Continues`,
`continues_of_round`). After any number of rounds each track has its own course, and the calls were
the columns (`continues_of_lockstep`). Together with the dialogues one by one this is what a batch
consists of (`told_of_batch`).
-/

namespace TrajectorySafety

open TrajectorySafety.Random

/-! ## Columns -/

section
variable {α : Type}

/-- The entries at a position, of the lists that have one there. -/
def column (ls : List (List α)) (k : Nat) : List α := ls.filterMap (·[k]?)

/-- The length of the longest list. -/
def longest (ls : List (List α)) : Nat := (ls.map List.length).foldr max 0

/-- The columns of lists of different lengths. -/
def columns (ls : List (List α)) : List (List α) := (List.range (longest ls)).map (column ls)

theorem column_map_tail (ls : List (List α)) (k : Nat) :
    column (ls.map List.tail) k = column ls (k + 1) := by
  rw [column, column, List.filterMap_map]
  exact congrArg (List.filterMap · ls) (funext fun l => List.getElem?_tail)

theorem longest_map_tail (ls : List (List α)) : longest (ls.map List.tail) = longest ls - 1 := by
  induction ls with
  | nil => rfl
  | cons l ls ih =>
    simp only [longest, List.map_cons, List.foldr_cons, List.length_tail] at ih ⊢
    omega

theorem longest_eq_zero_iff {ls : List (List α)} : longest ls = 0 ↔ ∀ l ∈ ls, l = [] := by
  induction ls with
  | nil => simp [longest]
  | cons l ls ih =>
    rw [List.forall_mem_cons, ← ih, ← List.length_eq_zero_iff]
    simp only [longest, List.map_cons, List.foldr_cons]
    omega

theorem columns_eq_nil {ls : List (List α)} (h : ∀ l ∈ ls, l = []) : columns ls = [] := by
  rw [columns, longest_eq_zero_iff.2 h]
  rfl

theorem columns_eq_cons {ls : List (List α)} (h : column ls 0 ≠ []) :
    columns ls = column ls 0 :: columns (ls.map List.tail) := by
  have hpos : longest ls ≠ 0 := by
    intro hzero
    refine h (List.filterMap_eq_nil_iff.2 fun l hl => ?_)
    rw [longest_eq_zero_iff.1 hzero l hl]
    rfl
  obtain ⟨n, hn⟩ := Nat.exists_eq_succ_of_ne_zero hpos
  rw [columns, columns, longest_map_tail, hn, List.range_succ_eq_map, List.map_cons, List.map_map]
  exact congrArg (column ls 0 :: ·) (List.map_congr_left fun k _ => (column_map_tail ls k).symm)

end

namespace Simulator

/-! ## One round -/

/-- What a round does to a track, with the exchange about it if there is one. -/
inductive Track.Round (guard : Guard) : Track → Option (State × Step) → Track → Prop
  | idle {t : Track} (h : t.active = false) : Track.Round guard t none t
  | accepted {t : Track} {s : State} (h : t.active = true) (hs : guard.inspect s = none) :
      Track.Round guard t (some (t.latest, .next s)) ⟨s, t.latest :: t.earlier, true⟩
  | rejected {t : Track} {step : Step} (h : t.active = true) (hstep : guard.rejects step = true) :
      Track.Round guard t (some (t.latest, step)) { t with active := false }

variable {μ : Type} {sim : Simulator μ} {guard : Guard}

/-- Where no track goes on, a round changes nothing. -/
theorem rounds_of_idle {tracks : List Track} (h : frontier tracks = []) :
    List.Forall₂ (fun t p => Track.Round guard t p.1 p.2) tracks
      (tracks.map fun t => ((none : Option (State × Step)), t)) := by
  rw [List.forall₂_map_right_iff, List.forall₂_same]
  exact fun t ht => .idle (idle_of_frontier h t ht)

/-- Handing out as many answers as there are tracks that go on: each of them gets the answer at its
place. -/
theorem rounds_of_distribute {time : Nat} {tracks tracks' : List Track} {steps : List Step}
    {w v : World μ} (h : sim.distribute time tracks steps w = .ok tracks' v)
    (hlength : steps.length = (frontier tracks).length) :
    v.generator = w.generator ∧ v.memory = w.memory ∧
      ∃ handed : List (Option (State × Step) × Track), handed.map Prod.snd = tracks' ∧
        List.Forall₂ (fun t p => Track.Round sim.guard t p.1 p.2) tracks handed ∧
        handed.filterMap Prod.fst = (frontier tracks).zip steps := by
  induction tracks generalizing steps tracks' w with
  | nil =>
    cases h
    exact ⟨rfl, rfl, [], rfl, .nil, rfl⟩
  | cons t rest ih =>
    cases steps with
    | nil =>
      have hfront : frontier (t :: rest) = [] := List.length_eq_zero_iff.1 hlength.symm
      rw [distribute] at h
      · cases h
        refine ⟨rfl, rfl, _, ?_, rounds_of_idle hfront, ?_⟩
        · rw [List.map_map]
          exact List.map_id _
        · rw [hfront, List.filterMap_map]
          exact List.filterMap_eq_nil_iff.2 fun _ _ => rfl
      · simp
    | cons step steps =>
      rw [distribute] at h
      rw [frontier_cons] at hlength ⊢
      by_cases ha : t.active = true
      · rw [if_pos ha] at h hlength ⊢
        obtain ⟨o, u, haccept, hnext⟩ := Sim.bind_eq_ok_iff.1 h
        obtain ⟨ho, hg, hmemory⟩ := accept_eq_ok haccept
        obtain ⟨t', hround, hrun⟩ : ∃ t', t.Round sim.guard (some (t.latest, step)) t' ∧
            (sim.distribute time rest steps >>= fun ts => pure (t' :: ts)) u = .ok tracks' v := by
          cases o with
          | some s =>
            obtain ⟨rfl, hs⟩ := Guard.toOption_accept_eq_some_iff.1 ho.symm
            simp only [pure_bind] at hnext
            exact ⟨_, .accepted ha hs, hnext⟩
          | none =>
            have hrejected := Guard.toOption_accept_eq_none_iff.1 ho.symm
            simp only [pure_bind] at hnext
            exact ⟨_, .rejected ha hrejected, hnext⟩
        obtain ⟨ts, v', hrest, hts⟩ := Sim.bind_eq_ok_iff.1 hrun
        cases hts
        obtain ⟨hgrest, hmrest, handed, rfl, hrounds, hanswers⟩ := ih hrest (Nat.succ.inj hlength)
        exact ⟨hgrest.trans hg, hmrest.trans hmemory, (some (t.latest, step), t') :: handed, rfl,
          .cons hround hrounds, congrArg ((t.latest, step) :: ·) hanswers⟩
      · rw [if_neg ha] at h hlength ⊢
        obtain ⟨ts, u, hrest, hts⟩ := Sim.bind_eq_ok_iff.1 h
        cases hts
        obtain ⟨hg, hmemory, handed, rfl, hrounds, hanswers⟩ := ih hrest hlength
        exact ⟨hg, hmemory, (none, t) :: handed, rfl,
          .cons (.idle (Bool.eq_false_of_not_eq_true ha)) hrounds, hanswers⟩

/-! ## The course of a track -/

/-- What up to `n` rounds do to a track, with the exchanges about it: one that goes on takes its
course from its latest state on. -/
structure Track.Continues (guard : Guard) (n : Nat) (t : Track) (asked : List (State × Step))
    (t' : Track) : Prop where
  idle : t.active = false → asked = [] ∧ t' = t
  active : t.active = true → ∃ states, guard.Course (n + 1) t.latest asked states ∧
    t'.states = t.earlier.reverse ++ states ∧ t'.active = decide (states.length = n + 1)

theorem continues_zero (t : Track) : t.Continues guard 0 [] t where
  idle _ := ⟨rfl, rfl⟩
  active h := ⟨[t.latest], Guard.course_singleton t.latest, List.reverse_cons, h⟩

theorem continues_of_idle (n : Nat) {t : Track} (h : t.active = false) :
    t.Continues guard n [] t where
  idle _ := ⟨rfl, rfl⟩
  active ha := by
    rw [h] at ha
    cases ha

/-- One round, and then the rest. -/
theorem continues_of_round {n : Nat} {t t₁ t' : Track} {q : Option (State × Step)}
    {asked : List (State × Step)} (hround : t.Round guard q t₁)
    (h : t₁.Continues guard n asked t') : t.Continues guard (n + 1) (q.toList ++ asked) t' := by
  cases hround with
  | idle ha =>
    obtain ⟨rfl, rfl⟩ := h.idle ha
    exact continues_of_idle (n + 1) ha
  | accepted ha hs =>
    refine ⟨fun hidle => absurd ha (Bool.eq_false_iff.1 hidle), fun _ => ?_⟩
    obtain ⟨states, hcourse, hstates, hactive⟩ := h.active rfl
    refine ⟨t.latest :: states, Guard.course_cons t.latest hs hcourse, ?_, ?_⟩
    · rw [hstates, List.reverse_cons, List.append_assoc]
      rfl
    · rw [hactive, List.length_cons]
      exact decide_eq_decide.2 (Nat.succ_inj).symm
  | rejected ha hstep =>
    refine ⟨fun hidle => absurd ha (Bool.eq_false_iff.1 hidle), fun _ => ?_⟩
    obtain ⟨rfl, rfl⟩ := h.idle rfl
    refine ⟨[t.latest], Guard.course_rejected n t.latest hstep, List.reverse_cons, ?_⟩
    exact (decide_eq_false (by simp)).symm

/-- The exchange of a round comes first; a track without one has none later either. -/
theorem first_of_round {n : Nat} {t t₁ t' : Track} {q : Option (State × Step)}
    {asked : List (State × Step)} (hround : t.Round guard q t₁)
    (h : t₁.Continues guard n asked t') :
    (q.toList ++ asked)[0]? = q ∧ (q.toList ++ asked).tail = asked := by
  cases hround with
  | idle ha =>
    obtain ⟨rfl, -⟩ := h.idle ha
    exact ⟨rfl, rfl⟩
  | accepted => exact ⟨rfl, rfl⟩
  | rejected => exact ⟨rfl, rfl⟩

/-- One round over all tracks, and then the rest: its exchanges are the first column. -/
theorem told_of_rounds {n : Nat} {tracks : List Track}
    {handed : List (Option (State × Step) × Track)} {told : List (List (State × Step) × Track)}
    (hrounds : List.Forall₂ (fun t p => t.Round guard p.1 p.2) tracks handed)
    (h : List.Forall₂ (fun t p => t.Continues guard n p.1 p.2) (handed.map Prod.snd) told) :
    ∃ told', told'.map Prod.snd = told.map Prod.snd ∧
      List.Forall₂ (fun t p => t.Continues guard (n + 1) p.1 p.2) tracks told' ∧
      column (told'.map Prod.fst) 0 = handed.filterMap Prod.fst ∧
      (told'.map Prod.fst).map List.tail = told.map Prod.fst := by
  induction hrounds generalizing told with
  | nil =>
    rw [List.map_nil, List.forall₂_nil_left_iff] at h
    subst h
    exact ⟨[], rfl, .nil, rfl, rfl⟩
  | @cons t p tracks handed hround hrounds ih =>
    obtain ⟨q, t₁⟩ := p
    obtain ⟨⟨asked, t'⟩, told, hhead, htail, rfl⟩ := List.forall₂_cons_left_iff.1 h
    obtain ⟨told', hafter, hcontinues, hfirst, hlater⟩ := ih htail
    -- an idle track has no exchange now and none later, so nobody moves up in the columns
    obtain ⟨hzero, hdrop⟩ := first_of_round hround hhead
    refine ⟨(q.toList ++ asked, t') :: told', ?_, ?_, ?_, ?_⟩
    · rw [List.map_cons, List.map_cons, hafter]
    · exact .cons (continues_of_round hround hhead) hcontinues
    · rw [List.map_cons, column, List.filterMap_cons, hzero, List.filterMap_cons, ← hfirst]
      rfl
    · rw [List.map_cons, List.map_cons, hdrop, hlater, List.map_cons]

/-! ## All rounds -/

/-- What a run in lockstep has done: nothing where no track goes on, and otherwise one call with an
answer for each track that does, before the other rounds. -/
theorem lockstep_succ_eq_ok {n time : Nat} {tracks tracks' : List Track} {w v : World μ}
    (h : sim.lockstep (n + 1) time tracks w = .ok tracks' v) :
    (frontier tracks = [] ∧ tracks' = tracks ∧ v = w) ∨
      frontier tracks ≠ [] ∧ ∃ steps u next u',
        Sim.call (sim.model.nextBatch (frontier tracks)) w = .ok steps u ∧
        steps.length = (frontier tracks).length ∧
        sim.distribute time tracks steps u = .ok next u' ∧
        sim.lockstep n (time + 1) next u' = .ok tracks' v := by
  rw [lockstep] at h
  by_cases hfront : frontier tracks = []
  · rw [if_pos (List.isEmpty_iff.2 hfront)] at h
    cases h
    exact .inl ⟨hfront, rfl, rfl⟩
  · rw [if_neg (fun hempty => hfront (List.isEmpty_iff.1 hempty))] at h
    obtain ⟨steps, u, hcall, hround⟩ := Sim.bind_eq_ok_iff.1 h
    by_cases hlength : steps.length = (frontier tracks).length
    · rw [if_neg (not_not.2 hlength)] at hround
      obtain ⟨next, u', hdistribute, hrest⟩ := Sim.bind_eq_ok_iff.1 hround
      exact .inr ⟨hfront, steps, u, next, u', hcall, hlength, hdistribute, hrest⟩
    · rw [if_pos hlength] at hround
      cases hround

/-- Tracks that nothing was asked about. -/
theorem told_of_unchanged (guard : Guard) {n : Nat} {tracks : List Track}
    (h : ∀ t ∈ tracks, t.Continues guard n [] t) :
    ∃ told : List (List (State × Step) × Track), told.map Prod.snd = tracks ∧
      List.Forall₂ (fun t p => t.Continues guard n p.1 p.2) tracks told ∧
      columns (told.map Prod.fst) = [] := by
  refine ⟨tracks.map fun t => ([], t), ?_, ?_, columns_eq_nil ?_⟩
  · rw [List.map_map]
    exact List.map_id _
  · rwa [List.forall₂_map_right_iff, List.forall₂_same]
  · simp

/-- Every track takes its course, and the calls are the columns of what was asked. -/
theorem continues_of_lockstep {n time : Nat} {tracks tracks' : List Track} {w v : World μ}
    (h : sim.lockstep n time tracks w = .ok tracks' v) :
    ∃ told, told.map Prod.snd = tracks' ∧
      List.Forall₂ (fun t p => t.Continues sim.guard n p.1 p.2) tracks told ∧
      Consulted sim.model.nextBatch w.generator w.memory
        ((columns (told.map Prod.fst)).map List.unzip) v.generator v.memory := by
  induction n generalizing time tracks w with
  | zero =>
    cases h
    obtain ⟨told, htold, hcontinues, hnone⟩ :=
      told_of_unchanged sim.guard fun t (_ : t ∈ tracks') => continues_zero t
    exact ⟨told, htold, hcontinues, hnone ▸ .none _ _⟩
  | succ n ih =>
    rcases lockstep_succ_eq_ok h with ⟨hfront, rfl, rfl⟩ |
      ⟨hfront, steps, u, next, u', hcall, hlength, hdistribute, hrest⟩
    · obtain ⟨told, htold, hcontinues, hnone⟩ := told_of_unchanged sim.guard
        fun t ht => continues_of_idle (n + 1) (idle_of_frontier hfront t ht)
      exact ⟨told, htold, hcontinues, hnone ▸ .none _ _⟩
    · obtain ⟨hg, hmemory, handed, rfl, hrounds, hanswers⟩ :=
        rounds_of_distribute hdistribute hlength
      obtain ⟨later, hafter, hlater, hcalls⟩ := ih hrest
      obtain ⟨told, htold, hcontinues, hfirst, hothers⟩ := told_of_rounds hrounds hlater
      refine ⟨told, htold.trans hafter, hcontinues, ?_⟩
      -- this round is the first column, and the later rounds are the columns of the tails
      have hcolumn : column (told.map Prod.fst) 0 = (frontier tracks).zip steps :=
        hfirst.trans hanswers
      have hne : column (told.map Prod.fst) 0 ≠ [] := by
        intro hnil
        rw [hnil] at hcolumn
        have hzero := congrArg List.length hcolumn
        rw [List.length_zip, hlength, Nat.min_self] at hzero
        exact hfront (List.length_eq_zero_iff.1 hzero.symm)
      rw [columns_eq_cons hne, hothers, hcolumn, List.map_cons, List.unzip_zip hlength.symm]
      rw [hg, hmemory] at hcalls
      exact .of_call hcall hcalls

theorem tells_of_continues {s : State} {asked : List (State × Step)} {t : Track}
    (h : Track.Continues sim.guard (sim.horizon - 1) ⟨s, [], true⟩ asked t) :
    sim.Tells s (asked, ⟨t.states, sim.horizon⟩) := by
  obtain ⟨states, hcourse, hstates, -⟩ := h.active rfl
  rw [Nat.sub_add_cancel sim.horizon_pos] at hcourse
  rw [List.reverse_nil, List.nil_append] at hstates
  refine ⟨rfl, ?_⟩
  rw [hstates]
  exact hcourse

/-- Trajectories in lockstep come from dialogues that are held at the same time. -/
theorem told_of_simulateLockstep {starts : List State} {ts : List Trajectory} {w v : World μ}
    (h : sim.simulateLockstep starts w = .ok ts v) :
    ∃ told, told.map Prod.snd = ts ∧ List.Forall₂ sim.Tells starts told ∧
      Consulted sim.model.nextBatch w.generator w.memory
        ((columns (told.map Prod.fst)).map List.unzip) v.generator v.memory := by
  obtain ⟨tracks, u, hlockstep, hts⟩ := Sim.bind_eq_ok_iff.1 h
  cases hts
  obtain ⟨told, rfl, hcontinues, hcalls⟩ := continues_of_lockstep hlockstep
  refine ⟨told.map fun p => (p.1, ⟨p.2.states, sim.horizon⟩), ?_, ?_, ?_⟩
  · rw [List.map_map, List.map_map]
    rfl
  · rw [List.forall₂_map_left_iff] at hcontinues
    rw [List.forall₂_map_right_iff]
    exact hcontinues.imp fun s p hp => tells_of_continues hp
  · rw [List.map_map]
    exact hcalls

/-! ## A batch -/

/-- The state that is drawn from a box after `i` others. -/
def drawn (region : Box) (g : Generator) (i : Nat) : State :=
  (((fun g : Generator => (g.sampleBox region).2)^[i] g).sampleBox region).1

theorem drawAll_apply (region : Box) (count : Nat) (w : World μ) :
    drawAll region count w = .ok ((List.range count).map (drawn region w.generator))
      { w with
        generator := (fun g : Generator => (g.sampleBox region).2)^[count] w.generator } := by
  induction count generalizing w with
  | zero => rfl
  | succ n ih =>
    rw [drawAll, Sim.bind_apply]
    simp only [Sim.draw, Sim.bind_apply, ih, Sim.pure_apply]
    rw [List.range_succ_eq_map, List.map_cons, List.map_map]
    rfl

/-- The calls of dialogues with a model: one for each question, or in lockstep one for each round,
about all dialogues that are not over. -/
def Holds (sim : Simulator μ) (dialogues : List (List (State × Step))) (g : Generator) (memory : μ)
    (g' : Generator) (memory' : μ) : Prop :=
  if sim.model.batched then
    Consulted sim.model.nextBatch g memory ((columns dialogues).map List.unzip) g' memory'
  else Consulted sim.model.next g memory dialogues.flatten g' memory'

/-- A batch comes from one dialogue for each initial state. All initial states are drawn before the
first call. -/
theorem told_of_batch {region : Box} {count : Nat} {b : Batch} {w v : World μ}
    (h : sim.batch region count w = .ok b v) :
    ∃ told, told.map Prod.snd = b.trajectories ∧
      List.Forall₂ sim.Tells ((List.range count).map (drawn region w.generator)) told ∧
      sim.Holds (told.map Prod.fst)
        ((fun g : Generator => (g.sampleBox region).2)^[count] w.generator) w.memory
        v.generator v.memory := by
  obtain ⟨starts, u, hstarts, hrun⟩ := Sim.bind_eq_ok_iff.1 h
  obtain ⟨_, u', hroom, hdraws⟩ := Sim.bind_eq_ok_iff.1 hstarts
  obtain rfl := Sim.reserve_eq_ok hroom
  rw [drawAll_apply] at hdraws
  cases hdraws
  by_cases hbatched : sim.model.batched = true
  · rw [if_pos hbatched] at hrun
    obtain ⟨ts, v', hts, hb⟩ := Sim.bind_eq_ok_iff.1 hrun
    cases hb
    obtain ⟨told, htold, htells, hcalls⟩ := told_of_simulateLockstep hts
    refine ⟨told, htold, htells, ?_⟩
    rw [Holds, if_pos hbatched]
    exact hcalls
  · rw [if_neg hbatched] at hrun
    obtain ⟨ts, v', hts, hb⟩ := Sim.bind_eq_ok_iff.1 hrun
    cases hb
    obtain ⟨told, htold, htells, hcalls⟩ := told_of_simulateAll hts
    refine ⟨told, htold, htells, ?_⟩
    rw [Holds, if_neg hbatched]
    exact hcalls

/-- The number of trajectories cut off is the number of dialogues with a rejected answer. -/
theorem diverged_of_told {starts : List State} {told : List (List (State × Step) × Trajectory)}
    (h : List.Forall₂ sim.Tells starts told) :
    (told.map Prod.snd).countP Trajectory.isTruncated =
      told.countP fun p => p.1.any fun q => sim.guard.rejects q.2 := by
  induction h with
  | nil => rfl
  | cons htold _ ih =>
    rw [List.map_cons, List.countP_cons, List.countP_cons, ih, htold.2.any_rejects,
      Trajectory.isTruncated, htold.1]
    rfl

/-! ## Answers that do not fit -/

theorem lockstep_of_idle {tracks : List Track} (h : frontier tracks = []) (n time : Nat)
    (w : World μ) : sim.lockstep n time tracks w = .ok tracks w := by
  cases n with
  | zero => rfl
  | succ n =>
    rw [lockstep, if_pos (List.isEmpty_iff.2 h)]
    rfl

/-- A round of a run in lockstep starts with its call. -/
theorem lockstep_of_call {tracks : List Track} {steps : List Step} {w u : World μ} (n time : Nat)
    (hfront : frontier tracks ≠ [])
    (hcall : Sim.call (sim.model.nextBatch (frontier tracks)) w = .ok steps u) :
    sim.lockstep (n + 1) time tracks w =
      if steps.length = (frontier tracks).length then
        (sim.distribute time tracks steps >>= sim.lockstep n (time + 1)) u
      else .error (.model (s!"{sim.model.name} returned {steps.length} states " ++
        s!"for a batch of {(frontier tracks).length}")) u := by
  rw [lockstep, if_neg fun hempty => hfront (List.isEmpty_iff.1 hempty), Sim.bind_apply, hcall]
  by_cases hlength : steps.length = (frontier tracks).length
  · simp only [hlength, ne_eq, not_true, if_false, if_true]
  · simp only [hlength, ne_eq, not_false_eq_true, if_false, if_true]
    rfl

/-- Rounds that succeed are followed by the other rounds. -/
theorem lockstep_add {n time : Nat} {tracks tracks' : List Track} {w v : World μ} (m : Nat)
    (h : sim.lockstep n time tracks w = .ok tracks' v) :
    sim.lockstep (n + m) time tracks w = sim.lockstep m (time + n) tracks' v := by
  induction n generalizing time tracks w with
  | zero =>
    cases h
    rw [Nat.zero_add, Nat.add_zero]
  | succ n ih =>
    rcases lockstep_succ_eq_ok h with ⟨hfront, rfl, rfl⟩ |
      ⟨hfront, steps, u, next, u', hcall, hlength, hdistribute, hrest⟩
    · rw [lockstep_of_idle hfront, lockstep_of_idle hfront]
    · rw [Nat.add_right_comm, lockstep_of_call (n + m) time hfront hcall, if_pos hlength,
        Sim.bind_apply, hdistribute]
      simp only []
      rw [ih hrest, Nat.add_assoc, Nat.add_comm 1 n]

/-- Where a call answers, it succeeds. -/
theorem exists_call_ok {α : Type} {f : Generator → μ → Reply μ α} {w : World μ} {a : α}
    (h : (f w.generator w.memory).answer = .ok a) : ∃ u, Sim.call f w = .ok a u := by
  simp only [Sim.call, h]
  exact ⟨_, rfl⟩

/-- The same simulator with another horizon. -/
def lasting (sim : Simulator μ) (n : Nat) (hn : 0 < n) : Simulator μ :=
  { sim with horizon := n, horizon_pos := hn }

theorem distribute_lasting (n : Nat) (hn : 0 < n) (time : Nat) (tracks : List Track)
    (steps : List Step) :
    (sim.lasting n hn).distribute time tracks steps = sim.distribute time tracks steps := by
  induction tracks generalizing steps with
  | nil => rfl
  | cons t rest ih =>
    cases steps with
    | nil => rfl
    | cons step steps =>
      simp only [distribute, ih]
      rfl

theorem lockstep_lasting (n : Nat) (hn : 0 < n) (rounds time : Nat) (tracks : List Track) :
    (sim.lasting n hn).lockstep rounds time tracks = sim.lockstep rounds time tracks := by
  induction rounds generalizing time tracks with
  | zero => rfl
  | succ rounds ih =>
    simp only [lockstep, distribute_lasting, ih]
    rfl

/-- A track goes on exactly if its trajectory was not cut off so far. -/
theorem isTruncated_of_continues {n : Nat} {s : State} {asked : List (State × Step)} {t : Track}
    (h : Track.Continues guard n ⟨s, [], true⟩ asked t) :
    (Trajectory.mk t.states (n + 1)).isTruncated = !t.active := by
  obtain ⟨states, hcourse, hstates, hactive⟩ := h.active rfl
  rw [List.reverse_nil, List.nil_append] at hstates
  have hle := hcourse.length_le
  rw [Trajectory.isTruncated, Trajectory.length, hactive, hstates, ← decide_not]
  exact decide_eq_decide.2 (Nat.lt_iff_le_and_ne.trans (and_iff_right hle))

end Simulator

/-- The last states of the trajectories that were not cut off. -/
def Batch.frontier (b : Batch) : List State :=
  (b.trajectories.filter (!·.isTruncated)).filterMap (·.states.getLast?)

namespace Simulator

variable {μ : Type} {sim : Simulator μ} {guard : Guard}

theorem frontier_of_told {n : Nat} {starts : List State}
    {told : List (List (State × Step) × Track)}
    (h : List.Forall₂ (fun s p => Track.Continues guard n ⟨s, [], true⟩ p.1 p.2) starts told) :
    Batch.frontier ⟨(told.map Prod.snd).map fun t => ⟨t.states, n + 1⟩⟩ =
      frontier (told.map Prod.snd) := by
  have hlast : ∀ t : Track, t.states.getLast? = some t.latest := fun t => by simp [Track.states]
  induction h with
  | nil => rfl
  | @cons s p starts told hcontinues _ ih =>
    rw [List.map_cons, List.map_cons, frontier_cons, ← ih]
    simp only [Batch.frontier, List.filter_cons, isTruncated_of_continues hcontinues, Bool.not_not]
    by_cases ha : p.2.active = true
    · simp only [ha, if_true, List.filterMap_cons, hlast]
    · simp only [ha, Bool.false_eq_true, if_false]

/-- If an answer about all trajectories that go on has the wrong length, the whole batch fails. -/
theorem batch_of_miscount {region : Box} {count n : Nat} {b : Batch} {steps : List Step}
    {w v : World μ} (hbatched : sim.model.batched = true) (hn : 0 < n) (hlt : n < sim.horizon)
    (hb : (sim.lasting n hn).batch region count w = .ok b v) (hfront : b.frontier ≠ [])
    (hanswer : (sim.model.nextBatch b.frontier v.generator v.memory).answer = .ok steps)
    (hlength : steps.length ≠ b.frontier.length) :
    ∃ u, sim.batch region count w =
      .error (.model (s!"{sim.model.name} returned {steps.length} states " ++
        s!"for a batch of {b.frontier.length}")) u := by
  obtain ⟨starts, u, hstarts, hrun⟩ := Sim.bind_eq_ok_iff.1 hb
  rw [if_pos (show (sim.lasting n hn).model.batched = true from hbatched)] at hrun
  obtain ⟨ts, v', hts, hb⟩ := Sim.bind_eq_ok_iff.1 hrun
  cases hb
  obtain ⟨tracks, v', hlockstep, hts⟩ := Sim.bind_eq_ok_iff.1 hts
  cases hts
  rw [lockstep_lasting] at hlockstep
  -- the trajectories that were not cut off are the tracks that go on
  obtain ⟨told, rfl, hcontinues, -⟩ := continues_of_lockstep hlockstep
  rw [List.forall₂_map_left_iff] at hcontinues
  have hfrontier := frontier_of_told hcontinues
  rw [show (sim.lasting n hn).horizon - 1 + 1 = n from Nat.sub_add_cancel hn] at hfrontier
  rw [show (sim.lasting n hn).horizon = n from rfl, hfrontier] at hfront hanswer hlength ⊢
  obtain ⟨u', hcall⟩ := exists_call_ok hanswer
  obtain ⟨m, hm⟩ : ∃ m, sim.horizon - 1 = n - 1 + (m + 1) := ⟨sim.horizon - 1 - n, by omega⟩
  have hround := lockstep_add (m + 1) hlockstep
  rw [lockstep_of_call m _ hfront hcall, if_neg hlength] at hround
  refine ⟨u', ?_⟩
  rw [batch, Sim.bind_apply, hstarts]
  simp only [hbatched, if_true, Sim.bind_apply, simulateLockstep, hm]
  rw [show n - 1 = (sim.lasting n hn).horizon - 1 from rfl, hround]

theorem tells_of_mem {starts : List State} {told : List (List (State × Step) × Trajectory)}
    {p : List (State × Step) × Trajectory} (h : List.Forall₂ sim.Tells starts told)
    (hp : p ∈ told) : ∃ s, sim.Tells s p := by
  obtain ⟨k, hk, rfl⟩ := List.getElem_of_mem hp
  exact ⟨_, h.get (h.length_eq.symm ▸ hk) hk⟩

/-- The shape of a batch, for any model. A batch that is drawn has as many trajectories as were
asked for, one for each drawn initial state, in their order. Each is the course of a dialogue with
the model: it starts with the drawn state, has at most as many states as the horizon, goes on with
what the model answered for the state before as long as the guard accepts it, and is short exactly
if the answer for its last state was rejected. The number of trajectories cut off is the number of
dialogues with a rejected answer, and the dialogues are held by actual calls: one by one, or in
rounds about all trajectories that go on. If in such a round the answers are more or fewer than the
trajectories, the whole batch fails. -/
theorem batch_shape (sim : Simulator μ) (region : Box) (count : Nat) (w : World μ) :
    (∀ b v, sim.batch region count w = .ok b v →
      b.trajectories.length = count ∧
      (∀ t ∈ b.trajectories, ∀ s ∈ t.states.tail,
        (sim.guard.checkFinite = true → s.Finite) ∧
        ∀ bound, sim.guard.maxMagnitude = some bound → s.Within bound) ∧
      ∃ told : List (List (State × Step) × Trajectory),
        told.map Prod.snd = b.trajectories ∧
        List.Forall₂ sim.Tells ((List.range count).map (drawn region w.generator)) told ∧
        b.diverged = (told.countP fun p => p.1.any fun q => sim.guard.rejects q.2) ∧
        sim.Holds (told.map Prod.fst)
          ((fun g : Generator => (g.sampleBox region).2)^[count] w.generator) w.memory
          v.generator v.memory) ∧
    ∀ n (hn : 0 < n) b v steps, sim.model.batched = true → n < sim.horizon →
      (sim.lasting n hn).batch region count w = .ok b v → b.frontier ≠ [] →
      (sim.model.nextBatch b.frontier v.generator v.memory).answer = .ok steps →
      steps.length ≠ b.frontier.length →
      ∃ u, sim.batch region count w =
        .error (.model (s!"{sim.model.name} returned {steps.length} states " ++
          s!"for a batch of {b.frontier.length}")) u := by
  refine ⟨fun b v hb => ?_, fun n hn b v steps hbatched hlt hb hfront hanswer hlength =>
    batch_of_miscount hbatched hn hlt hb hfront hanswer hlength⟩
  obtain ⟨told, htold, htells, hholds⟩ := told_of_batch hb
  refine ⟨?_, ?_, told, htold, htells, ?_, hholds⟩
  · rw [← htold, List.length_map, ← htells.length_eq, List.length_map, List.length_range]
  · intro t ht s hs
    rw [← htold] at ht
    obtain ⟨p, hp, rfl⟩ := List.mem_map.1 ht
    obtain ⟨start, -, hcourse⟩ := tells_of_mem htells hp
    have hguarded := hcourse.guarded s hs
    exact ⟨fun hg => Guard.finite_of_inspect hg hguarded,
      fun bound hg => Guard.within_of_inspect hg hguarded⟩
  · rw [Batch.diverged, ← htold]
    exact diverged_of_told htells

/-- Doubles all states in one call, but leaves out those of a magnitude of three and more. -/
def forgetful : Simulator Unit where
  model :=
    { name := "forgetful", dimension := none, batched := true
      next := fun s g memory => { answer := .ok (.next s), generator := g, memory }
      nextBatch := fun ss g memory =>
        let kept := ss.filter fun s => s.maxAbs < 3
        { answer := .ok (kept.map fun s => .next ⟨s.coordinates.map (2 * ·)⟩)
          generator := g, memory } }
  guard := {}
  horizon := 3
  horizon_pos := Nat.succ_pos 2

/-- Four trajectories of which three end early, the first of them before the second goes on; and a
round in which one of three answers is missing. -/
theorem batch_of_doubling :
    (∃ b v told, (doubling.batching true).batch ⟨[⟨1, 8⟩]⟩ 4 ⟨.ofSeed 1, (), false, #[]⟩ = .ok b v ∧
      b.trajectories.map Trajectory.length = [1, 4, 3, 1] ∧ told.map Prod.snd = b.trajectories ∧
      List.Forall₂ (doubling.batching true).Tells
        ((List.range 4).map (drawn ⟨[⟨1, 8⟩]⟩ (.ofSeed 1))) told ∧
      (told.countP fun p => p.1.any fun q => doubling.guard.rejects q.2) = 3) ∧
    ∃ u, forgetful.batch ⟨[⟨1, 2⟩]⟩ 3 ⟨.ofSeed 1, (), false, #[]⟩ =
      .error (.model "forgetful returned 2 states for a batch of 3") u := by
  constructor
  · obtain ⟨b, v, hb, hlengths⟩ : ∃ b v,
        (doubling.batching true).batch ⟨[⟨1, 8⟩]⟩ 4 ⟨.ofSeed 1, (), false, #[]⟩ = .ok b v ∧
          (b.trajectories.map Trajectory.length == [1, 4, 3, 1] && b.diverged == 3) = true :=
      Sim.exists_ok_of_any (by decide +kernel)
    rw [Bool.and_eq_true, beq_iff_eq, beq_iff_eq] at hlengths
    obtain ⟨-, -, told, htold, htells, hdiverged, -⟩ :=
      (batch_shape (doubling.batching true) ⟨[⟨1, 8⟩]⟩ 4 ⟨.ofSeed 1, (), false, #[]⟩).1 b v hb
    exact ⟨b, v, told, hb, hlengths.1, htold, htells, hdiverged.symm.trans hlengths.2⟩
  · obtain ⟨b, v, hb, hlengths⟩ : ∃ b v,
        (forgetful.lasting 2 Nat.two_pos).batch ⟨[⟨1, 2⟩]⟩ 3 ⟨.ofSeed 1, (), false, #[]⟩ = .ok b v ∧
          (b.frontier.length == 3 &&
            (b.frontier.filter fun s => s.maxAbs < 3).length == 2) = true :=
      Sim.exists_ok_of_any (by decide +kernel)
    rw [Bool.and_eq_true, beq_iff_eq, beq_iff_eq] at hlengths
    obtain ⟨u, hu⟩ := (batch_shape forgetful ⟨[⟨1, 2⟩]⟩ 3 ⟨.ofSeed 1, (), false, #[]⟩).2 2
      Nat.two_pos b v _ rfl (by decide) hb (List.ne_nil_of_length_pos (by omega)) rfl
      (by rw [List.length_map]; omega)
    rw [List.length_map, hlengths.1, hlengths.2] at hu
    exact ⟨u, hu⟩

end Simulator

end TrajectorySafety
