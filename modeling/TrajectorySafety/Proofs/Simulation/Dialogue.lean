import Mathlib.Data.List.Forall2
import TrajectorySafety.Proofs.Simulation.Guard
import TrajectorySafety.Simulation

/-!
Trajectories as dialogues with the model.

A model may answer as it likes, so what can be said of a trajectory is how its states answer each
other. `Guard.Course` lists what was asked and answered on the way: every state but the last of a
complete trajectory was asked for, each answer that the guard accepted is the next state, and the
trajectory is short exactly if the answer for its last state was rejected. `Consulted` says that
questions and answers are those of actual calls, each with the generator and the memory that the one
before left behind.

Simulating one initial state gives the course of one dialogue (`course_of_path`), and several
initial states give their dialogues one after the other (`told_of_simulateAll`).
-/

namespace TrajectorySafety

open TrajectorySafety.Random

/-! ## Calls in sequence -/

/-- Successful calls one after the other, by question and answer. Each of them starts with the
generator and the memory that the one before left. -/
inductive Consulted {μ α β : Type} (ask : α → Generator → μ → Reply μ β) :
    Generator → μ → List (α × β) → Generator → μ → Prop
  | none (g : Generator) (memory : μ) : Consulted ask g memory [] g memory
  | call {question : α} {answer : β} {g g' : Generator} {memory memory' : μ}
      {rest : List (α × β)} (h : (ask question g memory).answer = .ok answer)
      (hrest : Consulted ask (ask question g memory).generator (ask question g memory).memory rest
        g' memory') :
      Consulted ask g memory ((question, answer) :: rest) g' memory'

theorem Consulted.append {μ α β : Type} {ask : α → Generator → μ → Reply μ β}
    {g g' g'' : Generator} {memory memory' memory'' : μ} {calls calls' : List (α × β)}
    (h : Consulted ask g memory calls g' memory')
    (h' : Consulted ask g' memory' calls' g'' memory'') :
    Consulted ask g memory (calls ++ calls') g'' memory'' := by
  induction h with
  | none => exact h'
  | call hanswer _ ih => exact .call hanswer (ih h')

namespace Sim

variable {μ α β : Type}

theorem bind_eq_ok_iff {x : Sim μ α} {f : α → Sim μ β} {w v : World μ} {b : β} :
    (x >>= f) w = .ok b v ↔ ∃ a u, x w = .ok a u ∧ f a u = .ok b v := by
  rw [bind_apply]
  cases x w with
  | ok a u =>
    constructor
    · intro h
      exact ⟨a, u, rfl, h⟩
    · intro ⟨a', u', hx, h⟩
      cases hx
      exact h
  | error err u =>
    constructor
    · intro h
      cases h
    · intro ⟨a', u', hx, h⟩
      cases hx

theorem call_eq_ok {f : Generator → μ → Reply μ α} {w v : World μ} {a : α}
    (h : call f w = .ok a v) :
    (f w.generator w.memory).answer = .ok a ∧ v.generator = (f w.generator w.memory).generator ∧
      v.memory = (f w.generator w.memory).memory := by
  cases ha : (f w.generator w.memory).answer with
  | ok a' =>
    simp only [call, ha] at h
    cases h
    exact ⟨rfl, rfl, rfl⟩
  | error err =>
    simp only [call, ha] at h
    cases h

theorem reserve_eq_ok {count : Nat} {u : Unit} {w v : World μ} (h : reserve count w = .ok u v) :
    v = w := by
  unfold reserve at h
  split at h
  · cases h
    rfl
  · cases h

end Sim

/-- A call that succeeds, before others. -/
theorem Consulted.of_call {μ α β : Type} {ask : α → Generator → μ → Reply μ β} {question : α}
    {answer : β} {w u v : World μ} {rest : List (α × β)}
    (h : Sim.call (ask question) w = .ok answer u)
    (hrest : Consulted ask u.generator u.memory rest v.generator v.memory) :
    Consulted ask w.generator w.memory ((question, answer) :: rest) v.generator v.memory := by
  obtain ⟨hanswer, hg, hmemory⟩ := Sim.call_eq_ok h
  rw [hg, hmemory] at hrest
  exact .call hanswer hrest

/-! ## Courses -/

/-- The course of a trajectory: what the model was asked and answered about its states. -/
structure Guard.Course (guard : Guard) (horizon : Nat) (start : State)
    (asked : List (State × Step)) (states : List State) : Prop where
  initial : states.head? = some start
  length_le : states.length ≤ horizon
  /-- Every state was asked for, except for the one at the last time before the horizon. -/
  length_asked : asked.length = min states.length (horizon - 1)
  question : ∀ (k : Nat) (s : State) (step : Step),
    asked[k]? = some (s, step) → states[k]? = some s
  answer : ∀ (k : Nat) (next : State), states[k + 1]? = some next →
    ∃ prev, asked[k]? = some (prev, .next next)
  guarded : ∀ next ∈ states.tail, guard.inspect next = none
  short_iff : states.length < horizon ↔
    ∃ s step, asked[states.length - 1]? = some (s, step) ∧ guard.rejects step = true

namespace Guard

variable {guard : Guard}

theorem course_singleton (s : State) : guard.Course 1 s [] [s] where
  initial := rfl
  length_le := by simp
  length_asked := by simp
  question := by simp
  answer := by simp
  guarded := by simp
  short_iff := by simp

theorem course_rejected {step : Step} (n : Nat) (s : State) (h : guard.rejects step = true) :
    guard.Course (n + 2) s [(s, step)] [s] where
  initial := rfl
  length_le := by simp
  length_asked := by simp
  question := by
    intro k s' step' hasked
    cases k with
    | zero =>
      cases hasked
      rfl
    | succ k => cases hasked
  answer := by simp
  guarded := by simp
  short_iff := by simp [h]

theorem course_cons {n : Nat} {next : State} {asked : List (State × Step)} {states : List State}
    (s : State) (hnext : guard.inspect next = none)
    (h : guard.Course (n + 1) next asked states) :
    guard.Course (n + 2) s ((s, .next next) :: asked) (s :: states) := by
  obtain ⟨rest, rfl⟩ := List.head?_eq_some_iff.1 h.initial
  constructor
  case initial => rfl
  case length_le => exact Nat.succ_le_succ h.length_le
  case length_asked =>
    have hlength := h.length_asked
    simp only [List.length_cons] at hlength ⊢
    omega
  case question =>
    intro k s' step hasked
    cases k with
    | zero =>
      cases hasked
      rfl
    | succ k => exact h.question k s' step hasked
  case answer =>
    intro k s' hs'
    cases k with
    | zero =>
      cases hs'
      exact ⟨s, rfl⟩
    | succ k => exact h.answer k s' hs'
  case guarded =>
    intro s' hs'
    rcases List.mem_cons.1 hs' with rfl | hs'
    · exact hnext
    · exact h.guarded s' hs'
  case short_iff =>
    have hshort := h.short_iff
    simp only [List.length_cons, Nat.add_sub_cancel, List.getElem?_cons_succ] at hshort ⊢
    rw [← hshort]
    omega

/-- Only the answer for the last state can have been rejected, and then the trajectory is short. -/
theorem Course.any_rejects {horizon : Nat} {start : State} {asked : List (State × Step)}
    {states : List State} (h : guard.Course horizon start asked states) :
    (asked.any fun q => guard.rejects q.2) = decide (states.length < horizon) := by
  rw [Bool.eq_iff_iff, decide_eq_true_iff, h.short_iff, List.any_eq_true]
  constructor
  · intro ⟨(s, step), hasked, hrejected⟩
    obtain ⟨k, hk⟩ := List.mem_iff_getElem?.1 hasked
    have hlt : k < states.length := (List.getElem?_eq_some_iff.1 (h.question k s step hk)).1
    by_cases hlast : k + 1 < states.length
    · -- an answer that is followed by a state was accepted
      obtain ⟨prev, hprev⟩ := h.answer k _ (List.getElem?_eq_getElem hlast)
      rw [hk] at hprev
      obtain ⟨rfl, rfl⟩ := Prod.mk.inj (Option.some.inj hprev)
      have hmem : states[k + 1] ∈ states.tail := by
        rw [List.mem_iff_getElem?]
        exact ⟨k, by rw [List.getElem?_tail, List.getElem?_eq_getElem hlast]⟩
      rw [rejects_next (h.guarded _ hmem)] at hrejected
      cases hrejected
    · have hlength : states.length - 1 = k := by omega
      exact ⟨s, step, hlength ▸ hk, hrejected⟩
  · intro ⟨s, step, hasked, hrejected⟩
    exact ⟨(s, step), List.mem_of_getElem? hasked, hrejected⟩

end Guard

/-! ## One trajectory at a time -/

namespace Simulator

variable {μ : Type} {sim : Simulator μ}

theorem accept_eq_ok {step : Step} {time : Nat} {o : Option State} {w v : World μ}
    (h : sim.accept step time w = .ok o v) :
    o = (sim.guard.accept step).toOption ∧ v.generator = w.generator ∧ v.memory = w.memory := by
  unfold accept Guard.screen at h
  cases ha : sim.guard.accept step with
  | ok s =>
    rw [ha] at h
    cases h
    exact ⟨rfl, rfl, rfl⟩
  | error d =>
    rw [ha] at h
    cases h
    exact ⟨rfl, rfl, rfl⟩

/-- A state and up to `n` successors are the course of a dialogue of actual calls. -/
theorem course_of_path {n time : Nat} {s : State} {states : List State} {w v : World μ}
    (h : sim.path n time s w = .ok states v) :
    ∃ asked, sim.guard.Course (n + 1) s asked states ∧
      Consulted sim.model.next w.generator w.memory asked v.generator v.memory := by
  induction n generalizing time s states w with
  | zero =>
    cases h
    exact ⟨[], Guard.course_singleton s, .none _ _⟩
  | succ n ih =>
    rw [path] at h
    obtain ⟨step, u, hcall, hscreened⟩ := Sim.bind_eq_ok_iff.1 h
    obtain ⟨o, u', haccept, hrest⟩ := Sim.bind_eq_ok_iff.1 hscreened
    obtain ⟨ho, hg, hmemory⟩ := accept_eq_ok haccept
    cases o with
    | none =>
      cases hrest
      have hrejected := Guard.toOption_accept_eq_none_iff.1 ho.symm
      refine ⟨[(s, step)], Guard.course_rejected n s hrejected, .of_call hcall ?_⟩
      rw [hg, hmemory]
      exact .none _ _
    | some next =>
      obtain ⟨rfl, hnext⟩ := Guard.toOption_accept_eq_some_iff.1 ho.symm
      obtain ⟨rest, v', hpath, hstates⟩ := Sim.bind_eq_ok_iff.1 hrest
      cases hstates
      obtain ⟨asked, hcourse, hasked⟩ := ih hpath
      rw [hg, hmemory] at hasked
      exact ⟨(s, .next next) :: asked, Guard.course_cons s hnext hcourse, .of_call hcall hasked⟩

/-- A trajectory from an initial state, with the dialogue that led to it. -/
def Tells (sim : Simulator μ) (start : State) (p : List (State × Step) × Trajectory) : Prop :=
  p.2.horizon = sim.horizon ∧ sim.guard.Course sim.horizon start p.1 p.2.states

theorem told_of_simulate {s : State} {t : Trajectory} {w v : World μ}
    (h : sim.simulate s w = .ok t v) :
    ∃ asked, sim.Tells s (asked, t) ∧
      Consulted sim.model.next w.generator w.memory asked v.generator v.memory := by
  obtain ⟨_, u, hroom, hrest⟩ := Sim.bind_eq_ok_iff.1 h
  obtain rfl := Sim.reserve_eq_ok hroom
  obtain ⟨states, u', hpath, ht⟩ := Sim.bind_eq_ok_iff.1 hrest
  cases ht
  obtain ⟨asked, hcourse, hasked⟩ := course_of_path hpath
  rw [Nat.sub_add_cancel sim.horizon_pos] at hcourse
  exact ⟨asked, ⟨rfl, hcourse⟩, hasked⟩

/-- Trajectories one by one come from dialogues one after the other. -/
theorem told_of_simulateAll {starts : List State} {ts : List Trajectory} {w v : World μ}
    (h : sim.simulateAll starts w = .ok ts v) :
    ∃ told, told.map Prod.snd = ts ∧ List.Forall₂ sim.Tells starts told ∧
      Consulted sim.model.next w.generator w.memory (told.map Prod.fst).flatten
        v.generator v.memory := by
  induction starts generalizing ts w with
  | nil =>
    cases h
    exact ⟨[], rfl, .nil, .none _ _⟩
  | cons s rest ih =>
    obtain ⟨t, u, hsimulate, h⟩ := Sim.bind_eq_ok_iff.1 h
    obtain ⟨others, v', hrest, h⟩ := Sim.bind_eq_ok_iff.1 h
    cases h
    obtain ⟨asked, htold, hasked⟩ := told_of_simulate hsimulate
    obtain ⟨told, rfl, hall, hothers⟩ := ih hrest
    exact ⟨(asked, t) :: told, rfl, .cons htold hall, hasked.append hothers⟩

end Simulator

end TrajectorySafety
