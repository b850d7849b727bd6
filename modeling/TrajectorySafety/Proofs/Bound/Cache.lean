import Mathlib.Data.Finset.Card
import TrajectorySafety.Bound
import TrajectorySafety.Proofs.Number.Order

/-!
Remembered sample counts.

Questions may be of any kind, as long as those with the same bits have the same answer. A cache that
remembers only right counts (`Faithful`) answers every question rightly, and one question does one
of three things to it (`Served`). From this follows what a cache holds after any number of questions
(`Records`): exactly those that were answered, with the number of the different ones among them.
-/

namespace TrajectorySafety.BoundCache

/-- The bits of a question. -/
def bits (q : Float × Float) : UInt64 × UInt64 := (q.1.toBits, q.2.toBits)

theorem bits_inj {p q : Float × Float} (h : bits p = bits q) : p = q := by
  obtain ⟨hbudget, hconfidence⟩ := Prod.mk.inj h
  exact Prod.ext (Number.toBits_inj hbudget) (Number.toBits_inj hconfidence)

section
variable {ε Q : Type}

/-! ## One question -/

/-- Every remembered count is the one that `inner` gives. -/
def Faithful (cache : BoundCache) (key : Q → UInt64 × UInt64) (inner : Q → Except ε Nat) : Prop :=
  ∀ q k, cache.values.lookup (key q) = some k → inner q = .ok k

/-- Answers a question of any kind that has bits. -/
def consult (key : Q → UInt64 × UInt64) (inner : Q → Except ε Nat) (cache : BoundCache) (q : Q) :
    Except ε Nat × BoundCache :=
  cache.answer (fun _ => inner q) (key q)

/-- What a question gets and leaves behind: a remembered answer is counted as a hit, a failure
changes nothing, and a new answer is counted as a miss and remembered. -/
inductive Served (key : Q → UInt64 × UInt64) (inner : Q → Except ε Nat) (cache : BoundCache)
    (q : Q) : Except ε Nat × BoundCache → Prop
  | hit (k : Nat) (hlookup : cache.values.lookup (key q) = some k) (h : inner q = .ok k) :
    Served key inner cache q (.ok k, { cache with hits := cache.hits + 1 })
  | failed (fault : ε) (h : inner q = .error fault) :
    Served key inner cache q (.error fault, cache)
  | missed (k : Nat) (hlookup : cache.values.lookup (key q) = none) (h : inner q = .ok k) :
    Served key inner cache q
      (.ok k, { cache with values := (key q, k) :: cache.values, misses := cache.misses + 1 })

variable {key : Q → UInt64 × UInt64} {inner : Q → Except ε Nat} {cache : BoundCache}

theorem faithful_empty (key : Q → UInt64 × UInt64) (inner : Q → Except ε Nat) :
    ({} : BoundCache).Faithful key inner := by
  intro q k h
  cases h

theorem served_consult (h : cache.Faithful key inner) (q : Q) :
    Served key inner cache q (consult key inner cache q) := by
  unfold consult answer
  cases hlookup : cache.values.lookup (key q) with
  | some k => exact .hit k hlookup (h q k hlookup)
  | none =>
    cases hq : inner q with
    | error fault => exact .failed fault hq
    | ok k => exact .missed k hlookup hq

theorem Served.answer_eq {q : Q} {s : Except ε Nat × BoundCache}
    (h : Served key inner cache q s) : s.1 = inner q := by
  cases h with
  | hit k _ h => exact h.symm
  | failed fault h => exact h.symm
  | missed k _ h => exact h.symm

theorem Served.cache_of_error {q : Q} {s : Except ε Nat × BoundCache} {fault : ε}
    (h : Served key inner cache q s) (hq : inner q = .error fault) : s.2 = cache := by
  cases h with
  | hit k _ h => cases h.symm.trans hq
  | failed _ _ => rfl
  | missed k _ h => cases h.symm.trans hq

/-- Where the bits tell the answer, a new count is right for every question that has its bits. -/
theorem Served.faithful {q : Q} {s : Except ε Nat × BoundCache}
    (hkey : ∀ p q, key p = key q → inner p = inner q) (hcache : cache.Faithful key inner)
    (h : Served key inner cache q s) : s.2.Faithful key inner := by
  cases h with
  | hit k _ _ => exact hcache
  | failed fault _ => exact hcache
  | missed k _ h =>
    intro p n hp
    by_cases hpq : key p = key q
    · simp only [hpq, List.lookup_cons, beq_self_eq_true] at hp
      rw [hkey p q hpq, h, Option.some.inj hp]
    · have hne : (key p == key q) = false := by simpa using hpq
      simp only [List.lookup_cons, hne] at hp
      exact hcache p n hp

/-- A faithful cache answers as the rule does, and stays faithful. -/
theorem required_of_faithful {rule : SampleRule} (h : cache.Faithful bits (Function.uncurry rule))
    (budget confidence : Float) :
    (cache.required rule budget confidence).1 = rule budget confidence ∧
      (cache.required rule budget confidence).2.Faithful bits (Function.uncurry rule) := by
  have hserved := served_consult h (budget, confidence)
  exact ⟨hserved.answer_eq, hserved.faithful (fun _ _ hpq => by rw [bits_inj hpq]) h⟩

/-! ## Many questions -/

/-- The bits of the questions that have an answer, in order. -/
def answered (key : Q → UInt64 × UInt64) (inner : Q → Except ε Nat) (questions : List Q) :
    List (UInt64 × UInt64) :=
  (questions.filter fun q => (inner q).isOk).map key

theorem answered_concat_of_ok {q : Q} {k : Nat} (h : inner q = .ok k) (questions : List Q) :
    answered key inner (questions ++ [q]) = answered key inner questions ++ [key q] := by
  simp [answered, List.filter_append, h, Except.isOk, Except.toBool]

theorem answered_concat_of_error {q : Q} {fault : ε} (h : inner q = .error fault)
    (questions : List Q) :
    answered key inner (questions ++ [q]) = answered key inner questions := by
  simp [answered, List.filter_append, h, Except.isOk, Except.toBool]

/-- What a cache holds after questions: the right counts, for the bits of the answered questions,
which are counted once each as a miss and else as hits. -/
structure Records (key : Q → UInt64 × UInt64) (inner : Q → Except ε Nat) (questions : List Q)
    (cache : BoundCache) : Prop where
  faithful : cache.Faithful key inner
  known : ∀ b, (cache.values.lookup b).isSome = true ↔ b ∈ answered key inner questions
  misses : cache.misses = (answered key inner questions).toFinset.card
  total : cache.hits + cache.misses = (answered key inner questions).length

theorem records_empty (key : Q → UInt64 × UInt64) (inner : Q → Except ε Nat) :
    Records key inner [] {} where
  faithful := faithful_empty key inner
  known := by simp [answered]
  misses := rfl
  total := rfl

theorem toFinset_answered_concat {q : Q} {k : Nat} (h : inner q = .ok k) (questions : List Q) :
    (answered key inner (questions ++ [q])).toFinset =
      insert (key q) (answered key inner questions).toFinset := by
  rw [answered_concat_of_ok h, List.toFinset_append, Finset.union_comm]
  rfl

/-- One more question is recorded like those before it. -/
theorem Records.served {questions : List Q} {q : Q} {s : Except ε Nat × BoundCache}
    (hkey : ∀ p q, key p = key q → inner p = inner q) (hcache : Records key inner questions cache)
    (h : Served key inner cache q s) : Records key inner (questions ++ [q]) s.2 := by
  have hfaithful : s.2.Faithful key inner := h.faithful hkey hcache.faithful
  obtain ⟨-, hknown, hmisses, htotal⟩ := hcache
  cases h with
  | hit k hlookup h =>
    -- the bits were answered before, so one more answer makes no more different ones
    have hmem : key q ∈ answered key inner questions := by
      rw [← hknown, hlookup]
      rfl
    refine ⟨hfaithful, fun b => ?_, ?_, ?_⟩
    · rw [hknown, answered_concat_of_ok h, List.mem_append, List.mem_singleton]
      exact ⟨.inl, fun hb => hb.elim id fun hb => hb ▸ hmem⟩
    · rw [toFinset_answered_concat h, Finset.insert_eq_of_mem (List.mem_toFinset.2 hmem), hmisses]
    · rw [answered_concat_of_ok h, List.length_append, ← htotal, List.length_singleton]
      exact Nat.add_right_comm _ _ _
  | failed fault h =>
    rw [← answered_concat_of_error h questions] at hknown hmisses htotal
    exact ⟨hfaithful, hknown, hmisses, htotal⟩
  | missed k hlookup h =>
    have hnew : key q ∉ answered key inner questions := by
      rw [← hknown, hlookup]
      exact Bool.false_ne_true
    refine ⟨hfaithful, fun b => ?_, ?_, ?_⟩
    · rw [answered_concat_of_ok h, List.mem_append, List.mem_singleton, ← hknown, List.lookup_cons]
      by_cases hb : b = key q
      · simp [hb]
      · have hne : (b == key q) = false := by simpa using hb
        simp [hb, hne]
    · rw [toFinset_answered_concat h, Finset.card_insert_of_notMem (by simpa using hnew), hmisses]
    · rw [answered_concat_of_ok h, List.length_append, ← htotal, List.length_singleton]
      exact (Nat.add_assoc _ _ _).symm

/-- The answers to questions that are put to a new cache one after another, and the cache after
them. -/
def session (ask : BoundCache → Q → Except ε Nat × BoundCache) (questions : List Q) :
    List (Except ε Nat) × BoundCache :=
  questions.foldl (fun s q => (s.1 ++ [(ask s.2 q).1], (ask s.2 q).2)) ([], {})

theorem session_concat (ask : BoundCache → Q → Except ε Nat × BoundCache) (questions : List Q)
    (q : Q) : session ask (questions ++ [q]) =
      ((session ask questions).1 ++ [(ask (session ask questions).2 q).1],
        (ask (session ask questions).2 q).2) := List.foldl_concat _ _ _ _

/-- Nobody can tell a session from one without a cache, except by the counters: the answers are
those of `inner`, a question without an answer leaves the cache as it was, and the counters tell how
many different questions were answered and how many in all. -/
structure Transparent (key : Q → UInt64 × UInt64) (inner : Q → Except ε Nat)
    (ask : BoundCache → Q → Except ε Nat × BoundCache) (questions : List Q) : Prop where
  answers : (session ask questions).1 = questions.map inner
  unchanged : ∀ earlier q later fault, questions = earlier ++ q :: later →
    inner q = .error fault → (session ask (earlier ++ [q])).2 = (session ask earlier).2
  misses : (session ask questions).2.misses = (answered key inner questions).toFinset.card
  total : (session ask questions).2.hits + (session ask questions).2.misses =
    (answered key inner questions).length

theorem session_consult (hkey : ∀ p q, key p = key q → inner p = inner q) (questions : List Q) :
    (session (consult key inner) questions).1 = questions.map inner ∧
      Records key inner questions (session (consult key inner) questions).2 := by
  induction questions using List.reverseRecOn with
  | nil => exact ⟨rfl, records_empty key inner⟩
  | append_singleton questions q ih =>
    obtain ⟨hanswers, hrecords⟩ := ih
    have hserved := served_consult hrecords.faithful q
    rw [session_concat]
    refine ⟨?_, hrecords.served hkey hserved⟩
    rw [hanswers, hserved.answer_eq, List.map_append]
    rfl

theorem transparent_consult (hkey : ∀ p q, key p = key q → inner p = inner q)
    (questions : List Q) : Transparent key inner (consult key inner) questions := by
  obtain ⟨hanswers, hrecords⟩ := session_consult hkey questions
  refine ⟨hanswers, fun earlier q later fault _ hfault => ?_, hrecords.misses, hrecords.total⟩
  have hearlier := (session_consult hkey earlier).2
  rw [session_concat]
  exact (served_consult hearlier.faithful q).cache_of_error hfault

end

/-- A cache is transparent, whatever it is put in front of: a strategy that goes by the bits of the
threshold and the confidence, or a rule for these numbers themselves, which are told apart by their
bits. -/
theorem session_transparent {ε : Type} (inner : UInt64 × UInt64 → Except ε Nat)
    (keys : List (UInt64 × UInt64)) (rule : SampleRule) (questions : List (Float × Float)) :
    Transparent id inner (fun cache key => cache.answer inner key) keys ∧
      Transparent bits (fun q => rule q.1 q.2) (fun cache q => cache.required rule q.1 q.2)
        questions :=
  ⟨transparent_consult (fun _ _ h => congrArg inner h) keys,
    transparent_consult (fun _ _ h => by rw [bits_inj h]) questions⟩

/-- The two zeros are one number but two questions, and a failure counts for nothing. -/
example :
    let rule : SampleRule := fun _ c => if c < 0 then .error (.confidence c) else .ok 3
    let after := [0, -1, -0, 0].foldl (fun cache c => (required cache rule 4 c).2) {}
    after.hits = 1 ∧ after.misses = 2 := by
  decide +kernel

end TrajectorySafety.BoundCache
