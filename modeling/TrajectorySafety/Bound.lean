import TrajectorySafety.Error
import TrajectorySafety.Number.Logarithm
import TrajectorySafety.Number.Reading

/-!
How many safe samples are needed.

A rule turns a Bayes-factor threshold `B` and a confidence `c` into the number `K` of consecutive
safe trajectories after which "no violation seen" counts as evidence that the probability of safety
is at least `c`. `BoundCache` remembers the answers of any rule.
-/

namespace TrajectorySafety

open Number

/-- A rule for the number of samples. -/
abbrev SampleRule := (budget confidence : Float) → Except Fault Nat

namespace SampleRule

/-- The threshold must be finite and above one, the confidence strictly between zero and one. -/
def checkInputs (budget confidence : Float) : Except Fault Unit :=
  if !budget.isFinite || budget ≤ 1 then .error (.budget budget)
  else if 0 < confidence ∧ confidence < 1 then .ok ()
  else .error (.confidence confidence)

/-- A quotient rounded up to a count of at least one. -/
def count (x : Float) : Nat := max (ceilNat wordLimit x) 1

/-- The asymptotic form of the test: `ln B / -ln c`. -/
def jeffreys : SampleRule := fun budget confidence => do
  checkInputs budget confidence
  return count (ln budget / -ln confidence)

/-- The test with a uniform prior, solved exactly: `ln (c + B (1 - c)) / -ln c`. -/
def betaPosterior : SampleRule := fun budget confidence => do
  checkInputs budget confidence
  let odds := fusedMulAdd budget (1 - confidence) confidence
  return count (ln odds / -ln confidence)

end SampleRule

/-- The rules to choose from. -/
inductive BoundStrategy where
  | jeffreys
  | betaPosterior
deriving Repr, DecidableEq

namespace BoundStrategy

def name : BoundStrategy → String
  | jeffreys => "jeffreys"
  | betaPosterior => "beta-posterior"

def rule : BoundStrategy → SampleRule
  | jeffreys => SampleRule.jeffreys
  | betaPosterior => SampleRule.betaPosterior

def ofName? : String → Option BoundStrategy
  | "jeffreys" => some jeffreys
  | "beta-posterior" => some betaPosterior
  | _ => none

/-- The strategy of a name. -/
def parse (name : String) : Except Fault BoundStrategy :=
  match ofName? name with
  | some s => .ok s
  | none => .error (.unknownStrategy name)

end BoundStrategy

/-- Answers of a rule, by the bits of the question, with the number of questions that were answered
from them and that needed the rule. -/
structure BoundCache where
  values : List ((UInt64 × UInt64) × Nat) := []
  hits : Nat := 0
  misses : Nat := 0
deriving Repr

/-- Answers a question, which is known by its bits, from the cache or as `inner` answers it. A
failure is neither remembered nor counted. -/
def BoundCache.answer {ε : Type} (cache : BoundCache) (inner : UInt64 × UInt64 → Except ε Nat)
    (key : UInt64 × UInt64) : Except ε Nat × BoundCache :=
  match cache.values.lookup key with
  | some k => (.ok k, { cache with hits := cache.hits + 1 })
  | none =>
    match inner key with
    | .error fault => (.error fault, cache)
    | .ok k =>
      (.ok k, { cache with values := (key, k) :: cache.values, misses := cache.misses + 1 })

/-- Answers a question from the cache or by the rule. -/
def BoundCache.required (cache : BoundCache) (rule : SampleRule) (budget confidence : Float) :
    Except Fault Nat × BoundCache :=
  cache.answer (fun _ => rule budget confidence) (budget.toBits, confidence.toBits)

end TrajectorySafety
