import TrajectorySafety.Random.Wide

/-!
A permuted congruential generator: 128 bits of state, 64 bits a draw.
-/

namespace TrajectorySafety.Random

/-- The state of a generator and the odd increment that selects its sequence. -/
structure Pcg where
  state : Wide
  increment : Wide
deriving Repr, DecidableEq

namespace Pcg

/-- The multiplier of the linear step. -/
def multiplier : Wide := ⟨0x2360ED051FC65DA4, 0x4385DF649FCCF645⟩

/-- One linear step. -/
def step (g : Pcg) : Pcg := { g with state := (g.state.mul multiplier).add g.increment }

/-- The generator that starts from a state and an increment, which is made odd. -/
def start (state increment : Wide) : Pcg :=
  let increment := { increment with low := increment.low ||| 1 }
  step ⟨state.add increment, increment⟩

/-- One step of the 64-bit generator that spreads a seed. -/
def spread (seed : UInt64) : UInt64 := seed * 6364136223846793005 + 11634580027462260723

/-- The 32-bit word that a spread seed stands for: some of its bits, rotated by its top five. -/
def seedWord (seed : UInt64) : UInt64 :=
  let bits := (((seed >>> 18) ^^^ seed) >>> 27).toUInt32
  let turn := (seed >>> 59).toUInt32
  ((bits >>> turn) ||| (bits <<< ((32 - turn) % 32))).toUInt64

/-- Two words from the seed, the first of them lower, and the seed after them. -/
def seedHalf (seed : UInt64) : UInt64 × UInt64 :=
  let first := spread seed
  let second := spread first
  (seedWord first + (seedWord second <<< 32), second)

/-- Four words from the seed, the first of them lowest, and the seed after them. -/
def seedWide (seed : UInt64) : Wide × UInt64 :=
  let (low, seed) := seedHalf seed
  let (high, seed) := seedHalf seed
  (⟨high, low⟩, seed)

/-- The generator of a 64-bit seed: four words for the state, then four for the increment. -/
def ofSeed (seed : UInt64) : Pcg :=
  let (state, seed) := seedWide seed
  let (increment, _) := seedWide seed
  start state increment

/-- What a state shows: its two halves combined and rotated by its top six bits. -/
def output (state : Wide) : UInt64 :=
  let bits := state.high ^^^ state.low
  let turn := state.high >>> 58
  (bits >>> turn) ||| (bits <<< ((64 - turn) % 64))

/-- The next 64 bits. -/
def next (g : Pcg) : UInt64 × Pcg :=
  let g := g.step
  (output g.state, g)

end Pcg

end TrajectorySafety.Random
