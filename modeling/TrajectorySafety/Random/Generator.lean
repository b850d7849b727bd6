import TrajectorySafety.Interval
import TrajectorySafety.Random.Pcg

/-!
Reproducible draws from numbered streams.

A generator hands out children: the child with stream number `j` is seeded by the master seed and
`j` alone, whatever was drawn before it was handed out.
-/

namespace TrajectorySafety.Random

/-- A source of draws with the master seed of its family and the number of the next stream that it
hands out. -/
structure Generator where
  seed : UInt64
  stream : UInt64
  source : Pcg
deriving Repr, DecidableEq

namespace Generator

/-- The root generator of a master seed. -/
def ofSeed (seed : UInt64) : Generator := ⟨seed, 0, .ofSeed seed⟩

/-- The odd factor that spreads stream numbers over the seeds. -/
def streamFactor : UInt64 := 0x9E3779B97F4A7C15

/-- The seed of a stream. -/
def streamSeed (seed stream : UInt64) : UInt64 := seed + (stream + 1) * streamFactor

/-- The generator of a stream, as its parent hands it out. -/
def child (seed stream : UInt64) : Generator :=
  ⟨seed, stream, .ofSeed (streamSeed seed stream)⟩

/-- The next `n` children, and the generator after it handed them out. -/
def partition (g : Generator) : (n : Nat) → List Generator × Generator
  | 0 => ([], g)
  | n + 1 =>
    let (rest, last) := partition { g with stream := g.stream + 1 } n
    (child g.seed g.stream :: rest, last)

/-- The next child alone. -/
def fork (g : Generator) : Generator × Generator :=
  (child g.seed g.stream, { g with stream := g.stream + 1 })

/-- A draw from the unit interval, its upper end excluded: the upper 53 bits as a fraction. -/
def uniform (g : Generator) : Float × Generator :=
  let (bits, source) := g.source.next
  ((bits >>> 11).toFloat * Float.ofBits 0x3CA0000000000000, { g with source })

/-- A draw between two bounds, in whichever order they are given. -/
def between (g : Generator) (low high : Float) : Float × Generator :=
  let (lo, hi) := if low ≤ high then (low, high) else (high, low)
  let (u, g) := g.uniform
  (lo + (hi - lo) * u, g)

/-- Whether an event with the given chance in percent happens. -/
def chance (g : Generator) (percent : Float) : Bool × Generator :=
  let (u, g) := g.uniform
  (u * 100 < percent, g)

/-- One draw from each interval, in order. -/
def sampleIntervals : List Interval → Generator → List Float × Generator
  | [], g => ([], g)
  | i :: rest, g =>
    let (v, g) := g.between i.lo i.hi
    let (vs, g) := sampleIntervals rest g
    (v :: vs, g)

/-- A state drawn uniformly from a box. -/
def sampleBox (g : Generator) (b : Box) : State × Generator :=
  let (vs, g) := sampleIntervals b.intervals g
  (⟨vs⟩, g)

end Generator

end TrajectorySafety.Random
