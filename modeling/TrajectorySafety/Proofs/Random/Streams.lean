import TrajectorySafety.Random.Generator

/-!
The children of a generator are numbered, and no two of them share a seed.

A generator is used by drawing from it and by letting it hand out children (`Generator.Use`). Each
use hands out a run of consecutive streams and moves the stream number past them, and the draws in
between touch the source only (`handsOut_use`). So all children that a root hands out are the
streams 0, 1, … in this order, however they were asked for (`handsOut_useAll`). The factor between
stream numbers and seeds is odd and therefore has an inverse among the words (`streamSeed_inj`);
only the last stream of all would get the seed of the root (`streamSeed_ne_seed`).
-/

namespace TrajectorySafety.Random

namespace Generator

/-! ## Uses -/

/-- What can be done with a generator: it hands out children, or something is drawn from it. -/
inductive Use where
  | partition (n : Nat)
  | fork
  | uniform
  | between (low high : Float)
  | chance (percent : Float)
  | sampleBox (region : Box)

/-- The children that a use hands out, and the generator after it. -/
def use (g : Generator) : Use → List Generator × Generator
  | .partition n => g.partition n
  | .fork => ([g.fork.1], g.fork.2)
  | .uniform => ([], g.uniform.2)
  | .between low high => ([], (g.between low high).2)
  | .chance percent => ([], (g.chance percent).2)
  | .sampleBox region => ([], (g.sampleBox region).2)

/-- The children that a sequence of uses hands out, in order, and the generator after it. -/
def useAll (g : Generator) : List Use → List Generator × Generator
  | [] => ([], g)
  | u :: us => ((g.use u).1 ++ ((g.use u).2.useAll us).1, ((g.use u).2.useAll us).2)

/-- The generator `g'` is `g` after it handed out the children, which are its next streams. -/
structure HandsOut (g : Generator) (children : List Generator) (g' : Generator) : Prop where
  seed_eq : g'.seed = g.seed
  stream_eq : g'.stream = g.stream + .ofNat children.length
  children_eq : children =
    (List.range children.length).map fun j => child g.seed (g.stream + .ofNat j)

theorem add_ofNat_add (w : UInt64) (m n : Nat) : w + .ofNat m + .ofNat n = w + .ofNat (m + n) := by
  rw [UInt64.add_assoc, ← UInt64.ofNat_add]

theorem handsOut_of_draw {g g' : Generator} (hseed : g'.seed = g.seed)
    (hstream : g'.stream = g.stream) : g.HandsOut [] g' :=
  ⟨hseed, hstream.trans (UInt64.add_zero _).symm, rfl⟩

/-- What is handed out first and what is handed out then is handed out together. -/
theorem HandsOut.append {g g' g'' : Generator} {first later : List Generator}
    (h : g.HandsOut first g') (h' : g'.HandsOut later g'') :
    g.HandsOut (first ++ later) g'' := by
  refine ⟨h'.seed_eq.trans h.seed_eq, ?_, ?_⟩
  · rw [h'.stream_eq, h.stream_eq, add_ofNat_add, List.length_append]
  · have hlater : later = (List.range later.length).map fun j =>
        child g.seed (g.stream + .ofNat (first.length + j)) := by
      have hchildren := h'.children_eq
      simp only [h.seed_eq, h.stream_eq, add_ofNat_add] at hchildren
      exact hchildren
    rw [List.length_append, List.range_add, List.map_append, List.map_map]
    exact congr (congrArg _ h.children_eq) hlater

theorem handsOut_fork (g : Generator) : g.HandsOut [g.fork.1] g.fork.2 := by
  refine ⟨rfl, rfl, ?_⟩
  show [child g.seed g.stream] = [child g.seed (g.stream + .ofNat 0)]
  rw [show UInt64.ofNat 0 = 0 from rfl, UInt64.add_zero]

/-- A partition is as many forks. -/
theorem partition_succ (g : Generator) (n : Nat) :
    g.partition (n + 1) =
      (g.fork.1 :: (g.fork.2.partition n).1, (g.fork.2.partition n).2) := rfl

theorem handsOut_partition (g : Generator) (n : Nat) :
    g.HandsOut (g.partition n).1 (g.partition n).2 ∧ (g.partition n).1.length = n := by
  induction n generalizing g with
  | zero => exact ⟨handsOut_of_draw rfl rfl, rfl⟩
  | succ n ih =>
    obtain ⟨hrest, hlength⟩ := ih g.fork.2
    rw [partition_succ]
    exact ⟨g.handsOut_fork.append hrest, congrArg (· + 1) hlength⟩

/-- Children that are asked for in two groups are those of one group. -/
theorem partition_add (g : Generator) (n m : Nat) :
    g.partition (n + m) =
      ((g.partition n).1 ++ ((g.partition n).2.partition m).1,
        ((g.partition n).2.partition m).2) := by
  induction n generalizing g with
  | zero => rw [Nat.zero_add]; rfl
  | succ n ih =>
    rw [Nat.succ_add, partition_succ, ih, partition_succ]
    rfl

/-- A draw moves the source and nothing else. -/
theorem uniform_snd (g : Generator) : g.uniform.2 = { g with source := g.source.next.2 } := by
  simp only [uniform]

theorem between_snd (g : Generator) (low high : Float) : (g.between low high).2 = g.uniform.2 := by
  simp only [between]

theorem chance_snd (g : Generator) (percent : Float) : (g.chance percent).2 = g.uniform.2 := by
  simp only [chance]

theorem sampleIntervals_cons (i : Interval) (rest : List Interval) (g : Generator) :
    sampleIntervals (i :: rest) g =
      ((g.between i.lo i.hi).1 :: (sampleIntervals rest (g.between i.lo i.hi).2).1,
        (sampleIntervals rest (g.between i.lo i.hi).2).2) := by
  rw [sampleIntervals]

theorem handsOut_uniform (g : Generator) : g.HandsOut [] g.uniform.2 := by
  rw [uniform_snd]
  exact handsOut_of_draw rfl rfl

theorem handsOut_sampleIntervals (is : List Interval) (g : Generator) :
    g.HandsOut [] (sampleIntervals is g).2 := by
  induction is generalizing g with
  | nil => exact handsOut_of_draw rfl rfl
  | cons i rest ih =>
    rw [sampleIntervals_cons, between_snd]
    exact g.handsOut_uniform.append (ih g.uniform.2)

theorem handsOut_use (g : Generator) (u : Use) : g.HandsOut (g.use u).1 (g.use u).2 := by
  cases u with
  | partition n => exact (g.handsOut_partition n).1
  | fork => exact g.handsOut_fork
  | uniform => exact g.handsOut_uniform
  | between low high =>
    simp only [use, between_snd]
    exact g.handsOut_uniform
  | chance percent =>
    simp only [use, chance_snd]
    exact g.handsOut_uniform
  | sampleBox region => exact handsOut_sampleIntervals region.intervals g

theorem handsOut_useAll (g : Generator) (us : List Use) :
    g.HandsOut (g.useAll us).1 (g.useAll us).2 := by
  induction us generalizing g with
  | nil => exact handsOut_of_draw rfl rfl
  | cons u us ih => exact (g.handsOut_use u).append (ih (g.use u).2)

/-! ## Seeds -/

/-- The inverse of the factor among the words. -/
def factorInverse : UInt64 := 0xF1DE83E19937733D

theorem factor_mul_inverse : streamFactor * factorInverse = 1 := by decide

theorem mul_streamFactor_inj {a b : UInt64} (h : a * streamFactor = b * streamFactor) : a = b := by
  have hcancel := congrArg (· * factorInverse) h
  simpa only [UInt64.mul_assoc, factor_mul_inverse, UInt64.mul_one] using hcancel

/-- Different streams of one master seed have different seeds. -/
theorem streamSeed_inj {seed i j : UInt64} (h : streamSeed seed i = streamSeed seed j) : i = j := by
  have hproduct := (UInt64.add_right_inj seed).1 h
  exact (UInt64.add_left_inj 1).1 (mul_streamFactor_inj hproduct)

/-- A stream whose number has a successor does not have the master seed for its own. -/
theorem streamSeed_ne_seed {seed j : UInt64} (hj : j + 1 ≠ 0) : streamSeed seed j ≠ seed := by
  intro h
  have hproduct : (j + 1) * streamFactor = 0 * streamFactor := by
    rw [UInt64.zero_mul]
    exact (UInt64.add_right_inj seed).1 (h.trans (UInt64.add_zero seed).symm)
  exact hj (mul_streamFactor_inj hproduct)

/-- The seed of stream number `j`, as a number. -/
def numberedSeed (seed : UInt64) (j : Nat) : Nat :=
  (seed.toNat + (j + 1) * 0x9E3779B97F4A7C15) % UInt64.size

theorem ofNat_numberedSeed (seed : UInt64) (j : Nat) :
    UInt64.ofNat (numberedSeed seed j) = streamSeed seed (.ofNat j) := by
  rw [numberedSeed, UInt64.ofNat_mod_size, UInt64.ofNat_add, UInt64.ofNat_toNat, UInt64.ofNat_mul,
    UInt64.ofNat_add]
  rfl

theorem toNat_streamSeed (seed : UInt64) (j : Nat) :
    (streamSeed seed (.ofNat j)).toNat = numberedSeed seed j := by
  rw [← ofNat_numberedSeed, UInt64.toNat_ofNat']
  exact Nat.mod_mod _ _

/-! ## The children of a root -/

theorem useAll_append (g : Generator) (us vs : List Use) :
    g.useAll (us ++ vs) =
      ((g.useAll us).1 ++ ((g.useAll us).2.useAll vs).1, ((g.useAll us).2.useAll vs).2) := by
  induction us generalizing g with
  | nil => rfl
  | cons u us ih =>
    rw [List.cons_append, useAll, ih, useAll, List.append_assoc]

theorem useAll_partition (g : Generator) (n m : Nat) :
    g.useAll [.partition n, .partition m] = g.useAll [.partition (n + m)] := by
  simp only [useAll, use, partition_add, List.append_nil]

/-- Child number `j` of a root is a fresh generator, whose stream has that number and whose seed
comes from the master seed and that number alone, whatever the root is used for in between and in
whatever groups its children are asked for. The root counts the children that it has handed out.
No two of them share a seed, and none has that of the root, as long as there are streams left. -/
theorem numbered_children {seed : UInt64} {us : List Use} {children : List Generator}
    {root : Generator} (huse : (ofSeed seed).useAll us = (children, root))
    (hcount : children.length < UInt64.size - 1) :
    (∀ (j : Nat) (c : Generator), children[j]? = some c →
      c = ⟨seed, .ofNat j, .ofSeed (.ofNat (numberedSeed seed j))⟩ ∧ c.stream.toNat = j) ∧
    (∀ n m, (ofSeed seed).useAll (us ++ [.partition n, .partition m]) =
      (ofSeed seed).useAll (us ++ [.partition (n + m)])) ∧
    root.stream.toNat = children.length ∧
    (∀ i j, i < j → j < children.length → numberedSeed seed i ≠ numberedSeed seed j) ∧
    ∀ j < children.length, numberedSeed seed j ≠ seed.toNat := by
  have hout : (ofSeed seed).HandsOut children root := by
    have h := (ofSeed seed).handsOut_useAll us
    rwa [huse] at h
  have hsize : UInt64.size = 18446744073709551616 := rfl
  have hword : ∀ {j : Nat}, j ≤ children.length → (UInt64.ofNat j).toNat = j := by
    intro j hj
    rw [UInt64.toNat_ofNat']
    exact Nat.mod_eq_of_lt (by omega)
  have hstart : ∀ j : Nat, (ofSeed seed).stream + .ofNat j = .ofNat j := fun _ => UInt64.zero_add _
  refine ⟨?_, ?_, ?_, ?_, ?_⟩
  · intro j c hc
    have hlt : j < children.length := (List.getElem?_eq_some_iff.1 hc).1
    rw [hout.children_eq, List.getElem?_map, List.getElem?_range hlt, Option.map_some, hstart] at hc
    obtain rfl := Option.some.inj hc
    refine ⟨?_, hword (Nat.le_of_lt hlt)⟩
    rw [ofNat_numberedSeed]
    rfl
  · intro n m
    rw [useAll_append, useAll_append, useAll_partition]
  · rw [hout.stream_eq, hstart, hword (Nat.le_refl _)]
  · intro i j hij hj heq
    rw [← toNat_streamSeed, ← toNat_streamSeed] at heq
    have hstream := congrArg UInt64.toNat (streamSeed_inj (UInt64.toNat_inj.1 heq))
    rw [hword (by omega), hword (by omega)] at hstream
    omega
  · intro j hj heq
    rw [← toNat_streamSeed] at heq
    refine streamSeed_ne_seed (fun hzero => ?_) (UInt64.toNat_inj.1 heq)
    have hnext := congrArg UInt64.toNat hzero
    rw [UInt64.toNat_add, hword (Nat.le_of_lt hj)] at hnext
    simp only [UInt64.toNat_one, UInt64.toNat_zero] at hnext
    omega

/-- Three children in two groups, with draws before and between. -/
theorem numbered_children_of_draws :
    ∃ children root, (ofSeed 42).useAll
        [.uniform, .partition 2, .sampleBox ⟨[⟨0, 1⟩]⟩, .fork, .chance 10] = (children, root) ∧
      children[2]? = some ⟨42, 2, .ofSeed (.ofNat (numberedSeed 42 2))⟩ ∧
      root.stream.toNat = 3 ∧ numberedSeed 42 0 ≠ numberedSeed 42 2 ∧ numberedSeed 42 2 ≠ 42 := by
  obtain ⟨children, root, huse⟩ : ∃ children root, (ofSeed 42).useAll
      [.uniform, .partition 2, .sampleBox ⟨[⟨0, 1⟩]⟩, .fork, .chance 10] = (children, root) :=
    ⟨_, _, rfl⟩
  have hlength : children.length = 3 := (congrArg (·.1.length) huse).symm
  have hcount : 3 < UInt64.size - 1 := by decide
  obtain ⟨hchild, -, hstream, hdistinct, hroot⟩ := numbered_children huse (hlength ▸ hcount)
  have hlast : 2 < children.length := by omega
  have hlookup := List.getElem?_eq_getElem hlast
  exact ⟨children, root, huse, hlookup.trans (congrArg some (hchild 2 _ hlookup).1),
    hstream.trans hlength, hdistinct 0 2 (by decide) hlast, hroot 2 hlast⟩

end Generator

end TrajectorySafety.Random
