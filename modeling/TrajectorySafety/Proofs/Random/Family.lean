import TrajectorySafety.Proofs.Random.Streams

/-!
Children of children, and when a generator repeats itself.

A family starts with a root, and whatever a member hands out joins it (`Family.use`). With every
member goes the seed that its source was made from, the generator that it was then, and the children
that it has handed out since. A child starts with its own stream number as the next one, so the
first child of a child is that child once more (`Sound.eq_start`). Nothing else has the seed of its
parent (`Sound.handedSeed_eq_origin_iff`): the seed of the root is that of no stream, and the later
children of a member are further streams. Stream numbers stay below the number of members (`Sound`),
so that none wraps before the words are used up.
-/

namespace TrajectorySafety.Random

namespace Generator

/-- The seed from which the source of a child is made when it is handed out. -/
def handedSeed (c : Generator) : UInt64 := streamSeed c.seed c.stream

@[simp] theorem handedSeed_child (seed stream : UInt64) :
    (child seed stream).handedSeed = streamSeed seed stream := rfl

theorem HandsOut.eq_child {g g' c : Generator} {children : List Generator} {k : Nat}
    (h : g.HandsOut children g') (hc : children[k]? = some c) :
    k < children.length ∧ c = child g.seed (g.stream + .ofNat k) := by
  have hlt : k < children.length := (List.getElem?_eq_some_iff.1 hc).1
  rw [h.children_eq, List.getElem?_map, List.getElem?_range hlt, Option.map_some] at hc
  exact ⟨hlt, (Option.some.inj hc).symm⟩

theorem toNat_add_ofNat_le (w : UInt64) (n : Nat) : (w + .ofNat n).toNat ≤ w.toNat + n := by
  rw [UInt64.toNat_add, UInt64.toNat_ofNat']
  omega

theorem toNat_add_ofNat {w : UInt64} {n : Nat} (h : w.toNat + n < UInt64.size) :
    (w + .ofNat n).toNat = w.toNat + n := by
  have hsize : UInt64.size = 18446744073709551616 := rfl
  rw [UInt64.toNat_add, UInt64.toNat_ofNat']
  omega

end Generator

open Generator

/-- A generator of a family: the seed that its source was made from, what it was then, what it is
now, and the children that it has handed out in between. -/
structure Member where
  origin : UInt64
  start : Generator
  now : Generator
  children : List Generator

namespace Member

/-- The root generator of a seed. -/
def root (seed : UInt64) : Member := ⟨seed, .ofSeed seed, .ofSeed seed, []⟩

/-- A child as it is handed out. -/
def ofChild (c : Generator) : Member := ⟨c.handedSeed, c, c, []⟩

/-- The member after it was used. -/
def use (m : Member) (u : Use) : Member :=
  { m with now := (m.now.use u).2, children := m.children ++ (m.now.use u).1 }

/-- What is known of the member at a position of a family: the first one is the root, the others are
streams of the seed of the root. -/
structure Descends (seed : UInt64) (i : Nat) (m : Member) : Prop where
  handsOut : m.start.HandsOut m.children m.now
  of_root : i = 0 → m.origin = seed ∧ m.start = .ofSeed seed
  of_child : i ≠ 0 → m.origin = streamSeed seed m.start.stream ∧ m.start = child seed m.start.stream

variable {seed : UInt64} {i : Nat} {m : Member}

theorem descends_root (seed : UInt64) : (root seed).Descends seed 0 where
  handsOut := handsOut_of_draw rfl rfl
  of_root _ := ⟨rfl, rfl⟩
  of_child h := absurd rfl h

theorem Descends.use (h : m.Descends seed i) (u : Use) : (m.use u).Descends seed i where
  handsOut := h.handsOut.append (m.now.handsOut_use u)
  of_root := h.of_root
  of_child := h.of_child

theorem Descends.seed_start (h : m.Descends seed i) : m.start.seed = seed := by
  by_cases hi : i = 0
  · rw [(h.of_root hi).2]
    rfl
  · rw [(h.of_child hi).2]
    rfl

theorem Descends.source_start (h : m.Descends seed i) : m.start.source = .ofSeed m.origin := by
  by_cases hi : i = 0
  · rw [(h.of_root hi).1, (h.of_root hi).2]
    rfl
  · rw [(h.of_child hi).1, (h.of_child hi).2]
    rfl

/-- The children of a member are streams of the seed, from the number on that the member starts
with. -/
theorem Descends.eq_child {k : Nat} {c : Generator} (h : m.Descends seed i)
    (hc : m.children[k]? = some c) :
    k < m.children.length ∧ c = child seed (m.start.stream + .ofNat k) := by
  have := h.handsOut.eq_child hc
  rwa [h.seed_start] at this

/-- What a member hands out next descends from the same seed. -/
theorem Descends.ofChild {u : Use} {k j : Nat} {c : Generator} (h : m.Descends seed i)
    (hc : (m.now.use u).1[k]? = some c) (hj : j ≠ 0) : (ofChild c).Descends seed j := by
  have hseed : m.now.seed = seed := h.handsOut.seed_eq.trans h.seed_start
  obtain ⟨-, rfl⟩ := (m.now.handsOut_use u).eq_child hc
  rw [hseed]
  exact ⟨handsOut_of_draw rfl rfl, fun hzero => absurd hzero hj, fun _ => ⟨rfl, rfl⟩⟩

end Member

/-- A family of generators: the root, and all that members of it have handed out. -/
abbrev Family := List Member

namespace Family

/-- The family after the member at a position was used: its children join. -/
def use (family : Family) (step : Nat × Use) : Family :=
  match family[step.1]? with
  | some m => family.set step.1 (m.use step.2) ++ (m.now.use step.2).1.map .ofChild
  | none => family

/-- The family of a seed after its members were used, one after the other and in any order. -/
def ofUses (seed : UInt64) (steps : List (Nat × Use)) : Family := steps.foldl use [.root seed]

/-- The number of children that were handed out in all. Each member but the root is one. -/
def forks (family : Family) : Nat := family.length - 1

/-- All that can be at a position after a use: what was there, the member that was used, or one of
its new children behind the others. -/
theorem getElem?_use {family : Family} {step : Nat × Use} {i : Nat} {m : Member}
    (h : (family.use step)[i]? = some m) :
    (family[i]? = some m ∧ family.length ≤ (family.use step).length) ∨
    ∃ user, family[step.1]? = some user ∧
      (family.use step).length = family.length + (user.now.use step.2).1.length ∧
      ((i = step.1 ∧ m = user.use step.2) ∨
        ∃ k c, i = family.length + k ∧ (user.now.use step.2).1[k]? = some c ∧ m = .ofChild c) := by
  rw [use] at h ⊢
  cases huser : family[step.1]? with
  | none =>
    rw [huser] at h
    exact .inl ⟨h, Nat.le_refl _⟩
  | some user =>
    have hlt : step.1 < family.length := (List.getElem?_eq_some_iff.1 huser).1
    rw [huser] at h
    simp only [List.length_append, List.length_set, List.length_map]
    rw [List.getElem?_append, List.length_set] at h
    by_cases hi : i < family.length
    · rw [if_pos hi, List.getElem?_set] at h
      by_cases hstep : step.1 = i
      · rw [if_pos hstep, if_pos hlt] at h
        exact .inr ⟨user, rfl, rfl, .inl ⟨hstep.symm, (Option.some.inj h).symm⟩⟩
      · rw [if_neg hstep] at h
        exact .inl ⟨h, by omega⟩
    · rw [if_neg hi, List.getElem?_map] at h
      obtain ⟨c, hc, rfl⟩ := Option.map_eq_some_iff.1 h
      exact .inr ⟨user, rfl, rfl, .inr ⟨i - family.length, c, by omega, hc, rfl⟩⟩

/-- Each member descends from the seed, and its stream numbers are below the number of members. -/
def Sound (seed : UInt64) (family : Family) : Prop :=
  ∀ (i : Nat) (m : Member), family[i]? = some m →
    m.Descends seed i ∧ m.start.stream.toNat + m.children.length < family.length

theorem sound_root (seed : UInt64) : Sound seed [.root seed] := by
  intro i m hm
  obtain ⟨hi, rfl⟩ := List.getElem?_eq_some_iff.1 hm
  obtain rfl : i = 0 := by simpa using hi
  exact ⟨Member.descends_root seed, Nat.one_pos⟩

theorem Sound.use {seed : UInt64} {family : Family} (h : Sound seed family) (step : Nat × Use) :
    Sound seed (family.use step) := by
  intro i m hm
  obtain ⟨hold, hlength⟩ | ⟨user, huser, hlength, hnew⟩ := getElem?_use hm
  · obtain ⟨hdescends, hstream⟩ := h i m hold
    exact ⟨hdescends, Nat.lt_of_lt_of_le hstream hlength⟩
  · obtain ⟨hdescends, hstream⟩ := h _ user huser
    rw [hlength]
    obtain ⟨rfl, rfl⟩ | ⟨k, c, rfl, hc, rfl⟩ := hnew
    · refine ⟨hdescends.use step.2, ?_⟩
      simp only [Member.use, List.length_append]
      omega
    · refine ⟨hdescends.ofChild hc (by omega), ?_⟩
      obtain ⟨hk, rfl⟩ := (user.now.handsOut_use step.2).eq_child hc
      have hnow := toNat_add_ofNat_le user.start.stream user.children.length
      rw [← hdescends.handsOut.stream_eq] at hnow
      have hchild := toNat_add_ofNat_le user.now.stream k
      simp only [Member.ofChild, child, List.length_nil]
      omega

theorem sound_ofUses (seed : UInt64) (steps : List (Nat × Use)) :
    Sound seed (ofUses seed steps) := by
  have hrun : ∀ family, Sound seed family → Sound seed (steps.foldl use family) := by
    induction steps with
    | nil => exact fun _ h => h
    | cons step steps ih => exact fun family h => ih _ (h.use step)
  exact hrun _ (sound_root seed)

section
variable {seed : UInt64} {family : Family} {i k : Nat} {m : Member} {c : Generator}

/-- No stream number has wrapped. -/
theorem Sound.toNat_stream (h : Sound seed family) (hlength : family.length < UInt64.size)
    (hm : family[i]? = some m) :
    m.now.stream.toNat = m.start.stream.toNat + m.children.length := by
  obtain ⟨hdescends, hstream⟩ := h i m hm
  rw [hdescends.handsOut.stream_eq]
  exact toNat_add_ofNat (by omega)

/-- The first child of a child has the seed of its parent, and no other child of any member has. -/
theorem Sound.handedSeed_eq_origin_iff (h : Sound seed family)
    (hlength : family.length < UInt64.size) (hm : family[i]? = some m)
    (hc : m.children[k]? = some c) : c.handedSeed = m.origin ↔ i ≠ 0 ∧ k = 0 := by
  obtain ⟨hdescends, hstream⟩ := h i m hm
  obtain ⟨hk, rfl⟩ := hdescends.eq_child hc
  have hnumber : (m.start.stream + .ofNat k).toNat = m.start.stream.toNat + k :=
    toNat_add_ofNat (by omega)
  by_cases hi : i = 0
  · -- the root starts at stream 0, whose seed is already another one
    obtain ⟨horigin, hstart⟩ := hdescends.of_root hi
    have hne : streamSeed seed (m.start.stream + .ofNat k) ≠ seed := by
      refine streamSeed_ne_seed fun hzero => ?_
      have hnext := congrArg UInt64.toNat hzero
      rw [show (1 : UInt64) = .ofNat 1 from rfl, toNat_add_ofNat (by omega), hnumber] at hnext
      exact Nat.succ_ne_zero _ hnext
    rw [horigin, handedSeed_child]
    exact ⟨fun heq => absurd heq hne, fun hchild => absurd hi hchild.1⟩
  · obtain ⟨horigin, -⟩ := hdescends.of_child hi
    rw [horigin, handedSeed_child]
    constructor
    · intro heq
      have hsame := congrArg UInt64.toNat (streamSeed_inj heq)
      exact ⟨hi, by omega⟩
    · rintro ⟨-, rfl⟩
      exact congrArg (streamSeed seed) (UInt64.toNat_inj.1 hnumber)

theorem Sound.nodup_handedSeed (h : Sound seed family) (hlength : family.length < UInt64.size)
    (hm : family[i]? = some m) : (m.children.map handedSeed).Nodup := by
  obtain ⟨hdescends, hstream⟩ := h i m hm
  rw [hdescends.handsOut.children_eq, List.map_map, List.Nodup, List.pairwise_map]
  simp only [Function.comp_apply, handedSeed_child]
  refine List.pairwise_lt_range.imp_of_mem fun hj hk hlt heq => ?_
  have hsame := congrArg UInt64.toNat (streamSeed_inj heq)
  rw [List.mem_range] at hj hk
  rw [toNat_add_ofNat (by omega), toNat_add_ofNat (by omega)] at hsame
  omega

theorem Sound.eq_start (h : Sound seed family) (hm : family[i]? = some m) (hi : i ≠ 0)
    (hc : m.children[0]? = some c) : c = m.start := by
  obtain ⟨hdescends, -⟩ := h i m hm
  rw [(hdescends.eq_child hc).2, show UInt64.ofNat 0 = 0 from rfl, UInt64.add_zero]
  exact (hdescends.of_child hi).2.symm

end

/-- The seeds in a family of fewer than `2 ^ 64 - 1` forks, whatever its members are used for. Each
source is made from the seed that goes with it, stream numbers do not wrap, and no two children of a
member share a seed. A child has the seed of its parent exactly if the parent is not the root and
the child its first one; then it is the parent as that was handed out itself. -/
theorem child_repeats_parent_iff {seed : UInt64} {steps : List (Nat × Use)}
    (hforks : (ofUses seed steps).forks < UInt64.size - 1) {i : Nat} {m : Member}
    (hm : (ofUses seed steps)[i]? = some m) :
    m.start.source = .ofSeed m.origin ∧
    m.now.stream.toNat = m.start.stream.toNat + m.children.length ∧
    (m.children.map handedSeed).Nodup ∧
    ∀ (k : Nat) (c : Generator), m.children[k]? = some c →
      c.source = .ofSeed c.handedSeed ∧ (c.handedSeed = m.origin ↔ i ≠ 0 ∧ k = 0) ∧
      (i ≠ 0 → k = 0 → c = m.start) := by
  have hsound := sound_ofUses seed steps
  have hlength : (ofUses seed steps).length < UInt64.size := by
    have hsize : UInt64.size = 18446744073709551616 := rfl
    unfold forks at hforks
    omega
  refine ⟨(hsound i m hm).1.source_start, hsound.toNat_stream hlength hm,
    hsound.nodup_handedSeed hlength hm, fun k c hc => ?_⟩
  refine ⟨?_, hsound.handedSeed_eq_origin_iff hlength hm hc, ?_⟩
  · rw [((hsound i m hm).1.eq_child hc).2]
    rfl
  · rintro hi rfl
    exact hsound.eq_start hm hi hc

/-- Of three children of a child only the first has its seed. -/
theorem children_of_child :
    ∃ m c d e, (ofUses 42 [(0, .partition 2), (2, .fork), (2, .uniform), (2, .partition 2)])[2]? =
        some m ∧ m.children = [c, d, e] ∧ c = m.start ∧ c.handedSeed = m.origin ∧
      d.handedSeed ≠ m.origin ∧ e.handedSeed ≠ m.origin ∧ m.now.stream.toNat = 4 := by
  obtain ⟨m, c, d, e, hm, hchildren, hstart⟩ : ∃ m c d e,
      (ofUses 42 [(0, .partition 2), (2, .fork), (2, .uniform), (2, .partition 2)])[2]? = some m ∧
        m.children = [c, d, e] ∧ m.start.stream = 1 := ⟨_, _, _, _, rfl, rfl, rfl⟩
  obtain ⟨-, hstream, -, hseeds⟩ := child_repeats_parent_iff (by decide) hm
  rw [hchildren] at hseeds hstream
  obtain ⟨-, hc, heq⟩ := hseeds 0 c rfl
  obtain ⟨-, hd, -⟩ := hseeds 1 d rfl
  obtain ⟨-, he, -⟩ := hseeds 2 e rfl
  have hlater : ∀ {k : Nat}, k ≠ 0 → ¬ ((2 : Nat) ≠ 0 ∧ k = 0) := fun hk h => hk h.2
  exact ⟨m, c, d, e, hm, hchildren, heq (by decide) rfl, hc.2 (by decide),
    mt hd.1 (hlater (by decide)), mt he.1 (hlater (by decide)), by rw [hstream, hstart]; rfl⟩

/-- The child of a child can be the child over again, with two forks in all. -/
theorem fork_of_fork_repeats :
    ∃ m c, (ofUses 7 [(0, .fork), (1, .fork)])[1]? = some m ∧ m.children = [c] ∧
      c.handedSeed = m.origin ∧ c = m.start ∧ (ofUses 7 [(0, .fork), (1, .fork)]).forks = 2 :=
  ⟨_, _, rfl, rfl, rfl, rfl, rfl⟩

end Family

end TrajectorySafety.Random
