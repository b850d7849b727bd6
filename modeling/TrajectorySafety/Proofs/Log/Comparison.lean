import TrajectorySafety.Proofs.Log.Recording
import TrajectorySafety.Proofs.Number.Sums

/-!
Two records of one trajectory, taken with the same draws.

A later state takes one draw, whether or not it is observed, so two recorders that start with one
generator stay in step (`iterate_of_observeLater`). One that observes less often and no wider finds
its observations among those of the other, each in its place (`record_compare`). For a smaller
chance and the same half-width they are a sublist; for the same chance and a smaller half-width they
are at the same times, in boxes that lie inside the others, since rounding keeps the order of the
ends (`around_of_le`). A log with fewer entries or wider boxes admits more trajectories
(`admits_of_inside`).
-/

namespace TrajectorySafety

open TrajectorySafety.Random

/-! ## Boxes inside boxes -/

/-- An interval that lies in another one. -/
def Interval.Inside (i j : Interval) : Prop := j.lo ≤ i.lo ∧ i.hi ≤ j.hi

/-- A box of the same dimension whose intervals lie in those of another one. -/
def Box.Inside (b c : Box) : Prop := List.Forall₂ Interval.Inside b.intervals c.intervals

/-- An observation at the same time, in a box that lies in that of another one. -/
def LogEntry.Inside (e f : LogEntry) : Prop := e.time = f.time ∧ e.region.Inside f.region

theorem Interval.contains_of_inside {i j : Interval} (h : i.Inside j) {x : Float}
    (hx : i.contains x = true) : j.contains x = true := by
  rw [contains_iff] at hx ⊢
  exact ⟨Number.le_trans h.1 hx.1, Number.le_trans hx.2 h.2⟩

theorem Box.dimension_of_inside {b c : Box} (h : b.Inside c) : b.dimension = c.dimension :=
  h.length_eq

theorem Box.contains_of_inside {b c : Box} (h : b.Inside c) {s : State}
    (hs : b.contains s = true) : c.contains s = true := by
  rw [contains_iff] at hs ⊢
  refine ⟨hs.1.trans h.length_eq, fun k j x hj hx => ?_⟩
  have hlt : k < b.intervals.length := by
    rw [h.length_eq]
    exact (List.getElem?_eq_some_iff.1 hj).1
  have hi : b.interval? k = some b.intervals[k] := List.getElem?_eq_getElem hlt
  obtain ⟨hlt', rfl⟩ := List.getElem?_eq_some_iff.1 hj
  exact Interval.contains_of_inside (h.get hlt hlt') (hs.2 k _ x hi hx)

/-- A trajectory that agrees with a log agrees with every log whose boxes hold boxes of it at the
same times. -/
theorem UncertaintyLog.admits_of_inside {log wider : UncertaintyLog} {t : Trajectory}
    (h : ∀ f ∈ wider.entries, ∃ e ∈ log.entries, e.Inside f) (ht : log.admits t = true) :
    wider.admits t = true := by
  rw [admits_iff] at ht ⊢
  intro f hf
  obtain ⟨e, he, htime, hregion⟩ := h f hf
  obtain ⟨s, hs, hin⟩ := ht e he
  exact ⟨s, htime ▸ hs, Box.contains_of_inside hregion hin⟩

theorem UncertaintyLog.admits_of_subset {log fewer : UncertaintyLog} {t : Trajectory}
    (h : fewer.entries ⊆ log.entries) (ht : log.admits t = true) : fewer.admits t = true := by
  rw [admits_iff] at ht ⊢
  exact fun e he => ht e (h he)

/-! ## Half-widths -/

/-- A smaller half-width around the same centre gives an interval inside. -/
theorem Interval.around_of_le {center halfWidth wider : Float} {j : Interval}
    (h : around center wider = .ok j) (husable : HalfWidth.usable halfWidth = true)
    (hle : halfWidth ≤ wider) : ∃ i, around center halfWidth = .ok i ∧ i.Inside j := by
  unfold around at h ⊢
  rw [HalfWidth.usable, Bool.and_eq_true, Bool.not_eq_true', decide_eq_false_iff_not] at husable
  obtain ⟨hfinite, hnegative⟩ := husable
  rw [if_neg hnegative]
  split at h
  · cases h
  obtain ⟨rfl, hlo, hhi, -⟩ := (make_eq_ok_iff _ _ _).1 h
  obtain ⟨hcenter, hwider⟩ := Number.isFinite_of_sub hlo
  have hnonneg : 0 ≤ halfWidth :=
    Number.le_of_not_lt (by decide) (Number.isNaN_of_isFinite hfinite) hnegative
  have hbelow := Number.sub_le hcenter hfinite hnonneg
  have habove := Number.le_add hcenter hfinite hnonneg
  have hlower := Number.sub_anti_right hcenter hfinite hwider hle
  have hupper := Number.add_mono_right hcenter hfinite hwider hle
  refine ⟨⟨center - halfWidth, center + halfWidth⟩, (make_eq_ok_iff _ _ _).2 ⟨rfl, ?_⟩, hlower,
    hupper⟩
  exact ⟨Number.isFinite_of_between hlo hcenter hlower hbelow,
    Number.isFinite_of_between hcenter hhi habove hupper, Number.le_trans hbelow habove⟩

/-- An accepted half-width can be used for every coordinate. -/
theorem HalfWidth.usable_of_validate {h : HalfWidth} {dimension : Nat}
    (hvalid : h.validate dimension = .ok ()) : ∀ i < dimension, usable (h.get i) = true := by
  intro i hi
  cases h with
  | uniform h =>
    rw [validate] at hvalid
    split at hvalid
    · assumption
    · cases hvalid
  | perDimension hs =>
    rw [validate] at hvalid
    split at hvalid
    · cases hvalid
    next hlength =>
      split at hvalid
      · cases hvalid
      next hnone =>
        have hlt : i < hs.length := by omega
        have hget : (perDimension hs).get i = hs[i] := by
          rw [get, List.getD_eq_getElem?_getD, List.getElem?_eq_getElem hlt, Option.getD_some]
        rw [hget]
        simpa using List.find?_eq_none.1 hnone _ (List.getElem_mem hlt)

namespace LogRecorder

variable {r r' : LogRecorder}

/-- The chance of an observation plays no role for what is observed. -/
theorem boxAround_congr (h : r.halfWidth = r'.halfWidth) (k : Nat) (values : List Float) :
    r.boxAround k values = r'.boxAround k values := by
  induction values generalizing k with
  | nil => rfl
  | cons v rest ih => rw [boxAround, boxAround, h, ih]

theorem observe_congr (h : r.halfWidth = r'.halfWidth) (time : Nat) (s : State) :
    r.observe time s = r'.observe time s := by
  rw [observe, observe, boxAround_congr h]

theorem boxAround_of_le {k : Nat} {values : List Float} {js : List Interval}
    (h : r'.boxAround k values = .ok js)
    (husable : ∀ i < k + values.length, HalfWidth.usable (r.halfWidth.get i) = true)
    (hle : ∀ i < k + values.length, r.halfWidth.get i ≤ r'.halfWidth.get i) :
    ∃ is, r.boxAround k values = .ok is ∧ List.Forall₂ Interval.Inside is js := by
  induction values generalizing k js with
  | nil =>
    cases h
    exact ⟨[], rfl, .nil⟩
  | cons v rest ih =>
    rw [boxAround, bind_eq_ok_iff] at h
    obtain ⟨j, hj, h⟩ := h
    obtain ⟨others, hothers, h⟩ := bind_eq_ok_iff.1 h
    cases h
    have hlength : k + 1 + rest.length = k + (v :: rest).length := by
      rw [List.length_cons]
      omega
    have hk : k < k + (v :: rest).length := by
      rw [List.length_cons]
      omega
    obtain ⟨i, hi, hinside⟩ := Interval.around_of_le hj (husable k hk) (hle k hk)
    obtain ⟨is, his, hrest⟩ := ih hothers (hlength ▸ husable) (hlength ▸ hle)
    refine ⟨i :: is, ?_, .cons hinside hrest⟩
    rw [boxAround, bind_eq_ok_iff]
    exact ⟨i, hi, bind_eq_ok_iff.2 ⟨is, his, rfl⟩⟩

theorem observe_of_le {time : Nat} {s : State} {f : LogEntry} (h : r'.observe time s = .ok f)
    (husable : ∀ i < s.dimension, HalfWidth.usable (r.halfWidth.get i) = true)
    (hle : ∀ i < s.dimension, r.halfWidth.get i ≤ r'.halfWidth.get i) :
    ∃ e, r.observe time s = .ok e ∧ e.Inside f := by
  obtain ⟨js, hjs, h⟩ := bind_eq_ok_iff.1 h
  cases h
  have hzero : 0 + s.coordinates.length = s.dimension := Nat.zero_add _
  obtain ⟨is, his, hinside⟩ := boxAround_of_le hjs (hzero ▸ husable) (hzero ▸ hle)
  exact ⟨⟨⟨is⟩, time⟩, bind_eq_ok_iff.2 ⟨is, his, rfl⟩, rfl, hinside⟩

/-! ## Draws -/

/-- Every state after the first takes exactly one draw. -/
theorem iterate_of_observeLater {time : Nat} {states : List State} {g g' : Generator}
    {es : List LogEntry} (h : r.observeLater time states g = (.ok es, g')) :
    g' = (fun g : Generator => g.uniform.2)^[states.length] g := by
  induction states generalizing time g es with
  | nil =>
    cases h
    rfl
  | cons s rest ih =>
    obtain ⟨others, hothers, -⟩ := observeLater_cons_eq_ok_iff.1 h
    rw [List.length_cons, Function.iterate_succ_apply]
    exact ih hothers

/-- What happens with a smaller chance happens with a larger one. -/
theorem chance_mono {p q : Float} (h : p ≤ q) (g : Generator)
    (hseen : (g.chance p).1 = true) : (g.chance q).1 = true := by
  have hlt : g.uniform.1 * 100 < p := of_decide_eq_true hseen
  exact decide_eq_true (Number.lt_of_lt_of_le hlt h)

/-! ## Records in step -/

section
variable {R : LogEntry → LogEntry → Prop} {n : Nat}

/-- Observations that are taken less often, of states of one dimension whose observations
correspond, correspond to some of those that are taken more often, and to all of them if the chance
is the same. -/
theorem observeLater_compare
    (hseen : ∀ g : Generator, (g.chance r.probability).1 = true →
      (g.chance r'.probability).1 = true)
    (hobserve : ∀ time s f, r'.observe time s = .ok f → f.region.dimension = n →
      ∃ e, r.observe time s = .ok e ∧ R e f)
    {time : Nat} {states : List State} {g g' : Generator} {fs : List LogEntry}
    (h : r'.observeLater time states g = (.ok fs, g'))
    (hdimension : ∀ f ∈ fs, f.region.dimension = n) :
    ∃ es, r.observeLater time states g = (.ok es, g') ∧ List.SublistForall₂ R es fs ∧
      (r.probability = r'.probability → es.length = fs.length) := by
  induction states generalizing time g fs with
  | nil =>
    cases h
    exact ⟨[], rfl, .nil, fun _ => rfl⟩
  | cons s rest ih =>
    obtain ⟨others, hothers, hfs⟩ := observeLater_cons_eq_ok_iff.1 h
    by_cases hoften : (g.chance r'.probability).1 = true
    · rw [if_pos hoften] at hfs
      obtain ⟨f, hf, rfl⟩ := hfs
      rw [List.forall_mem_cons] at hdimension
      obtain ⟨es, hes, hsub, hlength⟩ := ih hothers hdimension.2
      by_cases hrare : (g.chance r.probability).1 = true
      · obtain ⟨e, he, hR⟩ := hobserve time s f hf hdimension.1
        refine ⟨e :: es, observeLater_cons_eq_ok_iff.2 ⟨es, hes, ?_⟩, .cons hR hsub, fun heq => ?_⟩
        · rw [if_pos hrare]
          exact ⟨e, he, rfl⟩
        · rw [List.length_cons, List.length_cons, hlength heq]
      · refine ⟨es, observeLater_cons_eq_ok_iff.2 ⟨es, hes, ?_⟩, .cons_right hsub, fun heq => ?_⟩
        · rw [if_neg hrare]
        · exact absurd (heq ▸ hoften) hrare
    · rw [if_neg hoften] at hfs
      subst hfs
      have hrare : ¬ (g.chance r.probability).1 = true := fun hs => hoften (hseen g hs)
      obtain ⟨es, hes, hrest⟩ := ih hothers hdimension
      refine ⟨es, observeLater_cons_eq_ok_iff.2 ⟨es, hes, ?_⟩, hrest⟩
      rw [if_neg hrare]

/-- Lists that correspond in what a function sees have the same image. -/
theorem map_eq_of_forall₂ {α β : Type} {S : α → α → Prop} {l l' : List α} {φ : α → β}
    (h : List.Forall₂ S l l') (hφ : ∀ a b, S a b → φ a = φ b) : l.map φ = l'.map φ := by
  rw [← List.forall₂_eq_eq_eq, List.forall₂_map_left_iff, List.forall₂_map_right_iff]
  exact h.imp hφ

/-- Entries that correspond to some of a log, the first to the first, at the same times and in boxes
of the same dimension, are a log. -/
theorem faultless_of_sublist {e f : LogEntry} {es fs : List LogEntry}
    (hshape : ∀ e f, R e f → e.time = f.time ∧ e.region.dimension = f.region.dimension)
    (hfirst : R e f) (h : List.SublistForall₂ R es fs) (hlog : LogEntry.fault? (f :: fs) = none) :
    LogEntry.fault? (e :: es) = none := by
  obtain ⟨kept, hkept, hsub⟩ := List.sublistForall₂_iff.1 h
  have htimes : (e :: es).map LogEntry.time = (f :: kept).map LogEntry.time :=
    map_eq_of_forall₂ (List.Forall₂.cons hfirst hkept) fun a b hR => (hshape a b hR).1
  have hdimensions : es.map (·.region.dimension) = kept.map (·.region.dimension) :=
    map_eq_of_forall₂ hkept fun a b hR => (hshape a b hR).2
  rw [LogEntry.fault?_eq_none_iff] at hlog ⊢
  obtain ⟨hstart, hpositive, hincreasing, hsame⟩ := hlog
  refine ⟨(hshape e f hfirst).1.trans hstart, ?_, ?_, ?_⟩
  · rw [(hshape e f hfirst).2]
    exact hpositive
  · rw [← List.pairwise_map (R := (· < ·)), htimes, List.pairwise_map]
    exact hincreasing.sublist (hsub.cons_cons f)
  · rw [(hshape e f hfirst).2]
    have hkeptDimensions : ∀ d ∈ kept.map (·.region.dimension), d = f.region.dimension :=
      List.forall_mem_map.2 fun b hb => hsame b (hsub.subset hb)
    rw [← hdimensions] at hkeptDimensions
    exact List.forall_mem_map.1 hkeptDimensions

/-- Where a record can be taken, one can also be taken less often, with observations that correspond
to those of the first state's dimension; both leave the same generator. -/
theorem record_compare
    (hseen : ∀ g : Generator, (g.chance r.probability).1 = true →
      (g.chance r'.probability).1 = true)
    (hshape : ∀ e f, R e f → e.time = f.time ∧ e.region.dimension = f.region.dimension)
    {t : Trajectory} {g g' : Generator} {log' : UncertaintyLog}
    (hvalid : ∀ s, t.initial? = some s → r.halfWidth.validate s.dimension = .ok ())
    (hobserve : ∀ s₀, t.initial? = some s₀ → ∀ time s f, r'.observe time s = .ok f →
      f.region.dimension = s₀.dimension → ∃ e, r.observe time s = .ok e ∧ R e f)
    (h : r'.record t g = (.ok log', g')) :
    ∃ log, r.record t g = (.ok log, g') ∧ List.SublistForall₂ R log.entries log'.entries ∧
      (r.probability = r'.probability → log.entries.length = log'.entries.length) := by
  obtain ⟨initial, rest, f, fs, hstates, -, hf, hfs, hlog'⟩ := record_eq_ok_iff.1 h
  have hinitial : t.initial? = some initial := by
    rw [Trajectory.initial?, hstates]
    rfl
  have hfirst := (observe_eq_ok hf).2.1
  have hfaultless := log'.faultless
  rw [hlog'] at hfaultless
  have hdimension : ∀ a ∈ fs, a.region.dimension = initial.dimension := fun a ha =>
    (((LogEntry.fault?_eq_none_iff f fs).1 hfaultless).2.2.2 a ha).trans hfirst
  obtain ⟨e, he, hR⟩ := hobserve initial hinitial 0 initial f hf hfirst
  obtain ⟨es, hes, hsub, hlength⟩ :=
    observeLater_compare hseen (hobserve initial hinitial) hfs hdimension
  refine ⟨⟨e :: es, faultless_of_sublist hshape hR hsub hfaultless⟩, ?_, ?_, ?_⟩
  · exact record_eq_ok_iff.2
      ⟨initial, rest, e, es, hstates, hvalid initial hinitial, he, hes, rfl⟩
  · rw [hlog']
    exact .cons hR hsub
  · intro heq
    rw [hlog', List.length_cons, List.length_cons, hlength heq]

end

/-- With a smaller chance and the same half-width the record is a sublist. -/
theorem record_of_smaller_chance {t : Trajectory} {g g' : Generator} {log' : UncertaintyLog}
    (hwidth : r.halfWidth = r'.halfWidth) (hp : r.probability ≤ r'.probability)
    (h : r'.record t g = (.ok log', g')) :
    ∃ log, r.record t g = (.ok log, g') ∧ log.entries.Sublist log'.entries := by
  have hvalid : ∀ s, t.initial? = some s → r.halfWidth.validate s.dimension = .ok () := by
    intro s hs
    obtain ⟨initial, rest, -, -, hstates, hvalid, -⟩ := record_eq_ok_iff.1 h
    rw [Trajectory.initial?, hstates] at hs
    obtain rfl := Option.some.inj hs
    rwa [hwidth]
  have hobserve : ∀ s₀, t.initial? = some s₀ → ∀ time s f, r'.observe time s = .ok f →
      f.region.dimension = s₀.dimension → ∃ e, r.observe time s = .ok e ∧ e = f := by
    intro s₀ _ time s f hf _
    exact ⟨f, (observe_congr hwidth time s).trans hf, rfl⟩
  have hshape : ∀ e f : LogEntry, e = f →
      e.time = f.time ∧ e.region.dimension = f.region.dimension := by
    intro e f hef
    rw [hef]
    exact ⟨rfl, rfl⟩
  obtain ⟨log, hlog, hsub, -⟩ := record_compare (chance_mono hp) hshape hvalid hobserve h
  obtain ⟨kept, hkept, hsub⟩ := List.sublistForall₂_iff.1 hsub
  rw [List.forall₂_eq_eq_eq] at hkept
  exact ⟨log, hlog, hkept ▸ hsub⟩

/-- With the same chance and a smaller half-width the record is at the same times, in boxes that lie
inside the others. -/
theorem record_of_smaller_width {t : Trajectory} {g g' : Generator} {log' : UncertaintyLog}
    (hp : r.probability = r'.probability)
    (hvalid : ∀ s, t.initial? = some s → r.halfWidth.validate s.dimension = .ok ())
    (hle : ∀ s, t.initial? = some s → ∀ i < s.dimension, r.halfWidth.get i ≤ r'.halfWidth.get i)
    (h : r'.record t g = (.ok log', g')) :
    ∃ log, r.record t g = (.ok log, g') ∧
      List.Forall₂ LogEntry.Inside log.entries log'.entries := by
  have hobserve : ∀ s₀, t.initial? = some s₀ → ∀ time s f, r'.observe time s = .ok f →
      f.region.dimension = s₀.dimension → ∃ e, r.observe time s = .ok e ∧ e.Inside f := by
    intro s₀ hs₀ time s f hf hdimension
    have hs : s.dimension = s₀.dimension := (observe_eq_ok hf).2.1.symm.trans hdimension
    exact observe_of_le hf (hs ▸ HalfWidth.usable_of_validate (hvalid s₀ hs₀)) (hs ▸ hle s₀ hs₀)
  obtain ⟨log, hlog, hsub, hlength⟩ := record_compare (fun g hseen => hp ▸ hseen)
    (fun e f hef => ⟨hef.1, Box.dimension_of_inside hef.2⟩) hvalid hobserve h
  obtain ⟨kept, hkept, hsub⟩ := List.sublistForall₂_iff.1 hsub
  have hall : kept = log'.entries :=
    hsub.eq_of_length (hkept.length_eq.symm.trans (hlength hp))
  exact ⟨log, hlog, hall ▸ hkept⟩

theorem draws_of_record {t : Trajectory} {g g' : Generator} {log : UncertaintyLog}
    (h : r.record t g = (.ok log, g')) :
    g' = (fun g : Generator => g.uniform.2)^[t.length - 1] g := by
  obtain ⟨initial, rest, -, entries, hstates, -, -, hlater, -⟩ := record_eq_ok_iff.1 h
  rw [Trajectory.length, hstates, List.length_cons, Nat.add_sub_cancel]
  exact iterate_of_observeLater hlater

/-- Records of one trajectory with one generator are monotone. A smaller chance gives a sublist of
the entries, and so a log that admits more. A smaller half-width, in every coordinate of the first
state, gives entries at the same times in boxes inside the others, and so a log that admits less. In
either case there is a record if there is the other one, and every record takes exactly one draw for
each state after the first. -/
theorem record_monotone (t : Trajectory) (g : Generator) :
    (∀ (r r' : LogRecorder) (log' : UncertaintyLog), r.halfWidth = r'.halfWidth →
      r.probability ≤ r'.probability → (r'.record t g).1 = .ok log' →
      ∃ log, (r.record t g).1 = .ok log ∧ log.entries.Sublist log'.entries ∧
        ∀ u, log'.admits u = true → log.admits u = true) ∧
    (∀ (r r' : LogRecorder) (log' : UncertaintyLog), r.probability = r'.probability →
      (∀ s, t.initial? = some s → r.halfWidth.validate s.dimension = .ok ()) →
      (∀ s, t.initial? = some s → ∀ i < s.dimension, r.halfWidth.get i ≤ r'.halfWidth.get i) →
      (r'.record t g).1 = .ok log' →
      ∃ log, (r.record t g).1 = .ok log ∧
        log.entries.map LogEntry.time = log'.entries.map LogEntry.time ∧
        List.Forall₂ (fun e f => e.region.Inside f.region) log.entries log'.entries ∧
        ∀ u, log.admits u = true → log'.admits u = true) ∧
    ∀ (r : LogRecorder) (log : UncertaintyLog), (r.record t g).1 = .ok log →
      (r.record t g).2 = (fun g : Generator => g.uniform.2)^[t.length - 1] g := by
  refine ⟨?_, ?_, ?_⟩
  · intro r r' log' hwidth hp h
    obtain ⟨log, hlog, hsub⟩ := record_of_smaller_chance hwidth hp (Prod.ext h rfl)
    exact ⟨log, congrArg Prod.fst hlog, hsub,
      fun u hu => UncertaintyLog.admits_of_subset hsub.subset hu⟩
  · intro r r' log' hp hvalid hle h
    obtain ⟨log, hlog, hinside⟩ := record_of_smaller_width hp hvalid hle (Prod.ext h rfl)
    refine ⟨log, congrArg Prod.fst hlog, map_eq_of_forall₂ hinside fun e f hef => hef.1,
      hinside.imp fun e f hef => hef.2, fun u hu => ?_⟩
    refine UncertaintyLog.admits_of_inside (fun f hf => ?_) hu
    obtain ⟨k, hk, rfl⟩ := List.getElem_of_mem hf
    have hk' : k < log.entries.length := by rwa [hinside.length_eq]
    exact ⟨log.entries[k], List.getElem_mem hk', hinside.get hk' hk⟩
  · intro r log h
    exact draws_of_record (Prod.ext h rfl)

/-- A trajectory of four states. -/
def wandering : Trajectory := .complete [⟨[0.1]⟩, ⟨[1.3]⟩, ⟨[2.7]⟩, ⟨[0.4]⟩]

/-- Of the entries at times 0, 2 and 3 a smaller chance keeps the first and the last, and a smaller
half-width keeps all of them. -/
theorem record_wandering :
    ∃ log rare narrow, ((mk 40 (.uniform 0.3)).record wandering (.ofSeed 3)).1 = .ok log ∧
      ((mk 20 (.uniform 0.3)).record wandering (.ofSeed 3)).1 = .ok rare ∧
      ((mk 40 (.perDimension [0.2])).record wandering (.ofSeed 3)).1 = .ok narrow ∧
      log.entries.map LogEntry.time = [0, 2, 3] ∧ rare.entries.Sublist log.entries ∧
      narrow.entries.map LogEntry.time = [0, 2, 3] ∧
      List.Forall₂ (fun e f => e.region.Inside f.region) narrow.entries log.entries ∧
      ((mk 20 (.uniform 0.3)).record wandering (.ofSeed 3)).2 =
        ((mk 40 (.uniform 0.3)).record wandering (.ofSeed 3)).2 := by
  obtain ⟨log, hlog, htimes⟩ : ∃ log,
      ((mk 40 (.uniform 0.3)).record wandering (.ofSeed 3)).1 = .ok log ∧
        (log.entries.map LogEntry.time == [0, 2, 3]) = true := exists_ok_of_any (by decide +kernel)
  have htimes := beq_iff_eq.1 htimes
  obtain ⟨hchance, hwidth, hdraws⟩ := record_monotone wandering (.ofSeed 3)
  obtain ⟨rare, hrare, hsub, -⟩ :=
    hchance (mk 20 (.uniform 0.3)) (mk 40 (.uniform 0.3)) log rfl (by decide +kernel) hlog
  have hinitial : ∀ s, wandering.initial? = some s → s = ⟨[0.1]⟩ := by
    intro s hs
    exact (Option.some.inj hs).symm
  have hvalid : (HalfWidth.perDimension [0.2]).validate 1 = .ok () := by
    rw [HalfWidth.validate, if_neg (by decide), List.find?_eq_none.2 (by decide +kernel)]
  obtain ⟨narrow, hnarrow, hnarrowTimes, hinside, -⟩ :=
    hwidth (mk 40 (.perDimension [0.2])) (mk 40 (.uniform 0.3)) log rfl
      (fun s hs => hinitial s hs ▸ hvalid)
      (fun s hs => hinitial s hs ▸ (by decide +kernel)) hlog
  exact ⟨log, rare, narrow, hlog, hrare, hnarrow, htimes, hsub, hnarrowTimes.trans htimes, hinside,
    (hdraws _ rare hrare).trans (hdraws _ log hlog).symm⟩

end LogRecorder

end TrajectorySafety
