import TrajectorySafety.Log.Generation
import TrajectorySafety.Proofs.Log.Boxes
import TrajectorySafety.Proofs.Random.Streams
import TrajectorySafety.Proofs.Success

/-!
What a recorder writes down of a trajectory.

One state after the other takes a draw, which decides whether it is observed
(`observeLater_cons_eq_ok_iff`). Every entry of a recorded log is the observation of the state at
its time (`observed_of_record`). So its time is one of the trajectory, its box has the dimension of
the state, and its intervals are proper ones.
-/

namespace TrajectorySafety

open TrajectorySafety.Random

/-! ## Observations -/

theorem Interval.valid_of_around {center halfWidth : Float} {i : Interval}
    (h : around center halfWidth = .ok i) : i.Valid := by
  unfold around at h
  split at h
  · cases h
  · exact ((make_eq_ok_iff _ _ _).1 h).2

namespace LogRecorder

variable {r : LogRecorder}

theorem boxAround_eq_ok {k : Nat} {values : List Float} {is : List Interval}
    (h : r.boxAround k values = .ok is) : is.length = values.length ∧ ∀ i ∈ is, i.Valid := by
  induction values generalizing k is with
  | nil =>
    cases h
    exact ⟨rfl, by simp⟩
  | cons v rest ih =>
    rw [boxAround, bind_eq_ok_iff] at h
    obtain ⟨i, hi, h⟩ := h
    obtain ⟨others, hothers, h⟩ := bind_eq_ok_iff.1 h
    cases h
    obtain ⟨hlen, hvalid⟩ := ih hothers
    refine ⟨by simp [hlen], ?_⟩
    rw [List.forall_mem_cons]
    exact ⟨Interval.valid_of_around hi, hvalid⟩

/-- An observation is at its time, of the dimension of the state, and in proper intervals. -/
theorem observe_eq_ok {time : Nat} {s : State} {e : LogEntry} (h : r.observe time s = .ok e) :
    e.time = time ∧ e.region.dimension = s.dimension ∧ ∀ i ∈ e.region.intervals, i.Valid := by
  obtain ⟨is, his, h⟩ := bind_eq_ok_iff.1 h
  cases h
  obtain ⟨hlen, hvalid⟩ := boxAround_eq_ok his
  exact ⟨rfl, hlen, hvalid⟩

/-- What one state adds to the observations: a draw is taken in any case, and decides whether the
state is observed. -/
theorem observeLater_cons_eq_ok_iff {time : Nat} {s : State} {rest : List State} {g g' : Generator}
    {es : List LogEntry} :
    r.observeLater time (s :: rest) g = (.ok es, g') ↔
      ∃ others, r.observeLater (time + 1) rest g.uniform.2 = (.ok others, g') ∧
        if (g.chance r.probability).1 then ∃ e, r.observe time s = .ok e ∧ es = e :: others
        else es = others := by
  rw [observeLater]
  simp only [Generator.chance_snd]
  cases (g.chance r.probability).1 with
  | false => simp
  | true =>
    simp only [if_true]
    cases r.observe time s with
    | error fault => simp
    | ok entry =>
      cases hlater : r.observeLater (time + 1) rest g.uniform.2 with
      | mk others g'' =>
        cases others with
        | error fault => simp [Except.map]
        | ok others =>
          simp only [Except.map, Prod.mk.injEq, Except.ok.injEq, exists_eq_left']
          constructor
          · rintro ⟨rfl, rfl⟩
            exact ⟨others, ⟨rfl, rfl⟩, rfl⟩
          · rintro ⟨_, ⟨rfl, rfl⟩, rfl⟩
            exact ⟨rfl, rfl⟩

theorem observed_of_observeLater {time : Nat} {states : List State} {g g' : Generator}
    {es : List LogEntry} (h : r.observeLater time states g = (.ok es, g')) :
    ∀ e ∈ es, ∃ k s, states[k]? = some s ∧ r.observe (time + k) s = .ok e := by
  induction states generalizing time g es with
  | nil =>
    cases h
    simp
  | cons s rest ih =>
    obtain ⟨others, hothers, hes⟩ := observeLater_cons_eq_ok_iff.1 h
    -- what is observed of the rest is one step later here
    have hlater : ∀ e ∈ others, ∃ k s',
        (s :: rest)[k]? = some s' ∧ r.observe (time + k) s' = .ok e := by
      intro e he
      obtain ⟨k, s', hs', hobs⟩ := ih hothers e he
      refine ⟨k + 1, s', hs', ?_⟩
      rwa [show time + (k + 1) = time + 1 + k by omega]
    split at hes
    · obtain ⟨e, ho, rfl⟩ := hes
      rw [List.forall_mem_cons]
      exact ⟨⟨0, s, rfl, ho⟩, hlater⟩
    · rw [hes]
      exact hlater

/-- A recorded log is the observation of the first state and those of the later ones, with a
half-width that fits the first state. -/
theorem record_eq_ok_iff {t : Trajectory} {g g' : Generator} {log : UncertaintyLog} :
    r.record t g = (.ok log, g') ↔
      ∃ initial rest entry entries, t.states = initial :: rest ∧
        r.halfWidth.validate initial.dimension = .ok () ∧ r.observe 0 initial = .ok entry ∧
        r.observeLater 1 rest g = (.ok entries, g') ∧ log.entries = entry :: entries := by
  unfold record
  cases t.states with
  | nil => simp
  | cons initial rest =>
    simp only [List.cons.injEq]
    constructor
    · intro h
      split at h
      · cases h
      · next hvalid =>
        cases ho : r.observe 0 initial with
        | error fault =>
          rw [ho] at h
          cases h
        | ok entry =>
          rw [ho] at h
          obtain ⟨hlog, rfl⟩ := Prod.mk.inj h
          obtain ⟨entries, hentries, hlog⟩ := bind_eq_ok_iff.1 hlog
          exact ⟨initial, rest, entry, entries, ⟨rfl, rfl⟩, hvalid, ho, Prod.ext hentries rfl,
            UncertaintyLog.ofEntries_eq_ok_iff.1 hlog⟩
    · rintro ⟨_, _, entry, entries, ⟨rfl, rfl⟩, hvalid, ho, hlater, hlog⟩
      simp only [hvalid, ho, hlater]
      exact Prod.ext (UncertaintyLog.ofEntries_eq_ok_iff.2 hlog) rfl

/-- Every entry of a recorded log is the observation of the state at its time. -/
theorem observed_of_record {t : Trajectory} {g : Generator} {log : UncertaintyLog}
    (h : (r.record t g).1 = .ok log) :
    ∀ e ∈ log.entries, ∃ s, t.at? e.time = some s ∧ r.observe e.time s = .ok e := by
  obtain ⟨initial, rest, entry, entries, hstates, -, ho, hentries, hlog⟩ :=
    record_eq_ok_iff.1 (Prod.ext h rfl)
  have hat : ∀ k, t.at? k = (initial :: rest)[k]? := by
    intro k
    rw [← hstates]
    rfl
  rw [hlog, List.forall_mem_cons]
  constructor
  · rw [(observe_eq_ok ho).1, hat]
    exact ⟨initial, rfl, ho⟩
  · intro e he
    obtain ⟨k, s, hs, hobs⟩ := observed_of_observeLater hentries e he
    rw [(observe_eq_ok hobs).1, hat]
    refine ⟨s, ?_, hobs⟩
    rw [Nat.add_comm]
    exact hs

end LogRecorder

end TrajectorySafety
