import Mathlib.Data.List.Nodup
import TrajectorySafety.Proofs.Success
import TrajectorySafety.Safety.Constraint

/-!
Declared constraints and what they are resolved to.

What a record means is said without the resolver (`Means`), and so is what makes a field of it
unusable (`Usable`). A record is resolved to its meaning or fails with its first unusable field
(`resolveRecord_cases`), and a list of records to their meanings or with the first of them that has
one (`resolveFrom_cases`). Under distinct names it makes no difference whether a variable is given
by its name or its position (`resolveFrom_of_replaced`).
-/

namespace TrajectorySafety

/-- The fields of a declared constraint. -/
inductive RecordField where
  | state
  | op
  | value
deriving DecidableEq

namespace RecordField

def text : RecordField → String
  | state => "state"
  | op => "op"
  | value => "value"

/-- Variables are looked at first, then operators, then thresholds. -/
def place : RecordField → Nat
  | state => 0
  | op => 1
  | value => 2

/-- Where a field of record `i` stands among all settings. -/
def path (i : Nat) (f : RecordField) : String := s!"safety.constraints[{i}].{f.text}"

end RecordField

namespace ConstraintSpec

/-! ## Variables -/

/-- A listed name, or an index inside the table of names; with an empty table any index. -/
def Resolvable (names : List String) : StateVariable → Prop
  | .index c => names = [] ∨ c < names.length
  | .name n => n ∈ names

/-- The coordinate of a variable: an index that can be resolved itself, or the only position at
which a name stands. -/
def Denotes (names : List String) : StateVariable → Nat → Prop
  | .index d, c => (names = [] ∨ d < names.length) ∧ c = d
  | .name n, c => ∀ d, names[d]? = some n ↔ d = c

theorem firstRepeated_eq_none_iff {seen names : List String} :
    firstRepeated seen names = none ↔ names.Nodup ∧ ∀ n ∈ names, n ∉ seen := by
  induction names generalizing seen with
  | nil => simp [firstRepeated]
  | cons n names ih =>
    rw [firstRepeated, List.nodup_cons, List.forall_mem_cons]
    by_cases hn : n ∈ seen
    · simp [hn]
    · have hseen : seen.contains n = false := by simpa using hn
      rw [hseen, if_neg Bool.false_ne_true, ih]
      constructor
      · rintro ⟨hnames, hrest⟩
        refine ⟨⟨fun hmem => hrest n hmem List.mem_cons_self, hnames⟩, hn, fun m hm hmem => ?_⟩
        exact hrest m hm (List.mem_cons_of_mem n hmem)
      · rintro ⟨⟨hfresh, hnames⟩, -, hrest⟩
        refine ⟨hnames, fun m hm hmem => ?_⟩
        rcases List.mem_cons.1 hmem with rfl | hmem
        · exact hfresh hm
        · exact hrest m hm hmem

/-- Among distinct names each has one position. -/
theorem denotes_name_iff {names : List String} (h : names.Nodup) {n : String} {c : Nat} :
    Denotes names (.name n) c ↔ names[c]? = some n := by
  constructor
  · intro hc
    exact (hc c).2 rfl
  · intro hc d
    obtain ⟨hlt, -⟩ := List.getElem?_eq_some_iff.1 hc
    rw [← hc, eq_comm, List.getElem?_inj hlt h, eq_comm]

theorem Denotes.resolvable {names : List String} {v : StateVariable} {c : Nat}
    (h : Denotes names v c) : Resolvable names v := by
  cases v with
  | index d => exact h.1
  | name n => exact List.mem_of_getElem? ((h c).2 rfl)

theorem exists_denotes {names : List String} (h : names.Nodup) {v : StateVariable}
    (hv : Resolvable names v) : ∃ c, Denotes names v c := by
  cases v with
  | index d => exact ⟨d, hv, rfl⟩
  | name n =>
    obtain ⟨c, hc⟩ := List.mem_iff_getElem?.1 hv
    exact ⟨c, (denotes_name_iff h).2 hc⟩

theorem resolveVariable_of_denotes {names : List String} {v : StateVariable} {c : Nat}
    (h : Denotes names v c) (i : Nat) : resolveVariable names i v = .ok c := by
  cases v with
  | index d =>
    obtain ⟨hd, rfl⟩ := h
    have hinside : (!names.isEmpty && decide (names.length ≤ c)) = false := by
      rcases hd with rfl | hd
      · rfl
      · simp [Nat.not_le.2 hd]
    rw [resolveVariable, hinside]
    rfl
  | name n =>
    have hposition : names.idxOf? n = some c := by
      obtain ⟨hlt, hn⟩ := List.getElem?_eq_some_iff.1 ((h c).2 rfl)
      refine List.idxOf?_eq_some_iff.2 ⟨hlt, hn, fun j hj hn => ?_⟩
      exact Nat.ne_of_lt hj ((h j).1 (List.getElem?_eq_some_iff.2 ⟨Nat.lt_trans hj hlt, hn⟩))
    simp only [resolveVariable, hposition]

/-! ## Records -/

/-- What each field of a record must be. -/
def Usable (names : List String) (r : ConstraintRecord) : RecordField → Prop
  | .state => Resolvable names r.state
  | .op => ∃ op, Operator.parse r.op = .ok op
  | .value => ∃ threshold, r.value = some threshold

/-- The constraint that a record declares. -/
structure Means (names : List String) (r : ConstraintRecord) (c : Constraint) : Prop where
  coordinate : Denotes names r.state c.coordinate
  op : Operator.parse r.op = .ok c.op
  threshold : r.value = some c.threshold

/-- The first field of a record that cannot be used. -/
structure FailsAt (names : List String) (r : ConstraintRecord) (f : RecordField) : Prop where
  unusable : ¬ Usable names r f
  first : ∀ g : RecordField, g.place < f.place → Usable names r g

/-- What is wrong with a field of record `i`. -/
def fieldFault (names : List String) (i : Nat) (r : ConstraintRecord) : RecordField → Fault
  | .state =>
    match r.state with
    | .index c => .variableIndex i c names.length
    | .name n => .unknownVariable i n
  | .op => .recordOperator i (Operator.normalise r.op)
  | .value => .missingThreshold i

theorem Means.usable {names : List String} {r : ConstraintRecord} {c : Constraint}
    (h : Means names r c) (f : RecordField) : Usable names r f := by
  cases f with
  | state => exact h.coordinate.resolvable
  | op => exact ⟨c.op, h.op⟩
  | value => exact ⟨c.threshold, h.threshold⟩

/-- A fault names the record and the field that it is about. -/
theorem exists_message_fieldFault (names : List String) (i : Nat) (r : ConstraintRecord)
    (f : RecordField) :
    ∃ detail, (fieldFault names i r f).message = f.path i ++ ": " ++ detail := by
  unfold RecordField.path
  simp only [← String.toList_inj, String.toList_append, List.append_assoc]
  -- the wording is opened by its value: `Fault.message` has too many equations to rewrite with
  cases f with
  | state =>
    obtain ⟨state, op, value⟩ := r
    cases state with
    | index c =>
      refine ⟨s!"index {c} outside state_vars (len {names.length})", ?_⟩
      change (s!"safety.constraints[{i}].state: index {c} outside state_vars (len {names.length})" :
        String).toList = _
      simp only [String.toList_append, List.append_assoc]
      rfl
    | name n =>
      refine ⟨s!"unknown state variable '{n}'", ?_⟩
      change (s!"safety.constraints[{i}].state: unknown state variable '{n}'").toList = _
      simp only [String.toList_append, List.append_assoc]
      rfl
  | op =>
    refine ⟨"Configuration error: " ++ unknownOperatorMessage (Operator.normalise r.op), ?_⟩
    change (s!"safety.constraints[{i}].op: Configuration error: " ++
      unknownOperatorMessage (Operator.normalise r.op)).toList = _
    simp only [String.toList_append, List.append_assoc]
    rfl
  | value =>
    refine ⟨"missing numeric threshold", ?_⟩
    change (s!"safety.constraints[{i}].value: missing numeric threshold").toList = _
    simp only [String.toList_append, List.append_assoc]
    rfl

theorem resolveVariable_of_not_resolvable {names : List String} {r : ConstraintRecord}
    (h : ¬ Resolvable names r.state) (i : Nat) :
    resolveVariable names i r.state = .error (fieldFault names i r .state) := by
  unfold fieldFault
  cases hr : r.state with
  | index c =>
    rw [hr] at h
    obtain ⟨hnames, hc⟩ := not_or.1 h
    have houtside : (!names.isEmpty && decide (names.length ≤ c)) = true := by
      simp [hnames, Nat.not_lt.1 hc]
    rw [resolveVariable, houtside]
    rfl
  | name n =>
    rw [hr] at h
    simp only [resolveVariable, List.idxOf?_eq_none_iff.2 h]

/-- A record is resolved to what it means, or its first unusable field is reported. -/
theorem resolveRecord_cases {names : List String} (h : names.Nodup) (i : Nat)
    (r : ConstraintRecord) :
    (∃ c, Means names r c ∧ resolveRecord names i r = .ok c) ∨
      ∃ f, FailsAt names r f ∧ resolveRecord names i r = .error (fieldFault names i r f) := by
  by_cases hstate : Resolvable names r.state
  · obtain ⟨c, hc⟩ := exists_denotes h hstate
    have hvariable := resolveVariable_of_denotes hc i
    cases hop : Operator.parse r.op with
    | error fault =>
      refine .inr ⟨.op, ⟨fun ⟨op, hok⟩ => ?_, fun g hg => ?_⟩, ?_⟩
      · cases hop.symm.trans hok
      · cases g with
        | state => exact hstate
        | op => exact absurd hg (by decide)
        | value => exact absurd hg (by decide)
      · simp [resolveRecord, hvariable, hop, bind, Except.bind, fieldFault]
    | ok op =>
      cases hvalue : r.value with
      | none =>
        refine .inr ⟨.value, ⟨fun ⟨threshold, hsome⟩ => ?_, fun g hg => ?_⟩, ?_⟩
        · cases hvalue.symm.trans hsome
        · cases g with
          | state => exact hstate
          | op => exact ⟨op, hop⟩
          | value => exact absurd hg (by decide)
        · simp [resolveRecord, hvariable, hop, hvalue, bind, Except.bind, fieldFault]
      | some threshold =>
        refine .inl ⟨⟨c, op, threshold⟩, ⟨hc, hop, hvalue⟩, ?_⟩
        simp [resolveRecord, hvariable, hop, hvalue, bind, Except.bind, pure, Except.pure]
  · refine .inr ⟨.state, ⟨hstate, fun g hg => absurd hg (Nat.not_lt_zero _)⟩, ?_⟩
    simp [resolveRecord, resolveVariable_of_not_resolvable hstate, bind, Except.bind]

/-! ## Lists of records -/

/-- The first record with a field that cannot be used, and the first such field. -/
structure FirstFailure (names : List String) (records : List ConstraintRecord) (i : Nat)
    (r : ConstraintRecord) (f : RecordField) : Prop where
  here : records[i]? = some r
  fails : FailsAt names r f
  before : ∀ j < i, ∀ s : ConstraintRecord, records[j]? = some s → ∀ g, Usable names s g

/-- Records are resolved to what they mean, or the first failure among them is reported. -/
theorem resolveFrom_cases {names : List String} (h : names.Nodup) (i : Nat)
    (records : List ConstraintRecord) :
    (∃ cs, List.Forall₂ (Means names) records cs ∧ resolveFrom names i records = .ok cs) ∨
      ∃ k r f, FirstFailure names records k r f ∧
        resolveFrom names i records = .error (fieldFault names (i + k) r f) := by
  induction records generalizing i with
  | nil => exact .inl ⟨[], .nil, rfl⟩
  | cons r records ih =>
    rcases resolveRecord_cases h i r with ⟨c, hmeans, hc⟩ | ⟨f, hfails, hfault⟩
    · rcases ih (i + 1) with ⟨cs, hrest, hcs⟩ | ⟨k, s, f, ⟨hhere, hfails, hbefore⟩, hfault⟩
      · refine .inl ⟨c :: cs, .cons hmeans hrest, ?_⟩
        simp [resolveFrom, hc, hcs, bind, Except.bind, pure, Except.pure]
      · refine .inr ⟨k + 1, s, f, ⟨hhere, hfails, fun j hj t ht => ?_⟩, ?_⟩
        · cases j with
          | zero =>
            cases ht
            exact hmeans.usable
          | succ j => exact hbefore j (Nat.lt_of_succ_lt_succ hj) t ht
        · rw [show i + (k + 1) = i + 1 + k by omega]
          simp [resolveFrom, hc, hfault, bind, Except.bind]
    · refine .inr ⟨0, r, f, ⟨rfl, hfails, fun j hj => absurd hj (Nat.not_lt_zero j)⟩, ?_⟩
      simp [resolveFrom, hfault, bind, Except.bind]

/-! ## Names and positions -/

/-- A record as it is, or with a name replaced by a position at which the name stands. -/
inductive Replaced (names : List String) : ConstraintRecord → ConstraintRecord → Prop
  | same (r : ConstraintRecord) : Replaced names r r
  | position {n : String} {c : Nat} (op : String) (value : Option Float)
      (h : names[c]? = some n) : Replaced names ⟨.name n, op, value⟩ ⟨.index c, op, value⟩

theorem resolveRecord_of_replaced {names : List String} (hnames : names.Nodup)
    {r s : ConstraintRecord} (h : Replaced names r s) (i : Nat) :
    resolveRecord names i s = resolveRecord names i r := by
  cases h with
  | same => rfl
  | @position n c op value h =>
    obtain ⟨hlt, -⟩ := List.getElem?_eq_some_iff.1 h
    have hname : resolveVariable names i (.name n) = .ok c :=
      resolveVariable_of_denotes ((denotes_name_iff hnames).2 h) i
    have hposition : Denotes names (.index c) c := ⟨.inr hlt, rfl⟩
    have hindex : resolveVariable names i (.index c) = .ok c :=
      resolveVariable_of_denotes hposition i
    simp only [resolveRecord, hname, hindex]

theorem resolveFrom_of_replaced {names : List String} (hnames : names.Nodup)
    {records others : List ConstraintRecord} (h : List.Forall₂ (Replaced names) records others)
    (i : Nat) : resolveFrom names i others = resolveFrom names i records := by
  induction h generalizing i with
  | nil => rfl
  | cons h _ ih => rw [resolveFrom, resolveFrom, resolveRecord_of_replaced hnames h, ih]

/-! ## Declarations -/

theorem resolve_of_nodup {spec : ConstraintSpec} (h : spec.names.Nodup) :
    spec.resolve = resolveFrom spec.names 0 spec.records := by
  have hnone : firstRepeated [] spec.names = none :=
    firstRepeated_eq_none_iff.2 ⟨h, fun _ _ => List.not_mem_nil⟩
  simp only [resolve, hnone]

theorem nodup_of_resolve {spec : ConstraintSpec} {cs : List Constraint}
    (h : spec.resolve = .ok cs) : spec.names.Nodup := by
  unfold resolve at h
  split at h
  · cases h
  · next hnone => exact (firstRepeated_eq_none_iff.1 hnone).1

theorem means_of_resolve {spec : ConstraintSpec} {cs : List Constraint}
    (h : spec.resolve = .ok cs) : List.Forall₂ (Means spec.names) spec.records cs := by
  have hnames := nodup_of_resolve h
  rw [resolve_of_nodup hnames] at h
  rcases resolveFrom_cases hnames 0 spec.records with ⟨ds, hmeans, hok⟩ | ⟨k, r, f, -, hfault⟩
  · cases h.symm.trans hok
    exact hmeans
  · cases h.symm.trans hfault

theorem exists_resolve_iff {spec : ConstraintSpec} :
    (∃ cs, spec.resolve = .ok cs) ↔
      spec.names.Nodup ∧ ∀ r ∈ spec.records, ∀ f, Usable spec.names r f := by
  constructor
  · rintro ⟨cs, h⟩
    have hboth : List.Forall₂ (fun r c => (∀ f, Usable spec.names r f) ∧ Means spec.names r c)
        spec.records cs := (means_of_resolve h).imp fun _ _ hmeans => ⟨hmeans.usable, hmeans⟩
    exact ⟨nodup_of_resolve h, ((List.forall₂_and_left _ _).1 hboth).1⟩
  · rintro ⟨hnames, husable⟩
    rw [resolve_of_nodup hnames]
    rcases resolveFrom_cases hnames 0 spec.records with ⟨cs, -, hok⟩ | ⟨k, r, f, hfirst, -⟩
    · exact ⟨cs, hok⟩
    · exact absurd (husable r (List.mem_of_getElem? hfirst.here) f) hfirst.fails.unusable

theorem resolve_of_replaced {spec : ConstraintSpec} {others : List ConstraintRecord}
    (h : List.Forall₂ (Replaced spec.names) spec.records others) :
    resolve ⟨spec.names, others⟩ = spec.resolve := by
  unfold resolve
  cases hrepeated : firstRepeated [] spec.names with
  | some n => rfl
  | none => exact resolveFrom_of_replaced (firstRepeated_eq_none_iff.1 hrepeated).1 h 0

theorem firstFailure_of_resolve {spec : ConstraintSpec} {fault : Fault} (h : spec.names.Nodup)
    (hfault : spec.resolve = .error fault) :
    ∃ i r f, FirstFailure spec.names spec.records i r f ∧
      fault = fieldFault spec.names i r f := by
  rw [resolve_of_nodup h] at hfault
  rcases resolveFrom_cases h 0 spec.records with ⟨cs, -, hok⟩ | ⟨i, r, f, hfirst, hfirstFault⟩
  · cases hfault.symm.trans hok
  · rw [hfirstFault, Nat.zero_add] at hfault
    exact ⟨i, r, f, hfirst, (Except.error.inj hfault).symm⟩

/-- Resolution succeeds exactly if the names are distinct and every field of every record can be
used; the constraints are then those that the records mean. It goes by what a variable stands for
and not by how it is written. Under distinct names a failure is reported for the first record that
has one, and there for its first field. -/
theorem resolve_exact (spec : ConstraintSpec) :
    ((∃ cs, spec.resolve = .ok cs) ↔
      spec.names.Nodup ∧ ∀ r ∈ spec.records, ∀ f, Usable spec.names r f) ∧
    (∀ cs, spec.resolve = .ok cs → List.Forall₂ (Means spec.names) spec.records cs) ∧
    (∀ others, List.Forall₂ (Replaced spec.names) spec.records others →
      resolve ⟨spec.names, others⟩ = spec.resolve) ∧
    (spec.names.Nodup → ∀ fault, spec.resolve = .error fault →
      ∃ i r f detail, FirstFailure spec.names spec.records i r f ∧
        fault = fieldFault spec.names i r f ∧ fault.message = f.path i ++ ": " ++ detail) := by
  refine ⟨exists_resolve_iff, fun _ => means_of_resolve, fun _ => resolve_of_replaced, ?_⟩
  intro hnames fault hfault
  obtain ⟨i, r, f, hfirst, rfl⟩ := firstFailure_of_resolve hnames hfault
  obtain ⟨detail, hdetail⟩ := exists_message_fieldFault spec.names i r f
  exact ⟨i, r, f, detail, hfirst, rfl, hdetail⟩

/-- The second record has two unusable fields, and the third another one. -/
example :
    resolve ⟨["x", "y"], [⟨.name "y", " GE", some 1⟩, ⟨.index 1, "==", none⟩,
      ⟨.index 2, "lt", some 0⟩]⟩ = .error (.recordOperator 1 "==") := by
  rfl

end ConstraintSpec

end TrajectorySafety
