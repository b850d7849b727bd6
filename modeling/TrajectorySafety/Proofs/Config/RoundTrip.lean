import TrajectorySafety.Proofs.Config.Words
import TrajectorySafety.Proofs.Document.Shown

/-!
A configuration that is written down is read as it was.

What is written for a part of a configuration is a datum, and a node that shows this datum is read
as the part, section by section (`Config.ofNode_of_shows`). Some parts could be taken for something
else: a count and a text, a number and a list of numbers, a model of one kind and of another. They
are told apart by the kinds of their scalars, so all that is needed of the text in between is that
it keeps the tree of the datum with these kinds (`Yaml.Restores`).
-/

namespace TrajectorySafety

open Yaml (shows source fields_bind required_bind default_bind required_of_found default_of_found)

variable {n : Node} {targets : List (Nat × Node)}

/-! ## Constraints -/

theorem StateVariable.ofNode_of_shows {v : StateVariable} (h : shows n v.datum = true) :
    StateVariable.ofNode (source targets) n = pure v := by
  cases v with
  | index i =>
    refine Yaml.content_of_expand (Yaml.expand_of_scalar rfl h) ?_
    simp only [Yaml.openCount_of_shows h]
    rfl
  | name t =>
    refine Yaml.content_of_expand (Yaml.expand_of_scalar rfl h) ?_
    obtain ⟨htext, hcount⟩ := Yaml.openText_of_shows h
    simp only [htext, hcount]
    rfl

theorem ConstraintRecord.ofNode_of_shows {r : ConstraintRecord} (h : shows n r.datum = true) :
    ConstraintRecord.ofNode (source targets) n = pure r := by
  refine fields_bind (by decide) rfl h fun fs hfs => ?_
  refine required_bind hfs rfl (fun _ => StateVariable.ofNode_of_shows) ?_
  refine required_bind hfs rfl (fun _ => Yaml.text_of_shows) ?_
  exact default_bind hfs rfl (fun _ => Yaml.optional_of_shows) rfl

theorem ConstraintSpec.ofNode_of_shows {s : ConstraintSpec} (h : shows n s.datum = true) :
    ConstraintSpec.ofNode (source targets) n = pure s := by
  refine fields_bind (by decide) rfl h fun fs hfs => ?_
  refine default_bind hfs rfl
    (fun _ => Yaml.list_of_listOf fun _ _ => Yaml.text_of_shows) ?_
  exact default_bind hfs rfl
    (fun _ => Yaml.list_of_listOf fun _ _ => ConstraintRecord.ofNode_of_shows) rfl

/-! ## Models -/

/-- Vectors and matrices where several types are possible. -/
theorem openList_of_vector {xs : List Float} (h : shows n (.listOf .real xs) = true) :
    Dialect.openList Yaml.dialect.openReal n = some xs :=
  Yaml.openList_of_listOf (fun _ _ => Yaml.openReal_of_shows) h

theorem expand_of_vector {depth : Nat} {xs : List Float}
    (h : shows n (.listOf .real xs) = true) : (source targets).expand (depth + 1) n = pure n :=
  Yaml.expand_of_listOf (fun _ _ => Yaml.expand_of_scalar rfl) h

theorem expand_of_optional {depth : Nat} {xs : Option (List Float)}
    (h : shows n (.optional (.listOf .real) xs) = true) :
    (source targets).expand (depth + 1) n = pure n := by
  cases xs with
  | none => exact Yaml.expand_of_scalar rfl h
  | some xs => exact expand_of_vector h

theorem ModelChoice.ofBody?_identity {dimension : Nat} {others : List (Node × Node)}
    (h : List.Forall₂ Yaml.ShowsField others [("dimension", .count dimension)]) :
    ofBody? Yaml.dialect "identity" (.named others) = some (.identity dimension) := by
  obtain ⟨fs, hfs, hfields⟩ : ∃ fs, Yaml.Found fs _ ∧
      Yaml.dialect.openFieldsFrom ["dimension"] [] others = some fs :=
    Yaml.openFieldsFrom_of_shows h [] (by simp) (by simp)
  have hdimension : fs.required "dimension" Yaml.dialect.openCount = some dimension :=
    required_of_found hfs rfl fun _ => Yaml.openCount_of_shows
  simp only [ofBody?, Dialect.openFields, hfields, Option.bind_eq_bind, Option.bind_some,
    hdimension]
  rfl

theorem ModelChoice.ofBody?_affine {matrix : List (List Float)} {offset noise : Option (List Float)}
    {others : List (Node × Node)}
    (h : List.Forall₂ Yaml.ShowsField others [("matrix", .listOf (.listOf .real) matrix),
      ("offset", .optional (.listOf .real) offset), ("noise", .optional (.listOf .real) noise)]) :
    ofBody? Yaml.dialect "affine" (.named others) = some (.affine matrix offset noise) := by
  obtain ⟨fs, hfs, hfields⟩ : ∃ fs, Yaml.Found fs _ ∧
      Yaml.dialect.openFieldsFrom ["matrix", "offset", "noise"] [] others = some fs :=
    Yaml.openFieldsFrom_of_shows h [] (by simp) (by simp)
  let vector := Dialect.openList Yaml.dialect.openReal
  have hmatrix : fs.required "matrix" (Dialect.openList vector) = some matrix :=
    required_of_found hfs rfl fun _ => Yaml.openList_of_listOf fun _ _ => openList_of_vector
  have hoffset : fs.default "offset" none (Yaml.dialect.openOptional vector) = some offset :=
    default_of_found hfs rfl fun _ => Yaml.openOptional_of_shows fun _ _ => openList_of_vector
  have hnoise : fs.default "noise" none (Yaml.dialect.openOptional vector) = some noise :=
    default_of_found hfs rfl fun _ => Yaml.openOptional_of_shows fun _ _ => openList_of_vector
  simp only [ofBody?, Dialect.openFields, hfields, Option.bind_eq_bind, Option.bind_some]
  rw [hmatrix, Option.bind_some, hoffset, Option.bind_some, hnoise]
  rfl

theorem ModelChoice.ofNode_of_shows {m : ModelChoice} (h : shows n m.datum = true) :
    ModelChoice.ofNode (source targets) n = pure m := by
  cases m with
  | identity dimension =>
    refine Yaml.content_of_expand (Yaml.expand_of_record ?_ h) ?_
    · simp only [List.forall_mem_cons]
      exact ⟨fun _ => Yaml.expand_of_scalar rfl, fun _ => Yaml.expand_of_scalar rfl, by simp⟩
    · obtain ⟨others, hothers, htagged⟩ := Yaml.tagged_of_shows (by simp) h
      simp only [htagged, Option.bind_eq_bind, Option.bind_some]
      exact ofBody?_identity hothers
  | affine matrix offset noise =>
    refine Yaml.content_of_expand (Yaml.expand_of_record ?_ h) ?_
    · simp only [List.forall_mem_cons]
      exact ⟨fun _ => Yaml.expand_of_scalar rfl,
        fun _ => Yaml.expand_of_listOf fun _ _ => expand_of_vector,
        fun _ => expand_of_optional, fun _ => expand_of_optional, by simp⟩
    · obtain ⟨others, hothers, htagged⟩ := Yaml.tagged_of_shows (by simp) h
      simp only [htagged, Option.bind_eq_bind, Option.bind_some]
      exact ofBody?_affine hothers

/-! ## Sections -/

theorem Guard.ofNode_of_shows {g : Guard} (h : shows n g.datum = true) :
    Guard.ofNode (source targets) n = pure g := by
  refine fields_bind (by decide) rfl h fun fs hfs => ?_
  refine default_bind hfs rfl (fun _ => Yaml.flag_of_shows) ?_
  exact default_bind hfs rfl (fun _ => Yaml.optional_of_shows) rfl

/-- A number and a list of numbers are told apart. -/
theorem HalfWidth.ofNode_of_shows {w : HalfWidth} (h : shows n w.datum = true) :
    HalfWidth.ofNode (source targets) n = pure w := by
  cases w with
  | uniform x =>
    refine Yaml.content_of_expand (Yaml.expand_of_scalar rfl h) ?_
    simp only [Yaml.openReal_of_shows h]
    rfl
  | perDimension xs =>
    refine Yaml.content_of_expand (expand_of_vector h) ?_
    simp only [Yaml.openReal_of_listOf h, openList_of_vector h]
    rfl

theorem LogConfig.ofNode_of_shows {c : LogConfig} (h : shows n c.datum = true) :
    LogConfig.ofNode (source targets) n = pure c := by
  refine fields_bind (by decide) rfl h fun fs hfs => ?_
  refine default_bind hfs rfl (fun _ => Yaml.real_of_shows) ?_
  refine default_bind hfs rfl (fun _ => HalfWidth.ofNode_of_shows) ?_
  exact default_bind hfs rfl (fun _ => Yaml.list_of_listOf fun _ _ => Yaml.pair_of_shows) rfl

theorem SamplingConfig.ofNode_of_shows {c : SamplingConfig} (h : shows n c.datum = true) :
    SamplingConfig.ofNode (source targets) n = pure c := by
  refine fields_bind (by decide) rfl h fun fs hfs => ?_
  refine default_bind hfs rfl (fun _ => Yaml.count_of_shows) ?_
  refine default_bind hfs rfl (fun _ => Yaml.count_of_shows) ?_
  refine default_bind hfs rfl (fun _ => Yaml.count_of_shows) ?_
  refine default_bind hfs rfl (fun _ => Yaml.count_of_shows) ?_
  exact default_bind hfs rfl (fun _ => Yaml.optional_of_shows) rfl

theorem BoundStrategy.ofNode_of_shows {b : BoundStrategy} (h : shows n b.datum = true) :
    BoundStrategy.ofNode (source targets) n = pure b := by
  obtain ⟨s, rfl, htag, hk⟩ := Yaml.scalar_of_shows rfl h
  have hname : Yaml.dialect.variantName? (.scalar s) = some b.name := by
    simp only [Yaml.dialect, Yaml.variantName?, htag, Yaml.text_of_kind? htag hk]
  simp only [BoundStrategy.ofNode, Source.variant, Source.follow, pure_bind, hname,
    Option.bind_some]
  cases b <;> rfl

theorem BoundConfig.ofNode_of_shows {c : BoundConfig} (h : shows n c.datum = true) :
    BoundConfig.ofNode (source targets) n = pure c := by
  refine fields_bind (by decide) rfl h fun fs hfs => ?_
  refine default_bind hfs rfl (fun _ => BoundStrategy.ofNode_of_shows) ?_
  refine default_bind hfs rfl (fun _ => Yaml.real_of_shows) ?_
  exact default_bind hfs rfl (fun _ => Yaml.real_of_shows) rfl

theorem seedOfNode_of_shows {seed : UInt64}
    (h : shows n (.record [("seed", .count seed.toNat)]) = true) :
    seedOfNode (source targets) n = pure seed := by
  refine fields_bind (by decide) rfl h fun fs hfs => ?_
  refine default_of_found hfs rfl fun n hn => ?_
  rw [Yaml.count_of_shows hn, map_pure]
  exact congrArg pure UInt64.ofNat_toNat

theorem Config.ofNode_of_shows {c : Config} (h : shows n c.datum = true) :
    Config.ofNode (source targets) n = pure c := by
  refine fields_bind (by decide) rfl h fun fs hfs => ?_
  refine default_bind hfs rfl (fun _ => Yaml.text_of_shows) ?_
  refine default_bind hfs rfl (fun _ => seedOfNode_of_shows) ?_
  refine default_bind hfs rfl (fun _ => ModelChoice.ofNode_of_shows) ?_
  refine default_bind hfs rfl (fun _ => Guard.ofNode_of_shows) ?_
  refine default_bind hfs rfl (fun _ => LogConfig.ofNode_of_shows) ?_
  refine default_bind hfs rfl (fun _ => SamplingConfig.ofNode_of_shows) ?_
  refine default_bind hfs rfl (fun _ => BoundConfig.ofNode_of_shows) ?_
  exact default_bind hfs rfl (fun _ => ConstraintSpec.ofNode_of_shows) rfl

/-! ## Texts -/

/-- The text of a datum is read as a tree of the same parts, whose scalars have kept their kinds. -/
def Yaml.Restores (datum : Datum) : Prop :=
  ∃ doc, Yaml.parse (Yaml.render datum) = some doc ∧ shows doc.root datum = true

theorem Yaml.toList_join (pieces : List String) :
    (String.join pieces).toList = pieces.flatMap String.toList := by
  have hfold (start : String) : (pieces.foldl (· ++ ·) start).toList =
      start.toList ++ pieces.flatMap String.toList := by
    induction pieces generalizing start with
    | nil => simp
    | cons piece rest ih =>
      rw [List.foldl_cons, ih, String.toList_append, List.flatMap_cons, List.append_assoc]
  exact hfold ""

/-- Restoring a datum, computed without its text. -/
def Yaml.restored (datum : Datum) : Bool :=
  let cs := (blockAt 0 datum).flatMap String.toList
  let tokens := if cs.all isAllowed then
    Lexer.run (cs.length + 1) { cursor := { rest := cs } } else none
  (tokens.bind document).any fun doc => shows doc.root datum

theorem Yaml.restores_iff (datum : Datum) : Restores datum ↔ restored datum = true := by
  rw [restored, ← toList_join, Option.any_eq_true]
  rfl

/-- A configuration that was read from any text can be written down and read again: all settings are
as before. Of the text in between only this is needed, that the data in it are restored as the same
tree. -/
theorem ofText_toText {text : String} {c : Config} (htext : Config.ofText text = .ok c)
    (hrestores : Yaml.Restores c.datum) : Config.ofText c.toText = .ok c := by
  obtain ⟨doc, hparse, hshows⟩ := hrestores
  have hread : doc.read Yaml.dialect Config.ofNode = some c := by
    rw [Document.read, Config.ofNode_of_shows hshows]
    rfl
  rw [Config.ofText, Config.toText, hparse, Option.bind_some, hread]
  simp only [(Config.ofText_eq_ok htext).1]
  rfl

/-- Settings that could be taken for others: a whole number in a matrix, a list of half-widths, and
a name that looks like a number. -/
def ambiguousText : String :=
  "model: \x7bkind: affine, matrix: [[1]]\x7d
log: \x7bepsilon: [1]\x7d
safety: \x7bstate_vars: ['7'], constraints: [\x7bstate: '7', op: '>', value: 2\x7d]\x7d"

theorem ofText_toText_ambiguous :
    ∃ c, Config.ofText ambiguousText = .ok c ∧ c.safety.names = ["7"] ∧
      Yaml.Restores c.datum ∧ Config.ofText c.toText = .ok c := by
  obtain ⟨c, hc, htest⟩ : ∃ c, Config.ofText ambiguousText = .ok c ∧
      (c.safety.names == ["7"] && Yaml.restored c.datum) = true :=
    exists_ok_of_any (by decide +kernel)
  rw [Bool.and_eq_true, beq_iff_eq] at htest
  have hrestores := (Yaml.restores_iff c.datum).2 htest.2
  exact ⟨c, hc, htest.1, hrestores, ofText_toText hc hrestores⟩

end TrajectorySafety
