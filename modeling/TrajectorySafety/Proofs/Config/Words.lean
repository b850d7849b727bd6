import TrajectorySafety.Command.Arguments
import TrajectorySafety.Proofs.Success

/-!
The counts among the settings fit a machine word, wherever they come from.

`Reading.Gives` says what is true of every value that a reading can give. A configuration from a
text has passed its checks, and its counts are words (`Config.ofText_eq_ok`); so is the horizon
among the settings on a command line (`Flags.fits_overrides`).
-/

namespace TrajectorySafety

open Number (wordLimit)

/-! ## What readings give -/

namespace Reading

variable {α β : Type} {P : α → Prop} {Q : β → Prop}

/-- Every value that can be read has the property. -/
def Gives (x : Reading α) (P : α → Prop) : Prop :=
  ∀ left a left', x left = some (a, left') → P a

theorem gives_pure {a : α} (h : P a) : Gives (pure a) P := by
  intro left a' left' hx
  cases hx
  exact h

theorem gives_true (x : Reading α) : x.Gives fun _ => True := fun _ _ _ _ => trivial

theorem gives_of {x : Option α} (h : ∀ a, x = some a → P a) : (Reading.of x).Gives P := by
  intro left a left' hx
  obtain ⟨b, hb, heq⟩ := Option.map_eq_some_iff.1 hx
  cases heq
  exact h a hb

theorem gives_bind {x : Reading α} {f : α → Reading β} (hx : x.Gives P)
    (hf : ∀ a, P a → (f a).Gives Q) : (x >>= f).Gives Q := by
  intro left b left' h
  obtain ⟨⟨a, between⟩, ha, hb⟩ := Option.bind_eq_some_iff.1 h
  exact hf a (hx left a between ha) between b left' hb

theorem gives_default {fields : Fields} {name : String} {value : α} {read : Node → Reading α}
    (hvalue : P value) (hread : ∀ n, (read n).Gives P) :
    Gives (fields.default name value read) P := by
  unfold Fields.default
  cases fields.lookup name with
  | none => exact gives_pure hvalue
  | some n => exact hread n

end Reading

theorem Source.gives_count {d : Source}
    (h : ∀ s n, d.rules.count? s = some n → n ≤ wordLimit) (n : Node) :
    (d.count n).Gives (· ≤ wordLimit) := by
  refine Reading.gives_bind (Reading.gives_true _) fun m _ => Reading.gives_of ?_
  intro count hcount
  cases m with
  | scalar s => exact h s count hcount
  | _ => cases hcount

theorem Yaml.count?_le {s : Scalar} {n : Nat} (h : Yaml.dialect.count? s = some n) :
    n ≤ wordLimit := by
  replace h : (if mayBe "int" s then upTo? wordLimit s.text.toList else none) = some n := h
  split at h
  · exact of_decide_eq_true (Option.filter_eq_some_iff.1 h).2
  · cases h

/-! ## Configurations -/

/-- Counts that fit a word. -/
structure SamplingConfig.Fits (s : SamplingConfig) : Prop where
  horizon : s.horizon ≤ wordLimit
  batchSize : s.batchSize ≤ wordLimit
  maxAttempts : s.maxAttempts ≤ wordLimit
  retain : s.retain ≤ wordLimit

theorem SamplingConfig.fits_default : ({} : SamplingConfig).Fits :=
  ⟨by decide, by decide, by decide, by decide⟩

theorem SamplingConfig.gives_ofNode {d : Source}
    (h : ∀ s n, d.rules.count? s = some n → n ≤ wordLimit) (n : Node) :
    (SamplingConfig.ofNode d n).Gives SamplingConfig.Fits := by
  have hcount := Source.gives_count h
  refine Reading.gives_bind (Reading.gives_true _) fun fs _ => ?_
  refine Reading.gives_bind (Reading.gives_default fits_default.horizon hcount) fun _ h₁ => ?_
  refine Reading.gives_bind (Reading.gives_default fits_default.batchSize hcount) fun _ h₂ => ?_
  refine Reading.gives_bind (Reading.gives_default fits_default.maxAttempts hcount) fun _ h₃ => ?_
  refine Reading.gives_bind (Reading.gives_default fits_default.retain hcount) fun _ h₄ => ?_
  refine Reading.gives_bind (Reading.gives_true _) fun _ _ => ?_
  exact Reading.gives_pure ⟨h₁, h₂, h₃, h₄⟩

theorem Config.gives_ofNode {d : Source} (h : ∀ s n, d.rules.count? s = some n → n ≤ wordLimit)
    (n : Node) : (Config.ofNode d n).Gives fun c => c.sampling.Fits := by
  refine Reading.gives_bind (Reading.gives_true _) fun fs _ => ?_
  refine Reading.gives_bind (Reading.gives_true _) fun _ _ => ?_
  refine Reading.gives_bind (Reading.gives_true _) fun _ _ => ?_
  refine Reading.gives_bind (Reading.gives_true _) fun _ _ => ?_
  refine Reading.gives_bind (Reading.gives_true _) fun _ _ => ?_
  refine Reading.gives_bind (Reading.gives_true _) fun _ _ => ?_
  refine Reading.gives_bind (Reading.gives_default SamplingConfig.fits_default
    (SamplingConfig.gives_ofNode h)) fun sampling hs => ?_
  refine Reading.gives_bind (Reading.gives_true _) fun _ _ => ?_
  refine Reading.gives_bind (Reading.gives_true _) fun _ _ => ?_
  exact Reading.gives_pure hs

theorem Document.gives_read {α : Type} {P : α → Prop} {doc : Document} {rules : Dialect}
    {read : Source → Node → Reading α} {a : α}
    (hread : (read ⟨rules, doc.targets⟩ doc.root).Gives P) (h : doc.read rules read = some a) :
    P a := by
  obtain ⟨⟨a', left⟩, ha, rfl⟩ := Option.map_eq_some_iff.1 h
  exact hread _ _ _ ha

/-- A configuration from a text has passed its checks, and its counts fit a word. -/
theorem Config.ofText_eq_ok {text : String} {c : Config} (h : ofText text = .ok c) :
    c.check = .ok () ∧ c.sampling.Fits := by
  unfold ofText at h
  split at h
  · cases h
  · next c' hread =>
    obtain ⟨u, hcheck, h⟩ := bind_eq_ok_iff.1 h
    cases h
    obtain ⟨doc, -, hread⟩ := Option.bind_eq_some_iff.1 hread
    exact ⟨hcheck, Document.gives_read (P := fun c => c.sampling.Fits)
      (gives_ofNode (fun _ _ => Yaml.count?_le) _) hread⟩

/-! ## Settings that replace others -/

/-- Settings with a horizon that fits a word, if they have one. -/
def Overrides.Fits (o : Overrides) : Prop := ∀ n, o.horizon = some n → n ≤ wordLimit

theorem Overrides.Fits.apply {o : Overrides} (ho : o.Fits) {c : Config} (hc : c.sampling.Fits) :
    (o.apply c).sampling.Fits := by
  refine ⟨?_, hc.batchSize, hc.maxAttempts, hc.retain⟩
  cases hn : o.horizon with
  | none => simpa [Overrides.apply, hn] using hc.horizon
  | some n => simpa [Overrides.apply, hn] using ho n hn

end TrajectorySafety
