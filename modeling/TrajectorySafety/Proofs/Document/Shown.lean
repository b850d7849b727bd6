import Mathlib.Data.List.Forall2
import TrajectorySafety.Document.Datum
import TrajectorySafety.Document.Decoder
import TrajectorySafety.Yaml.Dialect

/-!
Reading the tree of a datum.

A node shows a datum if both are the same tree: lists and records of the same parts in the same
order, none of them tagged or an alias, and scalars that are of the datum's kind of their own
(`Yaml.shows`). What is read from such a node is determined by the datum, and no alias is followed.
So every statement here says that a reading of a node equals `pure` of what the datum was made from:
for scalars whatever type they are read as, for values that may be absent, for lists, and for the
fields of a record (`fields_bind`), each of which is then read from the node that was found for it
(`required_bind`, `default_bind`). Where several types are possible the whole value is taken first,
which leaves it as it is (`content_of_expand`).
-/

namespace TrajectorySafety

/-! ## Trees -/

deriving instance DecidableEq for Kind

/-- The kind of a datum that is a scalar. -/
def Datum.kind? : Datum → Option Kind
  | null => some .null
  | flag b => some (.flag b)
  | count m => some (.count m)
  | real x => some (.real x)
  | text t => some (.text t)
  | list _ => none
  | record _ => none

namespace Yaml

mutual

/-- Whether a node is the tree of a datum. -/
def shows : Node → Datum → Bool
  | .list tag items, .list data => tag.isNone && showsItems items data
  | .record tag fields, .record data => tag.isNone && showsFields fields data
  | .scalar s, datum => s.tag.isNone && datum.kind?.isSome && kind? s == datum.kind?
  | _, _ => false

def showsItems : List Node → List Datum → Bool
  | [], [] => true
  | n :: rest, datum :: data => shows n datum && showsItems rest data
  | _, _ => false

def showsFields : List (Node × Node) → List (String × Datum) → Bool
  | [], [] => true
  | (key, value) :: rest, (name, datum) :: data =>
    shows key (.text name) && shows value datum && showsFields rest data
  | _, _ => false

end

theorem forall₂_of_showsItems {items : List Node} {data : List Datum}
    (h : showsItems items data = true) : List.Forall₂ (fun n d => shows n d = true) items data := by
  induction items generalizing data with
  | nil =>
    cases data with
    | nil => exact .nil
    | cons d data => simp [showsItems] at h
  | cons n items ih =>
    cases data with
    | nil => simp [showsItems] at h
    | cons d data =>
      rw [showsItems, Bool.and_eq_true] at h
      exact .cons h.1 (ih h.2)

/-- A field of a record under its name. -/
def ShowsField (f : Node × Node) (p : String × Datum) : Prop :=
  shows f.1 (.text p.1) = true ∧ shows f.2 p.2 = true

theorem forall₂_of_showsFields {fields : List (Node × Node)} {data : List (String × Datum)}
    (h : showsFields fields data = true) : List.Forall₂ ShowsField fields data := by
  induction fields generalizing data with
  | nil =>
    cases data with
    | nil => exact .nil
    | cons p data => simp [showsFields] at h
  | cons f fields ih =>
    obtain ⟨key, value⟩ := f
    cases data with
    | nil => simp [showsFields] at h
    | cons p data =>
      obtain ⟨name, d⟩ := p
      rw [showsFields, Bool.and_eq_true, Bool.and_eq_true] at h
      exact .cons h.1 (ih h.2)

variable {n : Node}

theorem list_of_shows {data : List Datum} (h : shows n (.list data) = true) :
    ∃ items, n = .list none items ∧ List.Forall₂ (fun n d => shows n d = true) items data := by
  cases n with
  | list tag items =>
    rw [shows, Bool.and_eq_true, Option.isNone_iff_eq_none] at h
    obtain ⟨rfl, hitems⟩ := h
    exact ⟨items, rfl, forall₂_of_showsItems hitems⟩
  | scalar s => simp [shows, Datum.kind?] at h
  | _ => simp [shows] at h

theorem record_of_shows {data : List (String × Datum)} (h : shows n (.record data) = true) :
    ∃ fields, n = .record none fields ∧ List.Forall₂ ShowsField fields data := by
  cases n with
  | record tag fields =>
    rw [shows, Bool.and_eq_true, Option.isNone_iff_eq_none] at h
    obtain ⟨rfl, hfields⟩ := h
    exact ⟨fields, rfl, forall₂_of_showsFields hfields⟩
  | scalar s => simp [shows, Datum.kind?] at h
  | _ => simp [shows] at h

/-- A node that shows a scalar is one, of the same kind. -/
theorem scalar_of_shows {datum : Datum} {k : Kind} (hk : datum.kind? = some k)
    (h : shows n datum = true) : ∃ s, n = .scalar s ∧ s.tag = none ∧ kind? s = some k := by
  cases n with
  | scalar s =>
    rw [shows, Bool.and_eq_true, Bool.and_eq_true, Option.isNone_iff_eq_none, beq_iff_eq, hk] at h
    exact ⟨s, rfl, h.1.1, h.2⟩
  | list tag items =>
    cases datum with
    | list data => cases hk
    | _ => simp [shows] at h
  | record tag fields =>
    cases datum with
    | record data => cases hk
    | _ => simp [shows] at h
  | _ => simp [shows] at h

/-! ## Scalars -/

/-- What makes a plain text one of a kind. -/
def Explains (t : String) : Kind → Prop
  | .null => (t.isEmpty || isNull t) = true
  | .flag b => truth? t = some b
  | .count m => upTo? Number.wordLimit t.toList = some m
  | .minus m => minusUpTo? (Number.pow2 63) t.toList = some m
  | .real x => number? t.toList = some x
  | .text u => t = u

theorem explains_of_wholeKind? {t : String} {k : Kind} (h : wholeKind? t.toList = some (some k)) :
    Explains t k ∧ k ≠ .null := by
  unfold wholeKind? at h
  cases hcount : upTo? Number.wordLimit t.toList with
  | some m =>
    rw [hcount] at h
    cases h
    exact ⟨hcount, by simp⟩
  | none =>
    cases hminus : minusUpTo? (Number.pow2 63) t.toList with
    | some m =>
      rw [hcount, hminus] at h
      cases h
      exact ⟨hminus, by simp⟩
    | none =>
      rw [hcount, hminus] at h
      simp only at h
      split at h <;> cases h

theorem explains_of_plainKind? {t : String} {k : Kind} (h : plainKind? t = some k) :
    Explains t k ∧ (k ≠ .null → (t.isEmpty || isNull t) = false) := by
  unfold plainKind? at h
  by_cases hnull : (t.isEmpty || isNull t) = true
  · rw [if_pos hnull] at h
    cases h
    exact ⟨hnull, fun hne => absurd rfl hne⟩
  · rw [if_neg hnull] at h
    refine ⟨?_, fun _ => by simpa using hnull⟩
    split at h
    · next b hb =>
      cases h
      exact hb
    · split at h
      · next hwhole =>
        rw [h] at hwhole
        exact (explains_of_wholeKind? hwhole).1
      · split at h
        · next x hx =>
          cases h
          split at hx
          · cases hx
          · exact hx
        · cases h
          rfl

/-- Without a tag, a scalar that is no text was written plain. -/
theorem plain_of_kind? {s : Scalar} {k : Kind} (htag : s.tag = none) (h : kind? s = some k)
    (hk : ∀ t, k ≠ .text t) : s.style = .plain ∧ plainKind? s.text = some k := by
  rw [kind?, htag] at h
  simp only at h
  split at h
  · next hplain => exact ⟨hplain, h⟩
  · cases h
    exact absurd rfl (hk s.text)

theorem text_of_kind? {s : Scalar} {t : String} (htag : s.tag = none)
    (h : kind? s = some (.text t)) : s.text = t := by
  rw [kind?, htag] at h
  simp only at h
  split at h
  · exact (explains_of_plainKind? h).1
  · cases h
    rfl

section
variable {s : Scalar} (htag : s.tag = none)
include htag

theorem absent?_of_null (h : kind? s = some .null) : absent? s = some true := by
  obtain ⟨hplain, hk⟩ := plain_of_kind? htag h (by simp)
  have hnull : (s.text.isEmpty || isNull s.text) = true := (explains_of_plainKind? hk).1
  simp [absent?, hplain, htag, hnull]

theorem flag?_of_kind? {b : Bool} (h : kind? s = some (.flag b)) : dialect.flag? s = some b := by
  obtain ⟨hplain, hk⟩ := plain_of_kind? htag h (by simp)
  have htruth : truth? s.text = some b := (explains_of_plainKind? hk).1
  simp [dialect, typed?, mayBe, hplain, htruth]

theorem count?_of_kind? {m : Nat} (h : kind? s = some (.count m)) : dialect.count? s = some m := by
  obtain ⟨hplain, hk⟩ := plain_of_kind? htag h (by simp)
  have hcount : upTo? Number.wordLimit s.text.toList = some m := (explains_of_plainKind? hk).1
  simp [dialect, typed?, mayBe, hplain, hcount]

theorem real?_of_kind? {x : Float} (h : kind? s = some (.real x)) :
    dialect.real? s = some x ∧ absent? s = some false := by
  obtain ⟨hplain, hk⟩ := plain_of_kind? htag h (by simp)
  obtain ⟨hnumber, hpresent⟩ := explains_of_plainKind? hk
  replace hnumber : number? s.text.toList = some x := hnumber
  simp [dialect, typed?, mayBe, absent?, htag, hplain, hnumber, hpresent (by simp)]

end

/-! ## Readings -/

/-- A document under the rules of YAML. -/
abbrev source (targets : List (Nat × Node)) : Source := ⟨dialect, targets⟩

variable {targets : List (Nat × Node)}

theorem real_of_shows {x : Float} (h : shows n (.real x) = true) :
    (source targets).real n = pure x := by
  obtain ⟨s, rfl, htag, hk⟩ := scalar_of_shows rfl h
  show Reading.of (dialect.real? s) = pure x
  rw [(real?_of_kind? htag hk).1]
  rfl

theorem count_of_shows {m : Nat} (h : shows n (.count m) = true) :
    (source targets).count n = pure m := by
  obtain ⟨s, rfl, htag, hk⟩ := scalar_of_shows rfl h
  show Reading.of (dialect.count? s) = pure m
  rw [count?_of_kind? htag hk]
  rfl

theorem flag_of_shows {b : Bool} (h : shows n (.flag b) = true) :
    (source targets).flag n = pure b := by
  obtain ⟨s, rfl, htag, hk⟩ := scalar_of_shows rfl h
  show Reading.of (dialect.flag? s) = pure b
  rw [flag?_of_kind? htag hk]
  rfl

theorem text_of_shows {t : String} (h : shows n (.text t) = true) :
    (source targets).text n = pure t := by
  obtain ⟨s, rfl, htag, hk⟩ := scalar_of_shows rfl h
  rw [← text_of_kind? htag hk]
  rfl

theorem optional_of_shows {x : Option Float} (h : shows n (.optional .real x) = true) :
    (source targets).optional (source targets).real n = pure x := by
  cases x with
  | none =>
    obtain ⟨s, rfl, htag, hk⟩ := scalar_of_shows rfl h
    have habsent : dialect.absent? s = some true := absent?_of_null htag hk
    simp only [Source.optional, Source.follow, pure_bind, habsent]
    rfl
  | some x =>
    have hreal : (source targets).real n = pure x := real_of_shows h
    obtain ⟨s, rfl, htag, hk⟩ := scalar_of_shows rfl h
    have habsent : dialect.absent? s = some false := (real?_of_kind? htag hk).2
    simp only [Source.optional, Source.follow, pure_bind, habsent, hreal]
    rfl

/-- A pass over a list that reads every element. -/
theorem mapM_eq_pure {m : Type → Type} [Monad m] [LawfulMonad m] {α β : Type} {f : α → m β}
    {l : List α} {bs : List β} (h : List.Forall₂ (fun a b => f a = pure b) l bs) :
    l.mapM f = pure bs := by
  induction h with
  | nil => rfl
  | cons hhead _ ih => rw [List.mapM_cons, hhead, pure_bind, ih, pure_bind]

/-- The items of a list of values, each read as its value. -/
theorem forall₂_of_listOf {m : Type → Type} [Monad m] {α : Type} {encode : α → Datum}
    {read : Node → m α} {values : List α}
    (hread : ∀ a n, shows n (encode a) = true → read n = pure a)
    (h : shows n (.listOf encode values) = true) :
    ∃ items, n = .list none items ∧ List.Forall₂ (fun n a => read n = pure a) items values := by
  obtain ⟨items, rfl, hitems⟩ := list_of_shows h
  rw [List.forall₂_map_right_iff] at hitems
  exact ⟨items, rfl, hitems.imp fun n a => hread a n⟩

theorem list_of_listOf {α : Type} {encode : α → Datum} {read : Node → Reading α} {values : List α}
    (hread : ∀ a n, shows n (encode a) = true → read n = pure a)
    (h : shows n (.listOf encode values) = true) :
    (source targets).list read n = pure values := by
  obtain ⟨items, rfl, hitems⟩ := forall₂_of_listOf hread h
  exact mapM_eq_pure hitems

theorem pair_of_shows {x y : Float} (h : shows n (.list [.real x, .real y]) = true) :
    (source targets).pair (source targets).real n = pure (x, y) := by
  obtain ⟨items, rfl, hitems⟩ := list_of_shows h
  obtain _ | ⟨hx, _ | ⟨hy, _ | _⟩⟩ := hitems
  simp only [Source.pair, Source.follow, pure_bind, real_of_shows hx, real_of_shows hy]

/-! ## Records -/

/-- Fields under the names of data that they show. -/
def Found (fields : Fields) (data : List (String × Datum)) : Prop :=
  List.Forall₂ (fun f p => f.1 = p.1 ∧ shows f.2 p.2 = true) fields data

theorem lookup_of_found {fields : Fields} {data : List (String × Datum)} {name : String}
    {datum : Datum} (h : Found fields data) (hd : data.lookup name = some datum) :
    ∃ n, fields.lookup name = some n ∧ shows n datum = true := by
  induction h with
  | nil => cases hd
  | @cons f p fields data hfield _ ih =>
    obtain ⟨name', n⟩ := f
    obtain ⟨name'', d⟩ := p
    obtain ⟨rfl, hshows⟩ := hfield
    rw [List.lookup_cons] at hd ⊢
    split at hd
    · next heq =>
      cases hd
      simp only at heq hshows ⊢
      rw [heq]
      exact ⟨n, rfl, hshows⟩
    · next heq =>
      simp only at heq ⊢
      rw [heq]
      exact ih hd

section
variable {m : Type → Type} [Alternative m] {α β : Type} {fields : Fields}
  {data : List (String × Datum)} {name : String} {datum : Datum} {value a : α}

/-- A field is read from the node that shows its datum. -/
theorem required_of_found {read : Node → m α} {x : m α} (h : Found fields data)
    (hd : data.lookup name = some datum) (hread : ∀ n, shows n datum = true → read n = x) :
    fields.required name read = x := by
  obtain ⟨n, hn, hshows⟩ := lookup_of_found h hd
  rw [Fields.required, hn]
  exact hread n hshows

theorem default_of_found {read : Node → m α} {x : m α} (h : Found fields data)
    (hd : data.lookup name = some datum) (hread : ∀ n, shows n datum = true → read n = x) :
    fields.default name value read = x := by
  obtain ⟨n, hn, hshows⟩ := lookup_of_found h hd
  rw [Fields.default, hn]
  exact hread n hshows

variable {read : Node → Reading α} {k : α → Reading β} {x : Reading β}

theorem required_bind (h : Found fields data) (hd : data.lookup name = some datum)
    (hread : ∀ n, shows n datum = true → read n = pure a) (hk : k a = x) :
    fields.required name read >>= k = x := by
  rw [required_of_found h hd hread, pure_bind, hk]

theorem default_bind (h : Found fields data) (hd : data.lookup name = some datum)
    (hread : ∀ n, shows n datum = true → read n = pure a) (hk : k a = x) :
    fields.default name value read >>= k = x := by
  rw [default_of_found h hd hread, pure_bind, hk]

end

theorem add_eq_some {fields : Fields} {name : String} (value : Node)
    (h : name ∉ fields.map Prod.fst) :
    fields.add name value = some (fields ++ [(name, value)]) := by
  have hlookup : fields.lookup name = none := by
    rw [List.lookup_eq_none_iff]
    intro f hf
    rw [bne_iff_ne]
    rintro rfl
    exact h (List.mem_map_of_mem hf)
  rw [Fields.add, hlookup]
  rfl

/-- The names of a shape differ, and none of them is another name of an earlier field. -/
def Proper (shape : Shape) : Prop :=
  (shape.names.map Prod.fst).Nodup ∧
    ∀ name ∈ shape.names.map Prod.fst, shape.canonical? name = some name

instance (shape : Shape) : Decidable (Proper shape) := inferInstanceAs (Decidable (_ ∧ _))

theorem fieldsFrom_of_shows {shape : Shape} {fields : List (Node × Node)}
    {data : List (String × Datum)} (h : List.Forall₂ ShowsField fields data) (found : Fields)
    (hcanonical : ∀ name ∈ data.map Prod.fst, shape.canonical? name = some name)
    (hnodup : (found.map Prod.fst ++ data.map Prod.fst).Nodup) :
    ∃ fs, Found fs data ∧ (source targets).fieldsFrom shape found fields = pure (found ++ fs) := by
  induction h generalizing found with
  | nil => exact ⟨[], .nil, by rw [List.append_nil]; rfl⟩
  | @cons f p fields data hfield _ ih =>
    obtain ⟨key, value⟩ := f
    obtain ⟨name, d⟩ := p
    rw [List.map_cons, List.forall_mem_cons] at hcanonical
    have hnew : name ∉ found.map Prod.fst := by
      intro hmem
      exact (List.nodup_append.1 hnodup).2.2 name hmem name (by simp) rfl
    obtain ⟨fs, hfs, hrest⟩ := ih (found ++ [(name, value)]) hcanonical.2 (by simpa using hnodup)
    refine ⟨(name, value) :: fs, .cons ⟨rfl, hfield.2⟩ hfs, ?_⟩
    simp only [Source.fieldsFrom, text_of_shows hfield.1, pure_bind, hcanonical.1,
      add_eq_some value hnew]
    rw [List.append_assoc] at hrest
    exact hrest

/-- The fields of a record are those of the datum that it shows. -/
theorem fields_bind {shape : Shape} {data : List (String × Datum)} {α : Type}
    {k : Fields → Reading α} {x : Reading α} (hshape : Proper shape)
    (hnames : data.map Prod.fst = shape.names.map Prod.fst) (h : shows n (.record data) = true)
    (hk : ∀ fs, Found fs data → k fs = x) : (source targets).fields shape n >>= k = x := by
  obtain ⟨fields, rfl, hfields⟩ := record_of_shows h
  rw [Proper, ← hnames] at hshape
  obtain ⟨fs, hfs, hread⟩ : ∃ fs, Found fs data ∧
      (source targets).fieldsFrom shape [] fields = pure fs :=
    fieldsFrom_of_shows hfields [] hshape.2 hshape.1
  rw [← hk fs hfs]
  simp only [Source.fields, Source.follow, pure_bind, hread]

/-! ## Values of several types -/

section
variable {depth : Nat}

theorem expand_of_scalar {datum : Datum} {k : Kind} (hk : datum.kind? = some k)
    (h : shows n datum = true) : (source targets).expand depth n = pure n := by
  obtain ⟨s, rfl, -⟩ := scalar_of_shows hk h
  cases depth <;> rfl

theorem exists_of_forall₂ {α β : Type} {R : α → β → Prop} {l : List α} {l' : List β}
    (h : List.Forall₂ R l l') {a : α} (ha : a ∈ l) : ∃ b ∈ l', R a b := by
  obtain ⟨k, hk, rfl⟩ := List.getElem_of_mem ha
  exact ⟨_, List.getElem_mem (h.length_eq ▸ hk), h.get hk (h.length_eq ▸ hk)⟩

theorem expand_of_listOf {α : Type} {encode : α → Datum} {values : List α}
    (hexpand : ∀ a n, shows n (encode a) = true → (source targets).expand depth n = pure n)
    (h : shows n (.listOf encode values) = true) :
    (source targets).expand (depth + 1) n = pure n := by
  obtain ⟨items, rfl, hitems⟩ := list_of_shows h
  rw [List.forall₂_map_right_iff] at hitems
  have hsame : items.mapM ((source targets).expand depth) = pure items := by
    refine mapM_eq_pure (List.forall₂_same.2 fun item hitem => ?_)
    obtain ⟨a, -, ha⟩ := exists_of_forall₂ hitems hitem
    exact hexpand a item ha
  simp only [Source.expand, Source.follow, pure_bind, hsame]

theorem expand_of_record {data : List (String × Datum)}
    (hexpand : ∀ p ∈ data, ∀ n, shows n p.2 = true → (source targets).expand depth n = pure n)
    (h : shows n (.record data) = true) : (source targets).expand (depth + 1) n = pure n := by
  obtain ⟨fields, rfl, hfields⟩ := record_of_shows h
  simp only [Source.expand, Source.follow, pure_bind]
  rw [mapM_eq_pure (List.forall₂_same.2 fun f hf => ?_), pure_bind]
  obtain ⟨p, hp, hkey, hvalue⟩ := exists_of_forall₂ hfields hf
  rw [expand_of_scalar rfl hkey, pure_bind, hexpand p hp f.2 hvalue, pure_bind]

theorem content_of_expand {α : Type} {rule : Node → Option α} {a : α}
    (hexpand : (source targets).expand Source.depthLimit n = pure n) (hrule : rule n = some a) :
    (source targets).content rule n = pure a := by
  rw [Source.content, hexpand, pure_bind, hrule]
  rfl

end

theorem openReal_of_shows {x : Float} (h : shows n (.real x) = true) :
    dialect.openReal n = some x := by
  obtain ⟨s, rfl, -, hk⟩ := scalar_of_shows rfl h
  simp only [Dialect.openReal, Node.scalarBy, dialect, hk]

theorem openCount_of_shows {m : Nat} (h : shows n (.count m) = true) :
    dialect.openCount n = some m := by
  obtain ⟨s, rfl, -, hk⟩ := scalar_of_shows rfl h
  simp only [Dialect.openCount, Node.scalarBy, dialect, hk]

theorem openText_of_shows {t : String} (h : shows n (.text t) = true) :
    dialect.openText n = some t ∧ dialect.openCount n = none := by
  obtain ⟨s, rfl, -, hk⟩ := scalar_of_shows rfl h
  simp only [Dialect.openText, Dialect.openCount, Node.scalarBy, dialect, hk, and_self]

theorem openList_of_listOf {α : Type} {encode : α → Datum} {read : Node → Option α}
    {values : List α} (hread : ∀ a n, shows n (encode a) = true → read n = some a)
    (h : shows n (.listOf encode values) = true) : Dialect.openList read n = some values := by
  obtain ⟨items, rfl, hitems⟩ := forall₂_of_listOf hread h
  exact mapM_eq_pure hitems

/-- A list is no number. -/
theorem openReal_of_listOf {α : Type} {encode : α → Datum} {values : List α}
    (h : shows n (.listOf encode values) = true) : dialect.openReal n = none := by
  obtain ⟨items, rfl, -⟩ := list_of_shows h
  rfl

theorem openOptional_of_shows {α : Type} {encode : α → Datum} {read : Node → Option (List α)}
    {values : Option (List α)}
    (hread : ∀ l n, shows n (.listOf encode l) = true → read n = some l)
    (h : shows n (.optional (.listOf encode) values) = true) :
    dialect.openOptional read n = some values := by
  cases values with
  | none =>
    obtain ⟨s, rfl, -, hk⟩ := scalar_of_shows rfl h
    simp only [Dialect.openOptional, dialect, hk]
  | some l =>
    have hl := hread l n h
    obtain ⟨items, rfl, -⟩ := list_of_shows h
    simp only [Dialect.openOptional, hl, Option.map_some]

theorem openFieldsFrom_of_shows {names : List String} {fields : List (Node × Node)}
    {data : List (String × Datum)} (h : List.Forall₂ ShowsField fields data) (found : Fields)
    (hnames : ∀ name ∈ data.map Prod.fst, name ∈ names)
    (hnodup : (found.map Prod.fst ++ data.map Prod.fst).Nodup) :
    ∃ fs, Found fs data ∧ dialect.openFieldsFrom names found fields = some (found ++ fs) := by
  induction h generalizing found with
  | nil => exact ⟨[], .nil, by rw [List.append_nil]; rfl⟩
  | @cons f p fields data hfield _ ih =>
    obtain ⟨key, value⟩ := f
    obtain ⟨name, d⟩ := p
    rw [List.map_cons, List.forall_mem_cons] at hnames
    have hnew : name ∉ found.map Prod.fst := by
      intro hmem
      exact (List.nodup_append.1 hnodup).2.2 name hmem name (by simp) rfl
    have hname : dialect.openName names key = some name := by
      obtain ⟨s, rfl, -, hk⟩ := scalar_of_shows rfl hfield.1
      simp only [Dialect.openName, dialect, hk, List.contains_iff_mem.2 hnames.1, if_true]
    obtain ⟨fs, hfs, hrest⟩ := ih (found ++ [(name, value)]) hnames.2 (by simpa using hnodup)
    refine ⟨(name, value) :: fs, .cons ⟨rfl, hfield.2⟩ hfs, ?_⟩
    rw [List.append_assoc] at hrest
    rw [Dialect.openFieldsFrom, hname, Option.bind_eq_bind, Option.bind_some,
      add_eq_some value hnew]
    exact hrest

/-- A record with its kind in front. -/
theorem tagged_of_shows {name kind : String} {data : List (String × Datum)}
    (hnames : name ∉ data.map Prod.fst)
    (h : shows n (.record ((name, .text kind) :: data)) = true) :
    ∃ others, List.Forall₂ ShowsField others data ∧
      dialect.tagged name n = some (kind, .named others) := by
  obtain ⟨fields, rfl, hfields⟩ := record_of_shows h
  obtain _ | @⟨⟨key, value⟩, _, others, _, hfield, hothers⟩ := hfields
  refine ⟨others, hothers, ?_⟩
  have hfirst : dialect.isKey name key = true := by
    rw [Dialect.isKey, (openText_of_shows hfield.1).1, beq_self_eq_true]
  have hrest : ∀ f ∈ others, dialect.isKey name f.1 = false := by
    intro f hf
    obtain ⟨p, hp, hkey, -⟩ := exists_of_forall₂ hothers hf
    rw [Dialect.isKey, (openText_of_shows hkey).1, beq_eq_false_iff_ne]
    rintro heq
    exact hnames (Option.some.inj heq ▸ List.mem_map_of_mem hp)
  have hparted : ((key, value) :: others).partition (fun f => dialect.isKey name f.1) =
      ([(key, value)], others) := by
    have hnone : others.filter (fun f => dialect.isKey name f.1) = [] :=
      List.filter_eq_nil_iff.2 (by simpa using hrest)
    have hall : others.filter (not ∘ fun f => dialect.isKey name f.1) = others :=
      List.filter_eq_self.2 (by simpa using hrest)
    rw [List.partition_eq_filter_filter]
    simp only [List.filter_cons, Function.comp_apply, hfirst, hnone, hall]
    rfl
  have hkind : Node.scalarBy dialect.text? value = some kind := by
    obtain ⟨s, rfl, htag, hk⟩ := scalar_of_shows rfl hfield.2
    exact congrArg some (text_of_kind? htag hk)
  simp only [Dialect.tagged, hparted, hkind]
  rfl

end Yaml

end TrajectorySafety
