import TrajectorySafety.Command.Disk
import TrajectorySafety.Proofs.Success

/-!
What writing a file does to a disk, and what commands see of it.

Making folders only adds names (`grows_makeFolders`), and a file never takes the place of a folder,
so a path that led somewhere still leads there after a write. What was written is read back
(`read_write`), and every other file is as it was (`read_write_other`).
-/

namespace TrajectorySafety

namespace Disk

variable {d d' : Disk} {p : Path} {way : Way} {name : String}

/-! ## Names that stay -/

/-- Every name that stands for something still stands for it. -/
def Grows (d d' : Disk) : Prop :=
  ∀ way name e, d.entry? way name = some e → d'.entry? way name = some e

/-- Every name that stands for a folder still stands for it. -/
def KeepsFolders (d d' : Disk) : Prop :=
  ∀ way name number, d.entry? way name = some (.folder number) →
    d'.entry? way name = some (.folder number)

theorem Grows.keepsFolders (h : d.Grows d') : d.KeepsFolders d' :=
  fun way name number => h way name (.folder number)

theorem grows_refl (d : Disk) : d.Grows d := fun _ _ _ h => h

theorem Grows.trans {d₁ d₂ d₃ : Disk} (h : d₁.Grows d₂) (h' : d₂.Grows d₃) : d₁.Grows d₃ :=
  fun way name e he => h' way name e (h way name e he)

theorem entry?_put_of_ne {e : Entry} {way' : Way} {name' : String}
    (h : (⟨way.headD 0, name⟩ : Slot) ≠ ⟨way'.headD 0, name'⟩) :
    entry? (d.put way name e) way' name' = d.entry? way' name' := by
  simp only [put, entry?, Std.HashMap.getElem?_insert, beq_iff_eq, h, if_false]

theorem entry?_eq_of_slot_eq {way' : Way} {name' : String}
    (h : (⟨way.headD 0, name⟩ : Slot) = ⟨way'.headD 0, name'⟩) :
    d.entry? way name = d.entry? way' name' := by
  unfold entry?
  rw [h]

/-- A name that stands for nothing can be used without loss. -/
theorem grows_put (h : d.entry? way name = none) (e : Entry) : d.Grows (d.put way name e) := by
  intro way' name' e' he'
  rw [entry?_put_of_ne, he']
  intro heq
  rw [entry?_eq_of_slot_eq heq, he'] at h
  cases h

/-- A name that does not stand for a folder can be used without losing a folder. -/
theorem keepsFolders_put (h : d.isFolder way name = false) (e : Entry) :
    d.KeepsFolders (d.put way name e) := by
  intro way' name' number he'
  rw [entry?_put_of_ne, he']
  intro heq
  simp [isFolder, entry?_eq_of_slot_eq heq, he'] at h

/-! ## Paths that lead where they led -/

theorem KeepsFolders.enter (h : d.KeepsFolders d') {way' : Way}
    (he : d.enter way name = .ok way') : d'.enter way name = .ok way' := by
  unfold Disk.enter at he ⊢
  split at he
  · next hdot => rwa [if_pos hdot]
  · next hdot =>
    rw [if_neg hdot]
    split at he
    · next hdots => rwa [if_pos hdots]
    · next hdots =>
      rw [if_neg hdots]
      obtain ⟨u, hname, he⟩ := bind_eq_ok_iff.1 he
      refine bind_eq_ok_iff.2 ⟨u, hname, ?_⟩
      split at he
      · next number hentry => rwa [h _ _ _ hentry]
      · cases he
      · cases he

theorem KeepsFolders.enterAll (h : d.KeepsFolders d') {names : List String} {way' : Way}
    (he : names.foldlM d.enter way = .ok way') : names.foldlM d'.enter way = .ok way' := by
  induction names generalizing way with
  | nil => exact he
  | cons first rest ih =>
    rw [List.foldlM_cons] at he ⊢
    obtain ⟨between, hfirst, hrest⟩ := bind_eq_ok_iff.1 he
    exact bind_eq_ok_iff.2 ⟨between, h.enter hfirst, ih hrest⟩

theorem KeepsFolders.walk (h : d.KeepsFolders d') {goal : Goal} (hw : d.walk p = .ok goal) :
    d'.walk p = .ok goal := by
  unfold Disk.walk at hw ⊢
  obtain ⟨u, hcheck, hw⟩ := bind_eq_ok_iff.1 hw
  refine bind_eq_ok_iff.2 ⟨u, hcheck, ?_⟩
  cases hlast : p.names.getLast? with
  | none =>
    rw [hlast] at hw
    exact hw
  | some last =>
    rw [hlast] at hw
    obtain ⟨way, hway, hw⟩ := bind_eq_ok_iff.1 hw
    refine bind_eq_ok_iff.2 ⟨way, h.enterAll hway, ?_⟩
    split at hw
    · next hdots =>
      rw [if_pos hdots]
      obtain ⟨way', hway', hw⟩ := bind_eq_ok_iff.1 hw
      exact bind_eq_ok_iff.2 ⟨way', h.enter hway', hw⟩
    · next hdots => rwa [if_neg hdots]

/-- A path of a file leads to a name in a folder. -/
structure Leads (d : Disk) (p : Path) (way : Way) (name : String) : Prop where
  walk : d.walk p = .ok (.entry way name)
  no_slash : p.endsInSlash = false
  name_ok : checkName name = .ok ()

theorem KeepsFolders.leads (h : d.KeepsFolders d') (hp : d.Leads p way name) :
    d'.Leads p way name :=
  ⟨h.walk hp.walk, hp.no_slash, hp.name_ok⟩

/-! ## Writing -/

theorem grows_makeFolder (h : d.makeFolder p = .ok d') : d.Grows d' := by
  obtain ⟨goal, -, h⟩ := bind_eq_ok_iff.1 h
  cases goal with
  | folder way => cases h
  | entry way name =>
    obtain ⟨u, -, h⟩ := bind_eq_ok_iff.1 h
    obtain ⟨hnone, h⟩ := ok_of_refuse h
    cases h
    exact grows_put (Option.not_isSome_iff_eq_none.1 hnone) _

/-- What is made around the place of a path comes first. -/
theorem grows_around {made : Except FileFault Unit}
    (ih : ∀ folder, p.around? = some folder → d.Grows (d.makeFolders folder).1)
    (h : (match _ : p.around? with
      | some folder => d.makeFolders folder
      | none => (d, .ok ())) = (d', made)) : d.Grows d' := by
  split at h
  · next folder hfolder =>
    have hgrows := ih folder hfolder
    rwa [h] at hgrows
  · cases h
    exact grows_refl d

theorem grows_makeFolders (d : Disk) (p : Path) : d.Grows (d.makeFolders p).1 := by
  fun_induction makeFolders d p with
  | case1 p d₁ hmade => exact grows_makeFolder hmade
  | case2 p hmissing d₁ fault hmade ih => exact grows_around ih hmade
  | case3 p hmissing d₁ d₂ hlast hmade ih =>
    exact (grows_around ih hmade).trans (grows_makeFolder hlast)
  | case4 p settle hmissing d₁ fault hlast hmade ih => exact grows_around ih hmade
  | case5 p settle fault hother hmade => exact grows_refl d

theorem writeFile_eq_ok {content : String} (h : d.writeFile p content = .ok d') :
    ∃ way name, d.Leads p way name ∧ d.isFolder way name = false ∧
      d' = d.put way name (.file content) := by
  obtain ⟨goal, hgoal, h⟩ := bind_eq_ok_iff.1 h
  cases goal with
  | folder way => cases h
  | entry way name =>
    obtain ⟨hslash, h⟩ := ok_of_refuse h
    obtain ⟨u, hname, h⟩ := bind_eq_ok_iff.1 h
    obtain ⟨hfolder, h⟩ := ok_of_refuse h
    cases h
    exact ⟨way, name, ⟨hgoal, Bool.eq_false_iff.2 hslash, hname⟩, Bool.eq_false_iff.2 hfolder, rfl⟩

/-- A write makes folders, and then writes the file into a folder that is there. -/
theorem write_eq_ok {path content : String} (h : d.write path content = (d', .ok ())) :
    ∃ d₁, d.Grows d₁ ∧ d₁.writeFile (.ofText path) content = .ok d' := by
  unfold write at h
  cases haround : (Path.ofText path).around? with
  | none =>
    simp only [haround] at h
    split at h
    · next hfile =>
      cases h
      exact ⟨d, grows_refl d, hfile⟩
    · cases h
  | some folder =>
    simp only [haround] at h
    split at h
    · cases h
    · split at h
      · next hfile =>
        cases h
        exact ⟨_, d.grows_makeFolders folder, hfile⟩
      · cases h

theorem read_eq_ok_iff {path content : String} :
    d.read path = .ok content ↔
      ∃ way name, d.Leads (.ofText path) way name ∧
        d.entry? way name = some (.file content) := by
  constructor
  · intro h
    obtain ⟨goal, hgoal, h⟩ := bind_eq_ok_iff.1 h
    cases goal with
    | folder way => cases h
    | entry way name =>
      obtain ⟨u, hname, h⟩ := bind_eq_ok_iff.1 h
      split at h
      · cases h
      · next hentry =>
        split at h
        · cases h
        · next hslash =>
          cases h
          exact ⟨way, name, ⟨hgoal, Bool.eq_false_iff.2 hslash, hname⟩, hentry⟩
      · cases h
  · rintro ⟨way, name, hp, hentry⟩
    refine bind_eq_ok_iff.2 ⟨_, hp.walk, bind_eq_ok_iff.2 ⟨(), hp.name_ok, ?_⟩⟩
    simp only [hentry, hp.no_slash, Bool.false_eq_true, if_false]
    rfl

/-- The name in a folder that a path leads to. -/
def place? (d : Disk) (path : String) : Option Slot :=
  match d.walk (.ofText path) with
  | .ok (.entry way name) => some ⟨way.headD 0, name⟩
  | _ => none

theorem Leads.place? {path : String} (h : d.Leads (.ofText path) way name) :
    d.place? path = some ⟨way.headD 0, name⟩ := by
  rw [Disk.place?, h.walk]

/-- A file in another place is as it was. -/
theorem read_write_other {path content other text : String}
    (h : d.write path content = (d', .ok ())) (hplace : d'.place? other ≠ d'.place? path)
    (hread : d.read other = .ok text) : d'.read other = .ok text := by
  obtain ⟨d₁, hgrows, h⟩ := write_eq_ok h
  obtain ⟨way, name, hp, hfolder, rfl⟩ := writeFile_eq_ok h
  obtain ⟨way', name', hother, hentry⟩ := read_eq_ok_iff.1 hread
  have hkeeps := keepsFolders_put hfolder (.file content)
  have hother' := hkeeps.leads (hgrows.keepsFolders.leads hother)
  rw [hother'.place?, (hkeeps.leads hp).place?] at hplace
  have hne : (⟨way.headD 0, name⟩ : Slot) ≠ ⟨way'.headD 0, name'⟩ :=
    fun heq => hplace (congrArg some heq.symm)
  refine read_eq_ok_iff.2 ⟨way', name', hother', ?_⟩
  rw [entry?_put_of_ne hne]
  exact hgrows _ _ _ hentry

end Disk

end TrajectorySafety
