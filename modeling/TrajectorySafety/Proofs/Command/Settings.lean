import TrajectorySafety.Command.Arguments
import TrajectorySafety.Proofs.Text.Pieces

/-!
Command lines that say the same.

How flags are written is said without the collector (`Spells`): a value stands behind its name,
joined to it by an equals sign or as the next argument, and a switch stands alone. The collector
reads exactly what is written so (`collect_eq_ok_iff`). What a command line sets are the last values
of the names and whether its switch is there (`SameSettings`), and everything that a command is made
of is read from these.
-/

namespace TrajectorySafety

namespace Flags

/-! ## How flags are written -/

/-- The arguments are a way to write the flags. A value may be any text, a name has no equals sign
in it. -/
inductive Spells : List String → Flags → Prop
  | nil : Spells [] {}
  | joined {rest : List String} {flags : Flags} (name value : String)
      (hname : '=' ∉ name.toList) (h : Spells rest flags) :
    Spells (("--" ++ name ++ "=" ++ value) :: rest)
      { flags with values := (name, value) :: flags.values }
  | spaced {rest : List String} {flags : Flags} (name value : String)
      (hname : '=' ∉ name.toList) (hjson : name ≠ "json") (h : Spells rest flags) :
    Spells (("--" ++ name) :: value :: rest)
      { flags with values := (name, value) :: flags.values }
  | json {rest : List String} {flags : Flags} (h : Spells rest flags) :
    Spells ("--json" :: rest) { flags with switches := "json" :: flags.switches }

/-- Flags with further ones behind them. -/
def append (flags more : Flags) : Flags :=
  ⟨flags.values ++ more.values, flags.switches ++ more.switches⟩

theorem dropLeading?_dashes_iff {argument : String} {cs : List Char} :
    Text.dropLeading? ['-', '-'] argument.toList = some cs ↔
      argument = "--" ++ String.ofList cs := by
  have hdashes : "--".toList = ['-', '-'] := rfl
  rw [Text.dropLeading?_eq_some_iff, ← String.toList_inj, String.toList_append, hdashes,
    String.toList_ofList]

theorem joined_eq_ofList (name value : List Char) :
    "--" ++ String.ofList name ++ "=" ++ String.ofList value =
      "--" ++ String.ofList (name ++ '=' :: value) := by
  have hequals : "=".toList = ['='] := rfl
  simp only [← String.toList_inj, String.toList_append, String.toList_ofList, hequals,
    List.append_assoc, List.singleton_append]

theorem collectFrom_joined (flags : Flags) {name : String} (value : String) (rest : List String)
    (hname : '=' ∉ name.toList) :
    collectFrom flags (("--" ++ name ++ "=" ++ value) :: rest) =
      collectFrom { flags with values := flags.values ++ [(name, value)] } rest := by
  have hdrop : Text.dropLeading? ['-', '-'] ("--" ++ name ++ "=" ++ value).toList =
      some (name.toList ++ '=' :: value.toList) := by
    rw [dropLeading?_dashes_iff, ← joined_eq_ofList, String.ofList_toList, String.ofList_toList]
  have hsplit : Text.splitOnce '=' (name.toList ++ '=' :: value.toList) =
      some (name.toList, value.toList) :=
    Text.splitOnce_append _ fun c hc heq => hname (heq ▸ hc)
  simp only [collectFrom, hdrop, hsplit, String.ofList_toList]

theorem collectFrom_spaced (flags : Flags) {name : String} (value : String) (rest : List String)
    (hname : '=' ∉ name.toList) (hjson : name ≠ "json") :
    collectFrom flags (("--" ++ name) :: value :: rest) =
      collectFrom { flags with values := flags.values ++ [(name, value)] } rest := by
  have hdrop : Text.dropLeading? ['-', '-'] ("--" ++ name).toList = some name.toList := by
    rw [dropLeading?_dashes_iff, String.ofList_toList]
  have hswitch : isSwitch name = false := beq_eq_false_iff_ne.2 hjson
  rw [collectFrom]
  simp only [hdrop, Text.splitOnce_eq_none_iff.2 hname, String.ofList_toList, hswitch]
  rfl

theorem collectFrom_json (flags : Flags) (rest : List String) :
    collectFrom flags ("--json" :: rest) =
      collectFrom { flags with switches := flags.switches ++ ["json"] } rest := by
  rw [collectFrom]
  rfl

theorem exists_spells_of_collectFrom {flags all : Flags} {arguments : List String}
    (h : collectFrom flags arguments = .ok all) :
    ∃ more, Spells arguments more ∧ all = flags.append more := by
  -- along the collector's own cases: no dashes, an equals sign, a switch, no value, a value
  fun_induction collectFrom flags arguments with
  | case1 flags =>
    cases h
    exact ⟨{}, .nil, by simp [append]⟩
  | case2 flags argument rest hargument => cases h
  | case3 flags argument rest cs hargument key value hsplit pair ih =>
    obtain ⟨more, hmore, rfl⟩ := ih h
    obtain ⟨rfl, hkey⟩ := Text.splitOnce_eq_some_iff.1 hsplit
    have hname : '=' ∉ (String.ofList key).toList := by
      rw [String.toList_ofList]
      exact fun hmem => hkey _ hmem rfl
    rw [dropLeading?_dashes_iff.1 hargument, ← joined_eq_ofList]
    exact ⟨_, .joined _ _ hname hmore, by simp [append, pair]⟩
  | case4 flags argument rest cs hargument hsplit name hswitch ih =>
    obtain ⟨more, hmore, rfl⟩ := ih h
    have hname : String.ofList cs = "json" := eq_of_beq hswitch
    rw [dropLeading?_dashes_iff.1 hargument, hname]
    exact ⟨_, .json hmore, by simp [append, name, hname]⟩
  | case5 => cases h
  | case6 flags argument cs hargument hsplit name hswitch value rest ih =>
    obtain ⟨more, hmore, rfl⟩ := ih h
    have hname : '=' ∉ name.toList := by
      rw [String.toList_ofList]
      exact Text.splitOnce_eq_none_iff.1 hsplit
    have hjson : name ≠ "json" := fun hname => hswitch (beq_iff_eq.2 hname)
    rw [dropLeading?_dashes_iff.1 hargument]
    exact ⟨_, .spaced _ _ hname hjson hmore, by simp [append, name]⟩

theorem collectFrom_of_spells {arguments : List String} {more : Flags}
    (h : Spells arguments more) (flags : Flags) :
    collectFrom flags arguments = .ok (flags.append more) := by
  induction h generalizing flags with
  | nil => simp [collectFrom, append]
  | joined name value hname h ih =>
    rw [collectFrom_joined _ _ _ hname, ih]
    simp [append]
  | spaced name value hname hjson h ih =>
    rw [collectFrom_spaced _ _ _ hname hjson, ih]
    simp [append]
  | json h ih =>
    rw [collectFrom_json, ih]
    simp [append]

/-- Arguments are collected to the flags that they are a way to write. -/
theorem collect_eq_ok_iff {arguments : List String} {flags : Flags} :
    collect arguments = .ok flags ↔ Spells arguments flags := by
  have hempty : ∀ more : Flags, append {} more = more := fun more => by simp [append]
  constructor
  · intro h
    obtain ⟨more, hmore, rfl⟩ := exists_spells_of_collectFrom h
    rwa [hempty]
  · intro h
    rw [collect, collectFrom_of_spells h, hempty]

/-! ## What flags set -/

theorem get?_eq_some_iff {flags : Flags} {name value : String} :
    flags.get? name = some value ↔
      ∃ before after, flags.values = before ++ (name, value) :: after ∧
        ∀ other, (name, other) ∉ after := by
  rw [get?, List.lookup_eq_some_iff]
  constructor
  · rintro ⟨later, earlier, hvalues, hlater⟩
    refine ⟨earlier.reverse, later.reverse, ?_, fun other hother => ?_⟩
    · rw [← List.reverse_inj, hvalues]
      simp
    · have hne := hlater _ (List.mem_reverse.1 hother)
      simp at hne
  · rintro ⟨before, after, hvalues, hafter⟩
    refine ⟨after.reverse, before.reverse, by simp [hvalues], fun p hp => ?_⟩
    obtain ⟨key, other⟩ := p
    rw [bne_iff_ne]
    rintro rfl
    exact hafter other (List.mem_reverse.1 hp)

/-- The last value that is given for a name. -/
def LastValue (arguments : List String) (name value : String) : Prop :=
  ∃ flags before after, Spells arguments flags ∧
    flags.values = before ++ (name, value) :: after ∧ ∀ other, (name, other) ∉ after

/-- The bare switch is given. -/
def Switched (arguments : List String) : Prop :=
  ∃ flags, Spells arguments flags ∧ "json" ∈ flags.switches

/-- Two lists of arguments give the same last values, and both or neither give the switch. -/
structure SameSettings (a b : List String) : Prop where
  values : ∀ name value, LastValue a name value ↔ LastValue b name value
  json : Switched a ↔ Switched b

theorem lastValue_iff {arguments : List String} {flags : Flags}
    (h : collect arguments = .ok flags) {name value : String} :
    LastValue arguments name value ↔ flags.get? name = some value := by
  rw [get?_eq_some_iff]
  constructor
  · rintro ⟨written, before, after, hwritten, hvalues⟩
    cases h.symm.trans (collect_eq_ok_iff.2 hwritten)
    exact ⟨before, after, hvalues⟩
  · rintro ⟨before, after, hvalues⟩
    exact ⟨flags, before, after, collect_eq_ok_iff.1 h, hvalues⟩

theorem switched_iff {arguments : List String} {flags : Flags}
    (h : collect arguments = .ok flags) : Switched arguments ↔ flags.has "json" = true := by
  rw [has, List.contains_iff_mem]
  constructor
  · rintro ⟨written, hwritten, hjson⟩
    cases h.symm.trans (collect_eq_ok_iff.2 hwritten)
    exact hjson
  · intro hjson
    exact ⟨flags, collect_eq_ok_iff.1 h, hjson⟩

theorem sameSettings_iff {a b : List String} {f g : Flags} (ha : collect a = .ok f)
    (hb : collect b = .ok g) :
    SameSettings a b ↔ f.get? = g.get? ∧ f.has "json" = g.has "json" := by
  constructor
  · rintro ⟨hvalues, hjson⟩
    refine ⟨?_, ?_⟩
    · funext name
      refine Option.ext fun value => ?_
      rw [← lastValue_iff ha, ← lastValue_iff hb]
      exact hvalues name value
    · rw [Bool.eq_iff_iff, ← switched_iff ha, ← switched_iff hb]
      exact hjson
  · rintro ⟨hvalues, hjson⟩
    refine ⟨fun name value => ?_, ?_⟩
    · rw [lastValue_iff ha, lastValue_iff hb, hvalues]
    · rw [switched_iff ha, switched_iff hb, hjson]

/-! ## What is read from flags -/

section
variable {f g : Flags} (h : f.get? = g.get?)
include h

theorem read_congr {α : Type} (name : String) (rule : String → Except FlagFault α) :
    f.read name rule = g.read name rule := by
  rw [read, read, h]

theorem number_congr {α : Type} (name : String) (rule : List Char → Option α) :
    f.number name rule = g.number name rule := read_congr h name _

theorem constraint_congr : f.constraint = g.constraint := by
  simp only [constraint, number_congr h, read_congr h]

theorem overrides_congr : f.overrides = g.overrides := by
  simp only [overrides, constraint_congr h, number_congr h, read_congr h]

end

end Flags

namespace Command

open Flags

theorem readGenerateLog_congr {f g : Flags} (h : f.get? = g.get?) :
    readGenerateLog f = readGenerateLog g := by
  simp only [readGenerateLog, h, overrides_congr h]

theorem readCheck_congr {f g : Flags} (h : f.get? = g.get?) (hjson : f.has "json" = g.has "json") :
    readCheck f = readCheck g := by
  simp only [readCheck, h, hjson, overrides_congr h]

theorem readBound_congr {f g : Flags} (h : f.get? = g.get?) : readBound f = readBound g := by
  simp only [readBound, number_congr h, read_congr h]

theorem ofFlags_of_collect {arguments : List String} {flags : Flags}
    (h : collect arguments = .ok flags) (name : String)
    (read : Flags → Except FlagFault Command) :
    ofFlags name read arguments =
      match read flags with
      | .ok command => command
      | .error fault => .invalid (.flags name fault) := by
  rw [ofFlags, h]
  rfl

/-- Arguments with the same settings make the same command. -/
theorem ofArguments_of_sameSettings {a b : List String} {f g : Flags} (ha : collect a = .ok f)
    (hb : collect b = .ok g) (h : SameSettings a b) (command : String) :
    ofArguments (command :: a) = ofArguments (command :: b) := by
  obtain ⟨hget, hjson⟩ := (sameSettings_iff ha hb).1 h
  simp only [ofArguments, ofFlags_of_collect ha, ofFlags_of_collect hb, readGenerateLog_congr hget,
    readCheck_congr hget hjson, readBound_congr hget]

/-- A seed that is given twice, and a log whose name looks like a flag. -/
theorem ofArguments_respelled :
    let a := ["--seed=1", "--log", "--x=1", "--json", "--seed", "2"]
    let b := ["--json", "--log=--x=1", "--seed=2", "--json"]
    collect a = .ok ⟨[("seed", "1"), ("log", "--x=1"), ("seed", "2")], ["json"]⟩ ∧
      collect b = .ok ⟨[("log", "--x=1"), ("seed", "2")], ["json", "json"]⟩ ∧
      SameSettings a b ∧ ofArguments ("check" :: a) = ofArguments ("check" :: b) := by
  intro a b
  have ha : collect a = .ok ⟨[("seed", "1"), ("log", "--x=1"), ("seed", "2")], ["json"]⟩ := by
    cbv
  have hb : collect b = .ok ⟨[("log", "--x=1"), ("seed", "2")], ["json", "json"]⟩ := by
    cbv
  have hsame : SameSettings a b := by
    refine (sameSettings_iff ha hb).2 ⟨?_, rfl⟩
    funext name
    by_cases hseed : name = "seed"
    · rw [hseed]
      rfl
    · have hne : (name == "seed") = false := beq_eq_false_iff_ne.2 hseed
      simp [get?, List.lookup_cons, hne]
  exact ⟨ha, hb, hsame, ofArguments_of_sameSettings ha hb hsame "check"⟩

end Command

end TrajectorySafety
