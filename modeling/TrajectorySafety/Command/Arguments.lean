import TrajectorySafety.Config.Text
import TrajectorySafety.Text.Blank

/-!
What a command line asks for.

Flags are collected first (`Flags.collect`); of several values for one name the last counts. The
settings of a command are then read from them in a fixed order, and the first that cannot be read
is reported.
-/

namespace TrajectorySafety

open Number (float? unsigned?)

/-- Settings on the command line that replace configured ones. -/
structure Overrides where
  seed : Option UInt64 := none
  horizon : Option Nat := none
  probability : Option Float := none
  halfWidth : Option Float := none
  initialSet : Option (List (Float × Float)) := none
  constraint : Option Constraint := none
deriving Repr

/-- A configuration with settings replaced. A constraint replaces the whole specification. -/
def Overrides.apply (o : Overrides) (c : Config) : Config :=
  { c with
    seed := o.seed.getD c.seed
    sampling := { c.sampling with horizon := o.horizon.getD c.sampling.horizon }
    log := { c.log with
      probability := o.probability.getD c.log.probability
      halfWidth := (o.halfWidth.map HalfWidth.uniform).getD c.log.halfWidth
      initialSet := o.initialSet.getD c.log.initialSet }
    safety := match o.constraint with
      | some k => ⟨[], [⟨.index k.coordinate, k.op.symbol, some k.threshold⟩]⟩
      | none => c.safety }

/-- What is wrong with the flags of a command. -/
inductive FlagFault where
  | unexpected (argument : String)
  | valueless (name : String)
  | notNumber (name value : String)
  | bounds (text : String)
  | incompleteConstraint
  | setting (fault : Fault)
  | noLog
deriving Repr

/-- The wording of a flag fault. -/
def FlagFault.message : FlagFault → String
  | .unexpected argument => s!"unexpected argument '{argument}'"
  | .valueless name => s!"--{name} requires a value"
  | .notNumber name value => s!"--{name} expects a number, got '{value}'"
  | .bounds text => s!"--init expects pairs like \"[0.8,1],[0.8,1]\", got '{text}'"
  | .incompleteConstraint => "--state, --op and --unsafe must be given together"
  | .setting fault => (Error.config fault).message
  | .noLog => "requires --log <file>"

/-- What is wrong with a command line. -/
inductive UsageFault where
  | unknownCommand (name : String)
  | flags (command : String) (fault : FlagFault)
deriving Repr

/-- The wording of a usage fault. -/
def UsageFault.message : UsageFault → String
  | .unknownCommand name => s!"unknown command '{name}'"
  | .flags command fault => s!"'{command}' " ++ fault.message

/-- What to do. -/
inductive Command where
  /-- Simulate a reference trajectory and write its log. -/
  | generateLog (config : Option String) (log : String) (overrides : Overrides)
  /-- Verify a configuration against a log, or against one made on the spot. -/
  | check (config log : Option String) (overrides : Overrides) (json : Bool)
  /-- Tell how many samples are needed. -/
  | bound (budget confidence : Float) (strategy : BoundStrategy)
  | help
  | invalid (fault : UsageFault)
  | version
deriving Repr

/-- The flags of a command: values by name, in the order given, and switches. -/
structure Flags where
  values : List (String × String) := []
  switches : List String := []
deriving Repr

namespace Flags

/-- The flags that take no value. -/
def isSwitch (name : String) : Bool := name == "json"

/-- Adds the flags of further arguments: `--name=value`, a switch, or `--name` before its value. -/
def collectFrom (flags : Flags) : List String → Except FlagFault Flags
  | [] => .ok flags
  | argument :: rest =>
    match Text.dropLeading? ['-', '-'] argument.toList with
    | none => .error (.unexpected argument)
    | some name =>
      match Text.splitOnce '=' name with
      | some (key, value) =>
        let value := (String.ofList key, String.ofList value)
        collectFrom { flags with values := flags.values ++ [value] } rest
      | none =>
        let name := String.ofList name
        if isSwitch name then
          collectFrom { flags with switches := flags.switches ++ [name] } rest
        else
          match rest with
          | [] => .error (.valueless name)
          | value :: rest =>
            collectFrom { flags with values := flags.values ++ [(name, value)] } rest

/-- The flags of all arguments. -/
def collect (arguments : List String) : Except FlagFault Flags := collectFrom {} arguments

/-- The last value for a name. -/
def get? (flags : Flags) (name : String) : Option String := flags.values.reverse.lookup name

/-- Whether a switch was given. -/
def has (flags : Flags) (name : String) : Bool := flags.switches.contains name

/-- The last value for a name, read by a rule, if there is one. -/
def read {α : Type} (flags : Flags) (name : String) (rule : String → Except FlagFault α) :
    Except FlagFault (Option α) :=
  match flags.get? name with
  | none => .ok none
  | some value => some <$> rule value

/-- The number given for a name, if there is one. -/
def number {α : Type} (flags : Flags) (name : String) (rule : List Char → Option α) :
    Except FlagFault (Option α) :=
  flags.read name fun value =>
    match rule value.toList with
    | some n => .ok n
    | none => .error (.notNumber name value)

/-- The constraint of three flags, which are all given or all missing. -/
def constraint (flags : Flags) : Except FlagFault (Option Constraint) := do
  let coordinate ← flags.number "state" unsigned?
  let op ← flags.read "op" fun token => (Operator.parse token).mapError .setting
  let threshold ← flags.number "unsafe" float?
  match coordinate, op, threshold with
  | some coordinate, some op, some threshold => return some ⟨coordinate, op, threshold⟩
  | none, none, none => return none
  | _, _, _ => throw .incompleteConstraint

/-- The settings that replace configured ones. -/
def overrides (flags : Flags) : Except FlagFault Overrides := do
  let initialSet ← flags.read "init" fun text =>
    match boundsOfText? text with
    | some bounds => .ok bounds
    | none => .error (.bounds text)
  let constraint ← flags.constraint
  let seed ← flags.number "seed" unsigned?
  let horizon ← flags.number "horizon" unsigned?
  let probability ← flags.number "prob" float?
  let halfWidth ← flags.number "epsilon" float?
  return { seed := seed.map Nat.toUInt64, horizon, probability, halfWidth, initialSet, constraint }

end Flags

namespace Command

/-- The command of its flags, or what is wrong with them. -/
def ofFlags (name : String) (read : Flags → Except FlagFault Command) (arguments : List String) :
    Command :=
  match Flags.collect arguments >>= read with
  | .ok command => command
  | .error fault => .invalid (.flags name fault)

/-- The log of a reference trajectory needs a place to go to. -/
def readGenerateLog (flags : Flags) : Except FlagFault Command := do
  match flags.get? "log" with
  | none => throw .noLog
  | some log =>
    let overrides ← flags.overrides
    return .generateLog (flags.get? "config") log overrides

def readCheck (flags : Flags) : Except FlagFault Command := do
  let overrides ← flags.overrides
  return .check (flags.get? "config") (flags.get? "log") overrides (flags.has "json")

def readBound (flags : Flags) : Except FlagFault Command := do
  let base : BoundConfig := {}
  let budget ← flags.number "budget" float?
  let confidence ← flags.number "confidence" float?
  let strategy ← flags.read "strategy" fun name => (BoundStrategy.parse name).mapError .setting
  return .bound (budget.getD base.budget) (confidence.getD base.confidence)
    (strategy.getD base.strategy)

/-- The command of the arguments after the name of the program. -/
def ofArguments : List String → Command
  | [] => .help
  | name :: arguments =>
    if name == "generate-log" || name == "generateLog" then
      ofFlags "generate-log" readGenerateLog arguments
    else if name == "check" || name == "checkSafety" then ofFlags "check" readCheck arguments
    else if name == "bound" then ofFlags "bound" readBound arguments
    else if name == "-h" || name == "--help" || name == "help" then .help
    else if name == "-V" || name == "--version" || name == "version" then .version
    else .invalid (.unknownCommand name)

end Command

end TrajectorySafety
