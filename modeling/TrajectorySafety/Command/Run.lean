import TrajectorySafety.Command.Arguments
import TrajectorySafety.Json.Writer
import TrajectorySafety.Log.Text
import TrajectorySafety.Verification

/-!
Carrying out a command.

A command reads and writes files and runs engines through a `Host`, so that it can be carried out on
the files and the clock of a machine or on those of a model of one.
-/

namespace TrajectorySafety

/-- What a command needs from outside. -/
structure Host (m : Type → Type) where
  /-- The content of a file. -/
  read : (path : String) → m (Except FileFault String)
  /-- Writes a file, with the folders on the way to it. -/
  write : (path content : String) → m (Except FileFault Unit)
  /-- Runs an engine. -/
  verify : Engine Unit → m (Except Error Report)

/-- What a command leaves behind: its exit status and what it printed. -/
structure Output where
  status : Nat
  out : String := ""
  err : String := ""
deriving Repr, DecidableEq

namespace Output

/-- The end of a command that failed. -/
def failed (message : String) : Output := { status := 2, err := s!"Error: {message}\n" }

/-- The end of a command under which the program stopped: nothing but the message, without the place
in the program that comes before it. -/
def crashed (message : String) : Output := { status := 101, err := s!"{message}\n" }

/-- The end of a command with an error. -/
def ofError : Error → Output
  | .capacity => crashed Error.capacity.message
  | e => failed e.message

/-- The exit status of a verdict. -/
def verdictStatus : Verdict → Nat
  | .safe => 0
  | .violated .. => 1
  | .inconclusive .. => 3

/-- A report as JSON or as a summary. -/
def ofReport (json : Bool) (r : Report) : Output where
  status := verdictStatus r.verdict
  out := if json then Json.pretty r.datum ++ "\n" else r.summary

/-- The summary of a log that was written. -/
def ofLog (path : String) (log : UncertaintyLog) : Output where
  status := 0
  out := s!"Log generated: {log.length} entries over t=0..={log.maxTime}, " ++
    s!"dimension {log.dimension}\nStored at: {path}\n"

def version : Output := { status := 0, out := "verisim 0.1.0\n" }

/-- What the program can do. -/
def usage : String := "\n".intercalate [
  "verisim - Statistical safety verification against uncertainty logs",
  "",
  "USAGE:",
  "    verisim <COMMAND> [OPTIONS]",
  "",
  "COMMANDS:",
  "    generate-log                Simulate a reference trajectory and write its log",
  "        --log <file>            Output log file (required)",
  "        --config <file.yaml>    Configuration (defaults when omitted)",
  "        --init \"[lo,hi],...\"    Initial set, one interval per coordinate",
  "        --horizon <T>           Trajectory length",
  "        --prob <P>              Logging probability in percent, (0, 100]",
  "        --epsilon <E>           Box half-width for every coordinate",
  "        --seed <N>              Override the configured seed",
  "",
  "    check                       Verify safety against an uncertainty log",
  "        --log <file>            Log to check (generated in memory when omitted)",
  "        --config <file.yaml>    Configuration (defaults when omitted)",
  "        --state <i> --op <op> --unsafe <v>",
  "                                Single constraint; op is one of",
  "                                <, <=, >, >=, lt, le, gt, ge",
  "        --horizon <T>           Trajectory length",
  "        --seed <N>              Override the configured seed",
  "        --json                  Print the report as JSON",
  "",
  "    bound                       Print the required number of safe samples",
  "        --budget <B>            Bayes-factor threshold (default: 100000)",
  "        --confidence <c>        Confidence level (default: 0.99)",
  "        --strategy <name>       jeffreys | beta-posterior",
  "",
  "    help                        Show this help message",
  "    version                     Show version information",
  "",
  "EXIT STATUS:",
  "    0 SAFE (or success), 1 UNSAFE, 2 error, 3 INCONCLUSIVE",
  "",
  "LOGGING:",
  "    Diagnostics go to stderr; set RUST_LOG (e.g. RUST_LOG=debug) to adjust.",
  "",
  "EXAMPLES:",
  "    verisim generate-log --log traj.log --init \"[0.8,1],[0.8,1]\" --horizon 50 --prob 10",
  "    verisim check --log traj.log --horizon 50 --state 1 --op le --unsafe 0.5",
  "    verisim check --config verify.yaml --log traj.log --json",
  "    verisim bound --budget 1000 --confidence 0.95",
  "",
  ""]

def help : Output := { status := 0, out := usage }

/-- A command line that makes no sense is answered with the reason and the usage. -/
def invalid (fault : UsageFault) : Output := { failed fault.message with out := usage }

end Output

/-- The log of a configuration's own reference trajectory. -/
def Config.ownLog (c : Config) : Except Error UncertaintyLog := do
  let model ← c.model.build.mapError .config
  match referenceLog c model () with
  | .ok (_, log) _ => return log
  | .error e _ => throw e

/-- How many samples are needed, as a sentence. -/
def boundOutput (budget confidence : Float) (strategy : BoundStrategy) : Output :=
  match strategy.rule budget confidence with
  | .ok k =>
    { status := 0
      out := s!"{strategy.name} bound: B={Number.text budget}, c={Number.text confidence} " ++
        s!"=> K={k}\n" }
  | .error fault => .failed (Error.config fault).message

namespace Host

variable {m : Type → Type} [Monad m] (host : Host m)

/-- The content of a file. -/
def content (path : String) : ExceptT Error m String := do
  match ← host.read path with
  | .ok text => return text
  | .error fault => throw (.file fault)

/-- The configuration of a file, or the defaults, with settings replaced. -/
def config (path : Option String) (overrides : Overrides) : ExceptT Error m Config := do
  let base ← match path with
    | some path => do
      let text ← host.content path
      ofExcept (Config.ofText text)
    | none => pure {}
  let c := overrides.apply base
  ofExcept (c.validate.mapError .config)
  return c

/-- Makes the log of a configuration and writes it. -/
def generateLog (path : Option String) (target : String) (overrides : Overrides) :
    ExceptT Error m UncertaintyLog := do
  let c ← host.config path overrides
  let log ← ofExcept c.ownLog
  match ← host.write target log.text with
  | .ok () => return log
  | .error fault => throw (.file fault)

/-- Verifies a configuration against the log of a file, or against its own. -/
def check (path source : Option String) (overrides : Overrides) : ExceptT Error m Report := do
  let c ← host.config path overrides
  let log ← match source with
    | some source => do
      let text ← host.content source
      ofExcept (UncertaintyLog.parse text (some c.model.dimension))
    | none => ofExcept c.ownLog
  let engine ← ofExcept ((Engine.ofConfig c log).mapError .config)
  ExceptT.mk (host.verify engine)

/-- The output of a computation that may fail. -/
def answer {α : Type} (render : α → Output) (x : ExceptT Error m α) : m Output := do
  match ← x.run with
  | .ok a => return render a
  | .error e => return .ofError e

/-- Carries out a command. -/
def run : Command → m Output
  | .generateLog path target overrides =>
    answer (.ofLog target) (host.generateLog path target overrides)
  | .check path source overrides json =>
    answer (.ofReport json) (host.check path source overrides)
  | .bound budget confidence strategy => return boundOutput budget confidence strategy
  | .help => return .help
  | .invalid fault => return .invalid fault
  | .version => return .version

end Host

end TrajectorySafety
