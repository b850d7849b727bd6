import TrajectorySafety.Command.Path
import TrajectorySafety.Command.Run

/-!
The program: commands carried out on the files and the clock of this machine.
-/

namespace TrajectorySafety

/-- Why a file operation failed. -/
def fileFault : IO.Error → FileFault
  | .noFileOrDirectory .. => .missing
  | .alreadyExists .. => .exists
  | .inappropriateType .. => .isFolder
  | e => .stated e.toString

/-- Steps a run to its end under a time limit in nanoseconds. -/
partial def driveTimed (e : Engine Unit) (start : Nat) (limit : Option Nat) (p : Pending Unit) :
    IO (Outcome Unit) := do
  let now ← IO.monoNanosNow
  let late := limit.any fun ns => ns ≤ now - start
  match e.advance p { late } with
  | .inl outcome => return outcome
  | .inr p => driveTimed e start limit p

/-- Runs an engine and takes the time. -/
def verifyTimed (e : Engine Unit) : IO (Except Error Report) := do
  let start ← IO.monoNanosNow
  let outcome ← match e.begin { memory := () } with
    | .inl outcome => pure outcome
    | .inr p => driveTimed e start e.sampling.timeout? p
  let stop ← IO.monoNanosNow
  let elapsed := Number.nearest false (stop - start) (Number.pow10 9)
  return outcome.result.map fun r => { r with elapsedSeconds := elapsed }

/-- This machine. -/
def machine : Host IO where
  read path := do
    try
      let text ← IO.FS.readFile path
      return .ok text
    catch e => return .error (fileFault e)
  write path content := do
    try
      if let some folder := (Path.ofText path).around? then IO.FS.createDirAll folder.text
      IO.FS.writeFile path content
      return .ok ()
    catch e => return .error (fileFault e)
  verify := verifyTimed

end TrajectorySafety

open TrajectorySafety in
def main (arguments : List String) : IO UInt32 := do
  let output ← machine.run (Command.ofArguments arguments)
  (← IO.getStdout).putStr output.out
  (← IO.getStderr).putStr output.err
  return output.status.toUInt32
