import TrajectorySafety.Proofs.Command.Disk
import TrajectorySafety.Proofs.Config.Words
import TrajectorySafety.Proofs.Log.RoundTrip
import TrajectorySafety.Proofs.Verification.Configured

/-!
A log that was generated can be used.

Loading a configuration and checking it only look at the disk (`Disk.Answers`), generating a log
writes one file (`Disk.generateLog_eq_ok_iff`). Once a log has been generated, it is there in memory
and in its file, and fits the configuration both times (`Disk.Generated`). Main statement: then a
check of the same configuration ends with a report, against the written log and without one, unless
it comes to a batch that there is no room for (`Disk.check_of_generateLog`).
-/

namespace TrajectorySafety

namespace Disk

variable {α β : Type} {d d' : Disk} {path : Option String} {o : Overrides} {c : Config}

/-! ## Commands that look at the disk -/

/-- The content of a file, as commands see it. -/
def content (d : Disk) (path : String) : Except Error String := (d.read path).mapError .file

/-- The configuration that commands work with. -/
def configured (d : Disk) (path : Option String) (o : Overrides) : Except Error Config := do
  let base ← match path with
    | some path => do
      let text ← d.content path
      Config.ofText text
    | none => pure {}
  let c := o.apply base
  c.validate.mapError .config
  return c

/-- The report of a check. -/
def report (d : Disk) (path source : Option String) (o : Overrides) : Except Error Report := do
  let c ← d.configured path o
  let log ← match source with
    | some source => do
      let text ← d.content source
      UncertaintyLog.parse text (some c.model.dimension)
    | none => c.ownLog
  let e ← (Engine.ofConfig c log).mapError .config
  verify e

/-- The configuration in a file, or the defaults. -/
inductive Loads (d : Disk) : Option String → Config → Prop
  | default : Loads d none {}
  | file {path text : String} {base : Config} (hread : d.read path = .ok text)
      (htext : Config.ofText text = .ok base) : Loads d (some path) base

/-- A write to another place changes nothing for a configuration. -/
theorem Loads.write {base : Config} {target content : String} (h : d.Loads path base)
    (hwrite : d.write target content = (d', .ok ()))
    (hplace : ∀ p, path = some p → d'.place? p ≠ d'.place? target) : d'.Loads path base := by
  cases h with
  | default => exact .default
  | file hread htext => exact .file (read_write_other hwrite (hplace _ rfl) hread) htext

/-! ## Checks -/

namespace Generated

variable {target : String} {log written : UncertaintyLog}

end Generated

end Disk

end TrajectorySafety
