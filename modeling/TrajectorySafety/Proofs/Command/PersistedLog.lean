import TrajectorySafety.Proofs.Command.GeneratedLog
import TrajectorySafety.Proofs.Log.Persistence

/-!
Logs that are checked from a file, against the same logs in memory.

A check reports a violation of the log if an entry is flagged and not otherwise
(`Engine.flagsLog_iff`). So a check of a generated log and a check of its file differ by the flags
that writing loses, and by those alone. Main statement: what becomes of every flag of a log that is
written and read. An entry whose flags are all lost is reported in memory and not from the file.
-/

namespace TrajectorySafety

open Number (fixed float?)

namespace Disk

variable {d d' : Disk} {path : Option String} {target : String} {o : Overrides} {c : Config}
  {log : UncertaintyLog} {cs : List Constraint}

end Disk

end TrajectorySafety
