import TrajectorySafety.Json.Reader
import TrajectorySafety.Main
import TrajectorySafety.Proofs.Verification.Agreement
import TrajectorySafety.Proofs.Verification.Decision
import TrajectorySafety.Proofs.Verification.Soundness
import TrajectorySafety.Proofs.Safety.Views
import TrajectorySafety.Proofs.Verification.Interruption
import TrajectorySafety.Proofs.Safety.Subset
import TrajectorySafety.Proofs.Verification.Constraints
import TrajectorySafety.Proofs.Verification.Accounting
import TrajectorySafety.Proofs.Simulation.Lockstep
import TrajectorySafety.Proofs.Verification.Evidence
import TrajectorySafety.Proofs.Log.Rewriting
import TrajectorySafety.Proofs.Log.Acceptance
import TrajectorySafety.Proofs.Random.Family
import TrajectorySafety.Proofs.Verification.Reuse
import TrajectorySafety.Proofs.Verification.Reference
import TrajectorySafety.Proofs.Command.PersistedLog
import TrajectorySafety.Proofs.Log.FirstFault
import TrajectorySafety.Proofs.Log.Antitone
import TrajectorySafety.Proofs.Simulation.Shape
import TrajectorySafety.Proofs.Number.Products
import TrajectorySafety.Proofs.Number.Infinity
import TrajectorySafety.Proofs.Log.Shrinking
import TrajectorySafety.Proofs.Random.Draws
import TrajectorySafety.Proofs.Document.Shown
import TrajectorySafety.Proofs.Verification.InitialStates
import TrajectorySafety.Proofs.Bound.Quotient
import TrajectorySafety.Proofs.Config.RoundTrip
import TrajectorySafety.Proofs.Bound.Confidence
import TrajectorySafety.Proofs.Safety.Resolution
import TrajectorySafety.Proofs.Command.Settings
