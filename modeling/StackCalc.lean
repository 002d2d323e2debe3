import StackCalc.Enclosure
import StackCalc.Proofs.Chains
import StackCalc.Proofs.Choices
import StackCalc.Proofs.Collecting
import StackCalc.Proofs.Commit
import StackCalc.Proofs.Comparison
import StackCalc.Proofs.ComplexRoots
import StackCalc.Proofs.Confined
import StackCalc.Proofs.Deferred
import StackCalc.Proofs.Determinant
import StackCalc.Proofs.Direct
import StackCalc.Proofs.Elementwise
import StackCalc.Proofs.Exact
import StackCalc.Proofs.ExactPowers
import StackCalc.Proofs.Fixpoint
import StackCalc.Proofs.Flags
import StackCalc.Proofs.Hygiene
import StackCalc.Proofs.Invariant
import StackCalc.Proofs.Isolation
import StackCalc.Proofs.Legible
import StackCalc.Proofs.Levels
import StackCalc.Proofs.Limit
import StackCalc.Proofs.Literals
import StackCalc.Proofs.Nesting
import StackCalc.Proofs.PowerSizes
import StackCalc.Proofs.Promotion
import StackCalc.Proofs.Residues
import StackCalc.Proofs.Rollback
import StackCalc.Proofs.Snapshots
import StackCalc.Proofs.SignificantDigits
import StackCalc.Proofs.Survival
import StackCalc.Proofs.UndoRun
import StackCalc.Proofs.UnitGroup
import StackCalc.Proofs.WholeFloats
import StackCalc.Proofs.WordMachine
import StackCalc.Session
