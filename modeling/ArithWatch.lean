import ArithWatch.Main
import ArithWatch.Execution.Arithmetic
import ArithWatch.Execution.Run
import ArithWatch.Proofs.IR.Reachability
import ArithWatch.Proofs.IR.Verified
import ArithWatch.Proofs.Check.Formula
import ArithWatch.Proofs.IR.Cut
import ArithWatch.Proofs.Check.Insertion
import ArithWatch.Proofs.Check.Pass
import ArithWatch.Proofs.Check.Preservation
import ArithWatch.Proofs.IR.Alike
import ArithWatch.Proofs.Check.Repetition
import ArithWatch.Proofs.Execution.Machine
import ArithWatch.Proofs.Check.Evaluation
import ArithWatch.Proofs.Check.Meaning
import ArithWatch.Proofs.Check.Observation
import ArithWatch.Proofs.Check.Redrawn
import ArithWatch.Proofs.Check.Simulation
import ArithWatch.Proofs.Check.Transparency
import ArithWatch.Proofs.Check.Width
import ArithWatch.Proofs.Check.Acceptance
import ArithWatch.Proofs.Execution.Safety
import ArithWatch.Proofs.Execution.Split
import ArithWatch.Proofs.Execution.TwosComplement
import ArithWatch.Proofs.Check.Records
import ArithWatch.Proofs.Check.Erased
import ArithWatch.Proofs.Check.Shape
import ArithWatch.Proofs.Check.Retagged
import ArithWatch.Proofs.Check.Format
import ArithWatch.Proofs.Check.Construction
import ArithWatch.Proofs.Check.Faultless
import ArithWatch.Proofs.Check.Verdicts
import ArithWatch.Proofs.Check.Appended
import ArithWatch.Proofs.Check.Overflow
import ArithWatch.Proofs.Check.Magnitude
import ArithWatch.Proofs.Check.Dangling
import ArithWatch.Proofs.Check.Views
import ArithWatch.Proofs.IR.Inspection
import ArithWatch.Proofs.IR.Blockwise
import ArithWatch.Proofs.Execution.Steps
import ArithWatch.Proofs.Execution.Path
import ArithWatch.Proofs.Execution.Phis
import ArithWatch.Proofs.Execution.Lockstep
import ArithWatch.Proofs.Check.Footprint
import ArithWatch.Proofs.Check.Retuned
import ArithWatch.Proofs.Check.Retuning
import ArithWatch.Proofs.Check.Tuned
import ArithWatch.Proofs.Check.Thresholds
import ArithWatch.Proofs.Number.Order
import ArithWatch.Proofs.Number.Rounding
import ArithWatch.Proofs.Check.Exceptional
import ArithWatch.Proofs.Check.Driver
import ArithWatch.Proofs.Check.Families
import ArithWatch.Proofs.IR.Widths
import ArithWatch.Proofs.Execution.Predecessors
