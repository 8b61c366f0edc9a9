import ArithCircuit.BitLength
import ArithCircuit.Blueprint
import ArithCircuit.Builder.Definition
import ArithCircuit.Builder.Gadgets
import ArithCircuit.Builder.State
import ArithCircuit.Chunks
import ArithCircuit.Circuit.Counts
import ArithCircuit.Circuit.Design
import ArithCircuit.Circuit.Execution
import ArithCircuit.Circuit.Instruction
import ArithCircuit.Circuit.Validity
import ArithCircuit.Codec.Design
import ArithCircuit.Codec.Header
import ArithCircuit.Codec.Layered
import ArithCircuit.Codec.Solver
import ArithCircuit.Codec.Stream
import ArithCircuit.Codec.Tagged
import ArithCircuit.Error
import ArithCircuit.Fault
import ArithCircuit.Gadget.Bit
import ArithCircuit.Gadget.PrefixAdder
import ArithCircuit.Gadget.Sha256
import ArithCircuit.Gadget.Word
import ArithCircuit.Hint.Builtin
import ArithCircuit.Hint.Registry
import ArithCircuit.Layered.Arena
import ArithCircuit.Layered.Circuit
import ArithCircuit.Layered.Emission
import ArithCircuit.Layered.Fold
import ArithCircuit.Layered.Layout
import ArithCircuit.LinearForm
import ArithCircuit.Sample
import ArithCircuit.Scalar.Arithmetic
import ArithCircuit.Scalar.Bytes
import ArithCircuit.Scalar.Field
import ArithCircuit.Script.Action
import ArithCircuit.Script.Basic
import ArithCircuit.SumOver
import ArithCircuit.Table
import ArithCircuit.Text.Decimal
import ArithCircuit.Text.Quoted
import ArithCircuit.Text.Unprintable
import ArithCircuit.Witness.Basic
import ArithCircuit.Witness.Solver
import ArithCircuit.Witness.Violation
import ArithCircuit.Proofs.Scalar.Prime
import ArithCircuit.Proofs.Scalar.Ring
import ArithCircuit.Proofs.Scalar.Bytes
import ArithCircuit.Proofs.LinearForm
import ArithCircuit.Proofs.Execution.Trace
import ArithCircuit.Proofs.Basic
import ArithCircuit.Proofs.Circuit.Validity
import ArithCircuit.Proofs.Execution.Reading
import ArithCircuit.Proofs.Layered.Arena
import ArithCircuit.Proofs.Layered.Fold
import ArithCircuit.Proofs.Layered.Circuit
import ArithCircuit.Proofs.Layered.Layout
import ArithCircuit.Proofs.Layered.Emission
import ArithCircuit.Proofs.Witness.Solver
import ArithCircuit.Proofs.Circuit.Satisfaction
import ArithCircuit.Proofs.Builder.Recording
import ArithCircuit.Proofs.Builder.Gadgets
import ArithCircuit.Proofs.Builder.Binary
import ArithCircuit.Proofs.Builder.Definition
import ArithCircuit.Proofs.Script.Meaning
import ArithCircuit.Proofs.Script.Action
import ArithCircuit.Proofs.Script.Shelf
import ArithCircuit.Proofs.Script.Recording
import ArithCircuit.Proofs.Script.Compilation
import ArithCircuit.Proofs.Script.Soundness
import ArithCircuit.Proofs.Script.Completeness
import ArithCircuit.Proofs.Codec.Stream
import ArithCircuit.Proofs.Codec.Header
import ArithCircuit.Proofs.Codec.Design
import ArithCircuit.Proofs.Codec.Layered
import ArithCircuit.Proofs.Codec.Solver
import ArithCircuit.Proofs.Circuit.Acceptance
import ArithCircuit.Proofs.Builder.WellFormed
import ArithCircuit.Proofs.Builder.Keeping
import ArithCircuit.Proofs.Gadget.Keeping
import ArithCircuit.Proofs.Builder.Booleans
import ArithCircuit.Proofs.Builder.Behaviour
import ArithCircuit.Proofs.Gadget.Behaviour
import ArithCircuit.Proofs.Script.Runs
import ArithCircuit.Proofs.Gadget.Making
import ArithCircuit.Proofs.Gadget.Word
import ArithCircuit.Proofs.Sha256.Standard
import ArithCircuit.Proofs.Sha256.Compression
import ArithCircuit.Proofs.Sha256.Digest
import ArithCircuit.Proofs.Blueprint
import ArithCircuit.Proofs.Sha256.Circuit
import ArithCircuit.Proofs.Circuit.Exactness
import ArithCircuit.Proofs.Execution.Termination
import ArithCircuit.Proofs.Execution.Lookups
import ArithCircuit.Proofs.Execution.Unfolding
import ArithCircuit.Proofs.Layered.Lookups
import ArithCircuit.Proofs.Script.Booleans
import ArithCircuit.Proofs.Script.Rollback
import ArithCircuit.Proofs.Script.Sessions
import ArithCircuit.Proofs.Witness.Unfolding
import ArithCircuit.Proofs.Witness.Safety
import ArithCircuit.Proofs.Witness.Leniency
import ArithCircuit.Proofs.Codec.NormalForm
import ArithCircuit.Proofs.Codec.Delimiting
import ArithCircuit.Proofs.Gadget.PrefixAdder
import ArithCircuit.Proofs.Gadget.Splitting
import ArithCircuit.Proofs.LinearForm.Algebra
import ArithCircuit.Proofs.Witness.Violation
import ArithCircuit.Proofs.Layered.Liveness
import ArithCircuit.Proofs.Layered.Depth
import ArithCircuit.Proofs.Execution.Totals
import ArithCircuit.Proofs.Execution.Upkeep
import ArithCircuit.Proofs.Layered.Tidiness
import ArithCircuit.Proofs.Layered.Shape
import ArithCircuit.Proofs.Witness.Prediction
import ArithCircuit.Proofs.Execution.Inspection
import ArithCircuit.Proofs.Witness.Inspection
import ArithCircuit.Proofs.Layered.Exactness
import ArithCircuit.Proofs.Gadget.Bitwise
import ArithCircuit.Proofs.Codec.Filling
import ArithCircuit.Proofs.Codec.Sequence
import ArithCircuit.Proofs.LinearForm.Text
import ArithCircuit.Proofs.Scalar.Reduction
