import ArithCircuit.Codec.Design
import ArithCircuit.Witness.Solver

/-!
Stored solvers: counts that must agree with the design, then the design. Hints are stored by name
and bound to a registry when the solver is loaded.
-/
namespace ArithCircuit

/-- The counts at the head of a stored solver. -/
structure SolverCounts where
  numInputs : Nat
  numPublic : Nat
  numInstructions : Nat
  numConstraints : Nat
deriving DecidableEq, Repr

namespace SolverCounts
variable {F : ScalarField}

/-- The counts of a design: the inputs of its entry, the rest over all circuits. -/
def ofDesign (D : Design F) : Except Fault SolverCounts := do
  let entry ← D.circuit .entry
  return {
    numInputs := entry.numInputs
    numPublic := entry.numPublic
    numInstructions := sumOver (·.instructions.length) D.circuits.values
    numConstraints := sumOver (·.constraints.length) D.circuits.values }

end SolverCounts

def Codec.solverCounts : Codec SolverCounts where
  write counts := do
    count.write counts.numInputs
    count.write counts.numPublic
    count.write counts.numInstructions
    count.write counts.numConstraints
  read := do
    let numInputs ← count.read
    let numPublic ← count.read
    let numInstructions ← count.read
    let numConstraints ← count.read
    return ⟨numInputs, numPublic, numInstructions, numConstraints⟩

namespace Solver
variable {F : ScalarField}

def toBytes (solver : Solver F) : Except Error (List UInt8) := do
  let D := solver.design
  let counts ← (SolverCounts.ofDesign D).mapError .malformed
  let writer : Writer Unit := do
    Header.write .solver F
    Codec.solverCounts.write counts
    Codec.circuits.write (D.hintNames, D.circuits)
  writer.toBytes.mapError .codec

/-- Loads a solver. The registry must hold every name of the hint table. -/
def ofBytes (bytes : List UInt8) (hints : HintRegistry F) : Except Error (Solver F) := do
  let body ← Header.expect .solver F bytes
  let (counts, rest) ← (Codec.solverCounts.read.parse body).mapError .codec
  let ((names, table), rest) ← ((Codec.circuits (F := F)).read.parse rest).mapError .codec
  (Reader.finish rest).mapError .codec
  let D ← (Design.ofCircuits table).mapError .malformed
  if (← (SolverCounts.ofDesign D).mapError .malformed) ≠ counts then
    throw (.codec (.badPart .solverCounts))
  if let some name := names.find? fun name => !Table.contains hints name then
    throw (.unknownHint name)
  Solver.new D hints

end Solver
end ArithCircuit
