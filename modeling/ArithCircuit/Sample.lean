import ArithCircuit.Blueprint
import ArithCircuit.Builder.Definition
import ArithCircuit.Gadget.Sha256

/-!
Sample circuits, from one wire to a hash function.
-/
namespace ArithCircuit

inductive Sample where
  /-- The input is the output. -/
  | identity
  /-- Two inputs differ. -/
  | different
  /-- The input is not zero. -/
  | nonZero
  /-- The input goes through `x ↦ x² + x + 1` several times. -/
  | squareChain (rounds : Nat)
  /-- The outputs are the hash of the inputs, which are bytes. -/
  | sha256 (length : Nat)
deriving DecidableEq, Repr

/-- Iterates `x ↦ x² + x + 1`. -/
def squareChain {F : ScalarField} (rounds : Nat) (x : Scalar F) : Scalar F :=
  match rounds with
  | 0 => x
  | rounds + 1 => squareChain rounds (x * x + x + 1)

namespace Sample
variable {F : ScalarField}

/-- One round of the chain, as the body of a sub-circuit. -/
def squareStep : Build F Unit := do
  let x ← Builder.input 0
  let square ← Builder.mul x x
  Builder.output (square + x + .constant 1)

/-- Calls a sub-circuit several times on its own first output. -/
def iterateCall (id : CircuitId) : (rounds : Nat) → LinearForm F → Build F (LinearForm F)
  | 0, x => return x
  | rounds + 1, x => do
    let outputs ← Builder.call id [x]
    iterateCall id rounds (outputs.head?.getD .zero)

def numInputs : Sample → Nat
  | identity => 1
  | different => 2
  | nonZero => 1
  | squareChain _ => 1
  | sha256 length => length

def numPublic : Sample → Nat
  | squareChain _ => 1
  | _ => 0

def define : Sample → Build F Unit
  | identity => do Builder.output (← Builder.input 0)
  | different => do
    let a ← Builder.input 0
    let b ← Builder.input 1
    Builder.assertDistinct a b
  | nonZero => do
    let x ← Builder.input 0
    Builder.assertDistinct x .zero
  | squareChain rounds => do
    let id ← Builder.define "square_step" 1 squareStep
    let x ← Builder.input 0
    Builder.output (← iterateCall id rounds x)
  | sha256 _ => do
    let digest ← Sha256.digest (← Builder.inputs)
    Builder.outputAll (digest.toList.flatMap Word.littleEndianBytes)

def blueprint (sample : Sample) : Blueprint F := ⟨sample.numInputs, sample.numPublic, sample.define⟩

end Sample
end ArithCircuit
