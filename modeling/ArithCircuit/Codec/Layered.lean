import ArithCircuit.Codec.Header
import ArithCircuit.Layered.Circuit

/-!
Stored layered circuits. Every gate is a record of the same length: kind, two numbers and a field
element, zero where the kind has no use for them.
-/
namespace ArithCircuit
namespace Codec
variable {F : ScalarField}

/-- The two numbers and the field element of a gate's record. -/
def gateFields : Gate F → Nat × Nat × Scalar F
  | .input index => (index, 0, 0)
  | .constant value => (0, 0, value)
  | .add a b coef => (a, b, coef)
  | .mul a b coef => (a, b, coef)

/-- The gate of a record, whose unused fields must be zero. -/
def gateOfFields? : Gate.Kind → Nat → Nat → Scalar F → Option (Gate F)
  | .input, a, b, coef => if b = 0 ∧ coef = 0 then some (.input a) else none
  | .constant, a, b, coef => if a = 0 ∧ b = 0 then some (.constant coef) else none
  | .add, a, b, coef => some (.add a b coef)
  | .mul, a, b, coef => some (.mul a b coef)

def gate : Codec (Gate F) where
  write g := do
    let (a, b, coef) := gateFields g
    (number 1).write g.kind.tag
    count.write a
    count.write b
    scalar.write coef
  read := do
    let tag ← (number 1).read
    match Gate.Kind.ofTag? tag with
    | none => throw (.unknownChoice .gate tag)
    | some kind =>
      let a ← count.read
      let b ← count.read
      let coef ← scalar.read
      match gateOfFields? kind a b coef with
      | some g => return g
      | none => throw (.badPart .gateRecord)

/-- A layered circuit without a head. -/
def layered : Codec (LayeredCircuit F) where
  write c := do
    count.write c.numInputs
    count.write c.numExternal
    count.write c.numPublic
    (list (list gate)).write c.layers
    (list count).write c.outputs
    (list count).write c.constraints
  read := do
    let numInputs ← count.read
    let numExternal ← count.read
    let numPublic ← count.read
    let layers ← (list (list gate)).read
    let outputs ← (list count).read
    let constraints ← (list count).read
    return ⟨numInputs, numExternal, numPublic, layers, outputs, constraints⟩

end Codec

namespace LayeredCircuit
variable {F : ScalarField}

def toBytes (c : LayeredCircuit F) : Except Error (List UInt8) :=
  let writer : Writer Unit := do
    Header.write .layered F
    Codec.layered.write c
  writer.toBytes.mapError .codec

def ofBytes (bytes : List UInt8) : Except Error (LayeredCircuit F) := do
  let body ← Header.expect .layered F bytes
  let (c, rest) ← (Codec.layered.read.parse body).mapError .codec
  (Reader.finish rest).mapError .codec
  c.validate.mapError .malformed
  return c

end LayeredCircuit
end ArithCircuit
