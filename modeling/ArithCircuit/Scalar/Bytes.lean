import ArithCircuit.Scalar.Arithmetic

/-!
Numbers and field elements as little-endian bytes. An element has exactly one byte form: its
representative, padded with zeros to the length that the field's modulus takes.
-/
namespace ArithCircuit

/-- The lowest `width` bytes of a number, lowest first. -/
def littleEndian : (width : Nat) → Nat → List UInt8
  | 0, _ => []
  | width + 1, n => UInt8.ofNat n :: littleEndian width (n / 256)

/-- The number that bytes spell, lowest first. -/
def ofLittleEndian : List UInt8 → Nat
  | [] => 0
  | byte :: rest => byte.toNat + 256 * ofLittleEndian rest

namespace Scalar
variable {F : ScalarField}

/-- The byte form. -/
def toBytes (a : Scalar F) : List UInt8 := littleEndian F.byteLength a.val

/-- Reads a byte form; refuses another length and numbers that are not below the modulus. -/
def ofBytes? (bytes : List UInt8) : Option (Scalar F) :=
  if bytes.length = F.byteLength then
    let n := ofLittleEndian bytes
    if h : n < F.modulus then some ⟨n, h⟩ else none
  else none

end Scalar
end ArithCircuit
