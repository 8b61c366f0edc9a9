import ArithCircuit.Codec.Layered
import ArithCircuit.Codec.Solver

/-!
Values together with the field they are over, for callers that learn the field only from a stored
artifact or a modulus.
-/
namespace ArithCircuit

/-- A value over a field that is part of the value. -/
structure Tagged (α : ScalarField → Type) where
  field : ScalarField
  value : α field

namespace Tagged

/-- Decodes an artifact for the field that its head names. -/
def decode {α : ScalarField → Type} (ofBytes : (F : ScalarField) → List UInt8 → Except Error (α F))
    (bytes : List UInt8) : Except Error (Tagged α) := do
  let F ← Header.peek bytes
  return ⟨F, ← ofBytes F bytes⟩

def designOfBytes (bytes : List UInt8) : Except Error (Tagged Design) :=
  decode (fun _ => Design.ofBytes) bytes

/-- Loads a solver with the built-in hints. -/
def solverOfBytes (bytes : List UInt8) : Except Error (Tagged Solver) :=
  decode (fun _ bytes => Solver.ofBytes bytes .builtins) bytes

def layeredOfBytes (bytes : List UInt8) : Except Error (Tagged LayeredCircuit) :=
  decode (fun _ => LayeredCircuit.ofBytes) bytes

end Tagged
end ArithCircuit
