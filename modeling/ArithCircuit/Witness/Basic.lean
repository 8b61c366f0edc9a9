import ArithCircuit.Circuit.Execution

/-!
Witnesses: the values of every wire of every circuit run from the entry of a design.
-/
namespace ArithCircuit

/-- The values of the wires of one run of a circuit. -/
structure Instance (F : ScalarField) where
  circuit : CircuitId
  values : Array (Scalar F)
deriving DecidableEq

/-- A solved design. -/
structure Witness (F : ScalarField) where
  /-- One instance per run of a circuit, each before the instances of its calls. -/
  instances : List (Instance F)
  /-- The outputs of the entry circuit. -/
  outputs : List (Scalar F)
  /-- The inputs of the layered circuit: the external inputs, then every hint output in the order
      in which hints ran. -/
  layeredInputs : List (Scalar F)
  numPublic : Nat
deriving DecidableEq

namespace Witness
variable {F : ScalarField}

/-- The wires of the entry circuit. -/
def values (w : Witness F) : Array (Scalar F) :=
  match w.instances with
  | [] => #[]
  | first :: _ => first.values

def value? (w : Witness F) (wire : Wire) : Option (Scalar F) := w.values[wire]?

/-- The public inputs, the first of the external inputs. -/
def publicInputs (w : Witness F) : List (Scalar F) := (w.values.toList.drop 1).take w.numPublic

end Witness
end ArithCircuit
