import ArithCircuit.Layered.Fold
import ArithCircuit.Layered.Layout

/-!
Lowering a design to a layered circuit. The design is run with wire values that are constants or
multiples of gates, so calls are expanded where they stand, constants fold away, and each hint
output becomes a further input.
-/
namespace ArithCircuit

/-- Values are constants or multiples of gates and the state is the gates so far. -/
def Interp.emit {F : ScalarField} : Interp F (WireValue F) (Arena F) where
  one := .constant 1
  form site form values arena := arena.fold site form values
  product lhs rhs arena := arena.product lhs rhs
  hint _ _ count _ arena := .ok (arena.pushInputs count)
  constrain site form values arena := do
    let (value, arena) ← arena.fold site form values
    match value with
    | .constant k =>
      if k.isZero then return arena
      else
        let (gate, arena) := arena.constant k
        return arena.constrain gate
    -- A coefficient other than zero does not change whether the gate is zero.
    | .scaled gate _ => return arena.constrain gate

/-- The layered circuit of a design. With `removeDead`, gates that no output and no constraint
    depends on are left out. -/
def Design.emit {F : ScalarField} (D : Design F) (removeDead : Bool) :
    Except Error (LayeredCircuit F) := do
  let entry ← (D.circuit .entry).mapError .malformed
  let (inputs, arena) := Arena.empty.pushInputs entry.numInputs
  let result ← Interp.emit.run D (D.size + 1) .entry inputs arena
  let (outputs, arena) := result.state.materializeAll result.outputs
  let layout := arena.layout outputs removeDead
  (LayeredCircuit.ofParts arena.numInputs entry.numInputs entry.numPublic layout.layers
    layout.outputs layout.constraints).mapError .malformed

end ArithCircuit
