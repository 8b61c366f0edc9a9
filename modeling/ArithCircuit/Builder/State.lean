import Std.Data.TreeSet
import ArithCircuit.Circuit.Validity
import ArithCircuit.Hint.Builtin

/-!
The state of recording a circuit: what has been recorded, the wires given out, the sub-circuits
defined so far, and the forms known to be 0 or 1. A recording step may fail; it then leaves the
state as far as it has come.
-/
namespace ArithCircuit

/-- The sub-circuits defined so far, by a key of the caller's choice and by id. Ids are given out in
    the order of definition, from 1 on. -/
structure SubCircuits (F : ScalarField) where
  byKey : Table String CircuitId
  circuits : Table CircuitId (Circuit F)
  nextId : CircuitId

namespace SubCircuits
variable {F : ScalarField}

def empty : SubCircuits F := ⟨∅, ∅, 1⟩

def lookup? (subs : SubCircuits F) (key : String) : Option CircuitId := subs.byKey.get? key

def get? (subs : SubCircuits F) (id : CircuitId) : Option (Circuit F) := subs.circuits.get? id

/-- Defines a key. Returns the id it gets. -/
def insert (subs : SubCircuits F) (key : String) (c : Circuit F) : CircuitId × SubCircuits F :=
  (subs.nextId,
    ⟨subs.byKey.insert key subs.nextId, subs.circuits.insert subs.nextId c, subs.nextId + 1⟩)

/-- Forgets every definition from an id on. -/
def rollback (subs : SubCircuits F) (first : CircuitId) : SubCircuits F :=
  ⟨subs.byKey.filter fun _ id => decide (id < first),
    subs.circuits.filter fun id _ => decide (id < first), first⟩

end SubCircuits

/-- A circuit being recorded. -/
structure Builder (F : ScalarField) where
  numInputs : Nat
  numPublic : Nat
  /-- The number of wires so far, which is the position of the next wire to give out. -/
  nextWire : Nat
  instructions : Array (Instruction F)
  constraints : Array (LinearForm F)
  outputs : Array (LinearForm F)
  hints : HintRegistry F
  subCircuits : SubCircuits F
  /-- Forms already known to be 0 or 1. -/
  booleans : Std.TreeSet (LinearForm F) LinearForm.compare
  /-- The first assertion on constants that never holds. -/
  unsatisfiable : Option BuildError

/-- A recording step. -/
abbrev Build (F : ScalarField) := EStateM BuildError (Builder F)

namespace Builder
variable {F : ScalarField}

/-- A builder with nothing recorded. -/
def blank (numInputs numPublic : Nat) (hints : HintRegistry F) (subCircuits : SubCircuits F) :
    Builder F where
  numInputs := numInputs
  numPublic := numPublic
  nextWire := numInputs + 1
  instructions := #[]
  constraints := #[]
  outputs := #[]
  hints := hints
  subCircuits := subCircuits
  booleans := ∅
  unsatisfiable := none

/-- Wire numbers have four bytes, and input `i` is wire `i + 1`. -/
def checkInputCount (numInputs : Nat) : Except BuildError Unit :=
  if numInputs < Nat.pow 2 32 - 1 then .ok () else .error (.tooManyInputs numInputs)

/-- Starts a circuit. -/
def start (numInputs numPublic : Nat) (hints : HintRegistry F) : Except BuildError (Builder F) := do
  checkInputCount numInputs
  if numInputs < numPublic then throw (.publicInputs numPublic numInputs)
  return blank numInputs numPublic hints .empty

/-- The recorded circuit. -/
def circuit (b : Builder F) : Circuit F :=
  ⟨b.numInputs, b.numPublic, b.instructions.toList, b.constraints.toList, b.outputs.toList⟩

/-- The recorded design, not checked against the rules of designs. -/
def design (b : Builder F) : Except BuildError (Design F) :=
  match b.unsatisfiable with
  | some e => .error e
  | none => .ok ⟨b.subCircuits.circuits.insert .entry b.circuit⟩

/-- The recorded design. -/
def build (b : Builder F) : Except BuildError (Design F) := do
  let D ← b.design
  D.validate.mapError .malformed
  return D

/-! ### Recording -/

/-- Gives out the next wire. -/
def newWire : Build F Wire :=
  modifyGet fun b => (.wrap b.nextWire, { b with nextWire := b.nextWire + 1 })

/-- Gives out several wires, in order. -/
def newWires : Nat → Build F (List Wire)
  | 0 => return []
  | count + 1 => do
    let w ← newWire
    return w :: (← newWires count)

def recordInstruction (i : Instruction F) : Build F Unit :=
  modify fun b => { b with instructions := b.instructions.push i }

def recordConstraint (e : LinearForm F) : Build F Unit :=
  modify fun b => { b with constraints := b.constraints.push e }

/-- Notes a form as 0 or 1. Tells whether that was known before. -/
def noteBoolean (e : LinearForm F) : Build F Bool :=
  modifyGet fun b => (b.booleans.contains e, { b with booleans := b.booleans.insert e })

/-- Notes that an assertion on a constant never holds. The first such note counts. -/
def reject (assertion : Assertion) (value : Scalar F) : Build F Unit :=
  modify fun b =>
    { b with unsatisfiable := b.unsatisfiable.or (some (.unsatisfiable assertion value.val)) }

end Builder
end ArithCircuit
