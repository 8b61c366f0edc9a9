import ArithCircuit.Circuit.Instruction
import ArithCircuit.SumOver
import ArithCircuit.Table

/-!
Circuits and designs. A circuit is a list of instructions with the forms that must vanish and the
forms it returns; a design is a set of circuits that call each other, entered at circuit 0.
-/
namespace ArithCircuit

/-- What a machine word of 64 bits keeps of a number. -/
def machineWord (n : Nat) : Nat := n % Nat.pow 2 64

/-- One circuit. Wire 0 is the constant one and wires `1` to `numInputs` are the inputs, the first
    `numPublic` of which are public. -/
structure Circuit (F : ScalarField) where
  numInputs : Nat
  numPublic : Nat
  instructions : List (Instruction F)
  constraints : List (LinearForm F)
  outputs : List (LinearForm F)
deriving DecidableEq

namespace Circuit
variable {F : ScalarField}

/-- The constant wire, the inputs and every wire defined. -/
def wireCount (c : Circuit F) : Nat :=
  1 + c.numInputs + sumOver (·.outputs.length) c.instructions

/-- The length of the value vector, a machine word. -/
def numWires (c : Circuit F) : Nat := machineWord c.wireCount

def text (c : Circuit F) : String :=
  String.join <|
    s!"inputs: {c.numInputs} ({c.numPublic} public)\n" ::
      (c.instructions.map fun i => s!"  {i.text}\n") ++
      (c.constraints.map fun e => s!"  assert {e.text} == 0\n") ++
      (c.outputs.map fun e => s!"  output {e.text}\n")

end Circuit

/-- Circuits by id, over one field. -/
structure Design (F : ScalarField) where
  circuits : Table CircuitId (Circuit F)
deriving DecidableEq

namespace Design
variable {F : ScalarField}

def ofList (circuits : List (CircuitId × Circuit F)) : Design F := ⟨Table.ofList circuits⟩

def get? (D : Design F) (id : CircuitId) : Option (Circuit F) := D.circuits.get? id

/-- The circuit of an id; a missing one is a fault of its own header. -/
def circuit (D : Design F) (id : CircuitId) : Except Fault (Circuit F) :=
  match D.get? id with
  | some c => .ok c
  | none => .error ⟨id, .header, .missingCircuit id⟩

/-- The number of circuits. -/
def size (D : Design F) : Nat := D.circuits.size

def isEmpty (D : Design F) : Bool := D.circuits.isEmpty

/-- The names of the hints that any circuit runs, in increasing order. -/
def hintNames (D : Design F) : List String :=
  let names := D.circuits.values.flatMap fun c => c.instructions.filterMap Instruction.hintName?
  (names.foldl (fun t name => t.insert name ()) (∅ : Table String Unit)).keys

def text (D : Design F) : String :=
  String.join <|
    s!"field: {F.name}\n" ::
      D.circuits.entries.map fun e => s!"== {e.1.name} ==\n{e.2.text}"

end Design
end ArithCircuit
