import ArithCircuit.LinearForm

/-!
Faults of circuits: where a circuit or a layered circuit breaks a rule, which rule, and the wording
of each.
-/
namespace ArithCircuit

/-- Names a circuit of a design. -/
abbrev CircuitId := Nat

namespace CircuitId

/-- The circuit a design starts at. -/
def entry : CircuitId := 0

def name (id : CircuitId) : String := s!"sub{id}"

end CircuitId

/-- A place inside a circuit. -/
inductive Location where
  | instruction (index : Nat)
  | constraint (index : Nat)
  | output (index : Nat)
  /-- A gate of a layered circuit. -/
  | gate (layer index : Nat)
  /-- The counts at the head of a circuit. -/
  | header
deriving DecidableEq, Repr

namespace Location

def text : Location → String
  | instruction i => s!"instruction {i}"
  | constraint i => s!"constraint {i}"
  | output i => s!"output {i}"
  | gate layer i => s!"gate {i} of layer {layer}"
  | header => "header"

end Location

/-- The rule that is broken. -/
inductive Flaw where
  | publicInputs (numPublic numInputs : Nat)
  /-- A form, given by its text, is not canonical. -/
  | notCanonical (form : String)
  | undefinedWire (wire : Wire)
  | selfCall (id : CircuitId)
  | missingCircuit (id : CircuitId)
  /-- A call that binds other numbers of inputs and outputs than its callee has. -/
  | callArity (callee : CircuitId) (inputs outputs expectedInputs expectedOutputs : Nat)
  /-- An output wire that leaves a gap after the wires defined so far. -/
  | outOfSequence (wire expected : Wire)
  | callCycle (callee : CircuitId)
  /-- Met while running: an output is not the next wire. -/
  | notNextWire (wire next : Wire)
  /-- Met while running: a call does not fit its callee. -/
  | callMismatch (callee : CircuitId)
  /-- Met while folding a form, given by its text. -/
  | zeroCoefficient (form : String)
  /-- Met while folding a form, given by its text. -/
  | unfoldable (form : String)
  | inputCounts (numPublic numExternal numInputs : Nat)
  | missingInputGates
  | misplacedInput (index : Nat)
  | misplacedConstant
  | lateOperands (a b : Nat)
  | shortInputLayer (gates numInputs : Nat)
  | missingGate (index : Nat)
deriving DecidableEq, Repr

namespace Flaw

def text : Flaw → String
  | publicInputs numPublic numInputs => s!"{numPublic} public inputs exceed {numInputs} inputs"
  | notCanonical form => s!"expression `{form}` is not canonical"
  | undefinedWire w => s!"{w.name} is used before it is defined"
  | selfCall id => s!"{id.name} calls itself"
  | missingCircuit id => s!"{id.name} does not exist"
  | callArity callee inputs outputs expectedInputs expectedOutputs =>
    s!"call to {callee.name} binds {inputs} inputs and {outputs} outputs, " ++
      s!"expected {expectedInputs} and {expectedOutputs}"
  | outOfSequence w expected =>
    s!"output {w.name} is not sequential, expected {(Wire.wrap expected).name}"
  | callCycle callee => s!"call to {callee.name} closes a cycle"
  | notNextWire w next => s!"output {w.name} is not the next wire {next.name}"
  | callMismatch callee => s!"arity mismatch calling {callee.name}"
  | zeroCoefficient form => s!"zero coefficient while folding `{form}`"
  | unfoldable form => s!"could not fold `{form}`"
  | inputCounts numPublic numExternal numInputs =>
    s!"expected public ({numPublic}) <= external ({numExternal}) <= total ({numInputs}) inputs"
  | missingInputGates => "input gates are missing"
  | misplacedInput i => s!"input {i} is out of place"
  | misplacedConstant => "constant gate is out of place"
  | lateOperands a b => s!"operands ({a}, {b}) are not in an earlier layer"
  | shortInputLayer gates numInputs =>
    s!"layer 0 holds {gates} gates, expected at least {numInputs} inputs"
  | missingGate i => s!"gate {i} does not exist"

end Flaw

/-- A broken rule and its place. -/
structure Fault where
  circuit : CircuitId
  location : Location
  flaw : Flaw
deriving DecidableEq, Repr

namespace Fault

def message (f : Fault) : String :=
  s!"Malformed IR in {f.circuit.name} at {f.location.text}: {f.flaw.text}"

end Fault
end ArithCircuit
