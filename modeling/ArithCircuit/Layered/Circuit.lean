import ArithCircuit.Error
import ArithCircuit.SumOver

/-!
Layered circuits. Layer 0 holds the input gates, in order, and then the constant gates; every later
layer holds sums and products of gates of earlier layers. Gates are numbered through all layers.
-/
namespace ArithCircuit

/-- A gate. Operands are gate numbers. -/
inductive Gate (F : ScalarField) where
  | input (index : Nat)
  | constant (value : Scalar F)
  /-- `v[a] + coef * v[b]`. -/
  | add (a b : Nat) (coef : Scalar F)
  /-- `coef * v[a] * v[b]`. -/
  | mul (a b : Nat) (coef : Scalar F)
deriving DecidableEq

namespace Gate

/-- The four shapes of a gate. -/
inductive Kind where
  | input | constant | add | mul
deriving DecidableEq, Repr

namespace Kind

def all : List Kind := [input, constant, add, mul]

/-- The number of a kind in statistics and in stored circuits. -/
def tag : Kind → Nat
  | input => 0
  | constant => 1
  | add => 2
  | mul => 3

def ofTag? (n : Nat) : Option Kind := all.find? fun k => k.tag == n

end Kind

variable {F : ScalarField}

def kind : Gate F → Kind
  | input _ => .input
  | constant _ => .constant
  | add .. => .add
  | mul .. => .mul

/-- The operands of a sum or a product. -/
def operands? : Gate F → Option (Nat × Nat)
  | add a b _ => some (a, b)
  | mul a b _ => some (a, b)
  | _ => none

/-- The value of a gate, given the inputs and the values of earlier gates. -/
def value (inputs values : Array (Scalar F)) : Gate F → Scalar F
  | input index => inputs.getD index 0
  | constant value => value
  | add a b coef => values.getD a 0 + coef * values.getD b 0
  | mul a b coef => coef * values.getD a 0 * values.getD b 0

/-- Renumbers the operands. -/
def renumber (position : Nat → Nat) : Gate F → Gate F
  | add a b coef => add (position a) (position b) coef
  | mul a b coef => mul (position a) (position b) coef
  | gate => gate

end Gate

/-- Gates by layer, with the gates that are outputs and those that must be zero. -/
structure LayeredCircuit (F : ScalarField) where
  /-- External inputs and hint outputs. -/
  numInputs : Nat
  numExternal : Nat
  numPublic : Nat
  layers : List (List (Gate F))
  outputs : List Nat
  constraints : List Nat
deriving DecidableEq

/-- Summary of a layered circuit. -/
structure LayeredStats where
  layers : Nat
  inputs : Nat
  constants : Nat
  adds : Nat
  muls : Nat
  widestLayer : Nat
  outputs : Nat
  constraints : Nat
deriving DecidableEq, Repr

/-- The number of gates of all kinds. -/
def LayeredStats.totalGates (s : LayeredStats) : Nat := s.inputs + s.constants + s.adds + s.muls

namespace LayeredCircuit
variable {F : ScalarField}

/-- A fault of a layered circuit, which has no name but the entry's. -/
def fault {α : Type} (location : Location) (flaw : Flaw) : Except Fault α :=
  .error ⟨.entry, location, flaw⟩

/-- A gate of layer `layer` at position `index`, with `start` gates in earlier layers. -/
def checkGate (numInputs layer index start : Nat) (gate : Gate F) : Except Fault Unit :=
  match gate with
  | .input i =>
    if layer ≠ 0 ∨ i ≠ index ∨ numInputs ≤ i then fault (.gate layer index) (.misplacedInput i)
    else .ok ()
  | .constant _ =>
    if layer ≠ 0 ∨ index < numInputs then fault (.gate layer index) .misplacedConstant
    else .ok ()
  | .add a b _ | .mul a b _ =>
    if layer = 0 ∨ start ≤ a ∨ start ≤ b then fault (.gate layer index) (.lateOperands a b)
    else .ok ()

/-- Checks gates of a layer from a position on. -/
def checkGates (numInputs layer start : Nat) : Nat → List (Gate F) → Except Fault Unit
  | _, [] => .ok ()
  | index, gate :: rest => do
    checkGate numInputs layer index start gate
    checkGates numInputs layer start (index + 1) rest

/-- Checks layers from a number on. Returns the number of gates. -/
def checkLayers (numInputs : Nat) : Nat → Nat → List (List (Gate F)) → Except Fault Nat
  | _, start, [] => .ok start
  | layer, start, gates :: rest => do
    checkGates numInputs layer start 0 gates
    if layer = 0 ∧ gates.length < numInputs then
      fault .header (.shortInputLayer gates.length numInputs)
    else checkLayers numInputs (layer + 1) (start + gates.length) rest

/-- Gate numbers must exist. -/
def checkGateNumbers (location : Nat → Location) (numGates : Nat) : Nat → List Nat → Except Fault Unit
  | _, [] => .ok ()
  | i, gate :: rest =>
    if numGates ≤ gate then fault (location i) (.missingGate gate)
    else checkGateNumbers location numGates (i + 1) rest

/-- The first fault. -/
def validate (c : LayeredCircuit F) : Except Fault Unit :=
  if c.numExternal < c.numPublic ∨ c.numInputs < c.numExternal then
    fault .header (.inputCounts c.numPublic c.numExternal c.numInputs)
  else if c.layers = [] ∧ 0 < c.numInputs then fault .header .missingInputGates
  else do
    let numGates ← checkLayers c.numInputs 0 0 c.layers
    checkGateNumbers .output numGates 0 c.outputs
    checkGateNumbers .constraint numGates 0 c.constraints

/-- A layered circuit of these parts, if it keeps the rules. -/
def ofParts (numInputs numExternal numPublic : Nat) (layers : List (List (Gate F)))
    (outputs constraints : List Nat) : Except Fault (LayeredCircuit F) := do
  let c : LayeredCircuit F := ⟨numInputs, numExternal, numPublic, layers, outputs, constraints⟩
  c.validate
  return c

/-- All gates, in the order of their numbers. -/
def gates (c : LayeredCircuit F) : List (Gate F) := c.layers.flatten

def numGates (c : LayeredCircuit F) : Nat := sumOver List.length c.layers

/-- The number of gates of a kind. -/
def countKind (c : LayeredCircuit F) (kind : Gate.Kind) : Nat :=
  sumOver (fun layer => layer.countP fun gate => gate.kind == kind) c.layers

def stats (c : LayeredCircuit F) : LayeredStats where
  layers := c.layers.length
  inputs := c.countKind .input
  constants := c.countKind .constant
  adds := c.countKind .add
  muls := c.countKind .mul
  widestLayer := (c.layers.map List.length).foldl max 0
  outputs := c.outputs.length
  constraints := c.constraints.length

/-- The values of all gates, in the order of their numbers. -/
def gateValues (c : LayeredCircuit F) (inputs : Array (Scalar F)) : Array (Scalar F) :=
  c.gates.foldl (fun values gate => values.push (gate.value inputs values)) #[]

/-- The first constraint gate, from a position on, that is not zero. -/
def firstNonZero (values : Array (Scalar F)) : Nat → List Nat → Option (Nat × Scalar F)
  | _, [] => none
  | i, gate :: rest =>
    let value := values.getD gate 0
    if value.isZero then firstNonZero values (i + 1) rest else some (i, value)

/-- The outputs, if every constraint gate is zero. -/
def evaluate (c : LayeredCircuit F) (inputs : List (Scalar F)) : Except Error (List (Scalar F)) :=
  if inputs.length ≠ c.numInputs then .error (.inputLength c.numInputs inputs.length)
  else
    let values := c.gateValues inputs.toArray
    match firstNonZero values 0 c.constraints with
    | some (i, value) => .error (.violated .entry i value.val)
    | none => .ok (c.outputs.map fun gate => values.getD gate 0)

end LayeredCircuit
end ArithCircuit
