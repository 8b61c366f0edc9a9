import ArithCircuit.Circuit.Design

/-!
The rules a design must keep, checked in a fixed order so that the first fault is reported. Each
circuit is checked on its own and against the circuits it calls: canonical forms, wires read only
after they are defined, outputs that follow without gaps, calls that fit their callees. A
depth-first walk of the calls then finds the first call that closes a cycle. The number of wires
defined so far is held in a machine word.
-/
namespace ArithCircuit
namespace Circuit
variable {F : ScalarField}

/-- A form must be canonical and read only the first `defined` wires. -/
def checkForm (id : CircuitId) (location : Location) (defined : Nat) (form : LinearForm F) :
    Except Fault Unit :=
  if form.isCanonical then
    match form.undefined? (machineWord defined) with
    | some w => .error ⟨id, location, .undefinedWire w⟩
    | none => .ok ()
  else .error ⟨id, location, .notCanonical form.text⟩

/-- Checks forms in order, the position of each given by `location`. -/
def checkForms (id : CircuitId) (location : Nat → Location) (defined : Nat) :
    Nat → List (LinearForm F) → Except Fault Unit
  | _, [] => .ok ()
  | i, form :: rest => do
    checkForm id (location i) defined form
    checkForms id location defined (i + 1) rest

/-- A call must name another circuit of the design and fit its inputs and outputs. -/
def checkCall (D : Design F) (id : CircuitId) (location : Location) :
    Instruction F → Except Fault Unit
  | .call callee inputs outputs =>
    if callee = id then .error ⟨id, location, .selfCall id⟩
    else
      match D.get? callee with
      | none => .error ⟨id, location, .missingCircuit callee⟩
      | some c =>
        if c.numInputs = inputs.length ∧ c.outputs.length = outputs.length then .ok ()
        else .error ⟨id, location,
          .callArity callee inputs.length outputs.length c.numInputs c.outputs.length⟩
  | _ => .ok ()

/-- Wires must be defined in sequence. Returns the number of wires defined then. -/
def checkSequence (id : CircuitId) (location : Location) : Nat → List Wire → Except Fault Nat
  | next, [] => .ok next
  | next, out :: rest =>
    if out = machineWord next then checkSequence id location (next + 1) rest
    else .error ⟨id, location, .outOfSequence out next⟩

/-- Checks instructions from a position on. Returns the number of wires defined at the end. -/
def checkInstructions (D : Design F) (id : CircuitId) :
    Nat → Nat → List (Instruction F) → Except Fault Nat
  | _, defined, [] => .ok defined
  | i, defined, instruction :: rest => do
    checkForms id (fun _ => .instruction i) defined 0 instruction.inputs
    checkCall D id (.instruction i) instruction
    let next ← checkSequence id (.instruction i) defined instruction.outputs
    checkInstructions D id (i + 1) next rest

/-- The first fault of one circuit. -/
def check (D : Design F) (id : CircuitId) (c : Circuit F) : Except Fault Unit :=
  if c.numInputs < c.numPublic then
    .error ⟨id, .header, .publicInputs c.numPublic c.numInputs⟩
  else do
    let defined ← checkInstructions D id 0 (1 + c.numInputs) c.instructions
    checkForms id .constraint defined 0 c.constraints
    checkForms id .output defined 0 c.outputs

end Circuit

namespace Design
variable {F : ScalarField}

/-- Checks every circuit by itself, in the order of ids. -/
def checkCircuits (D : Design F) : List (CircuitId × Circuit F) → Except Fault Unit
  | [] => .ok ()
  | (id, c) :: rest => do
    c.check D id
    D.checkCircuits rest

/-- Follows the calls of a list of instructions. `visit` explores a circuit; a call back to a
    circuit of `path` closes a cycle. -/
def followCalls (visit : CircuitId → List CircuitId → Except Fault (List CircuitId))
    (id : CircuitId) (path : List CircuitId) :
    Nat → List (Instruction F) → List CircuitId → Except Fault (List CircuitId)
  | _, [], finished => .ok finished
  | i, instruction :: rest, finished =>
    match instruction.callee? with
    | none => followCalls visit id path (i + 1) rest finished
    | some callee =>
      if callee ∈ path then .error ⟨id, .instruction i, .callCycle callee⟩
      else do
        let finished ← visit callee finished
        followCalls visit id path (i + 1) rest finished

/-- Explores the calls below a circuit, which is reached through `path`. Returns the circuits
    explored in full, with those already in `finished`. Calls nest at most `depth` deep. -/
def explore (D : Design F) : (depth : Nat) → (path : List CircuitId) → CircuitId →
    (finished : List CircuitId) → Except Fault (List CircuitId)
  | 0, _, _, finished => .ok finished
  | depth + 1, path, id, finished =>
    if id ∈ finished then .ok finished
    else do
      let c ← D.circuit id
      let finished ← followCalls (D.explore depth (id :: path)) id (id :: path) 0 c.instructions finished
      return id :: finished

/-- Explores from each id in turn. -/
def exploreAll (D : Design F) : List CircuitId → List CircuitId → Except Fault (List CircuitId)
  | [], finished => .ok finished
  | id :: rest, finished => do
    let finished ← D.explore (D.size + 1) [] id finished
    D.exploreAll rest finished

/-- The first fault of a design: the entry is there, each circuit keeps the rules, and no chain of
    calls comes back to where it started. -/
def validate (D : Design F) : Except Fault Unit := do
  let _ ← D.circuit .entry
  D.checkCircuits D.circuits.entries
  let _ ← D.exploreAll D.circuits.keys []

/-- The design of a table of circuits, if it keeps the rules. -/
def ofCircuits (circuits : Table CircuitId (Circuit F)) : Except Fault (Design F) := do
  let D : Design F := ⟨circuits⟩
  D.validate
  return D

end Design
end ArithCircuit
