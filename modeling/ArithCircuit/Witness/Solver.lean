import ArithCircuit.Hint.Builtin
import ArithCircuit.Witness.Violation

/-!
The solver: runs a design on external inputs, takes hint outputs from a registry, and checks the
constraints of every instance once all wires have values.
-/
namespace ArithCircuit

/-- What happens when a hint fails. -/
inductive HintMode where
  /-- Solving fails. -/
  | strict
  /-- The outputs of the hint are zero, and the constraints decide. -/
  | lenient
deriving DecidableEq, Repr

structure SolverConfig where
  /-- How many workers share the constraints; none counts as one. -/
  workers : Nat := 1
  hintMode : HintMode := .strict

/-- A design together with the hints it needs. -/
structure Solver (F : ScalarField) where
  design : Design F
  hints : HintRegistry F
  numInputs : Nat
  numPublic : Nat

/-- The outputs of a hint, or zeros for a failed hint in lenient mode. -/
def HintRegistry.outputs {F : ScalarField} (hints : HintRegistry F) (mode : HintMode) (name : String)
    (inputs : List (Scalar F)) (count : Nat) : Except Error (List (Scalar F)) :=
  match hints.call name inputs count with
  | .ok outputs => .ok outputs
  | .error e =>
    match e, mode with
    | .hintFailed .., .lenient => .ok (List.replicate count 0)
    | e, _ => .error e

/-- Values are field elements and the state is the hint outputs so far. -/
def Interp.solve {F : ScalarField} (hints : HintRegistry F) (mode : HintMode) :
    Interp F (Scalar F) (Array (Scalar F)) where
  one := 1
  form _ form values hinted := .ok (form.eval fun w => values.getD w 0, hinted)
  product a b hinted := (a * b, hinted)
  hint name inputs count values hinted := do
    let args := inputs.map fun form => form.eval fun w => values.getD w 0
    let outputs ← hints.outputs mode name args count
    return (outputs, hinted ++ outputs)
  constrain _ _ _ hinted := .ok hinted

namespace Solver
variable {F : ScalarField}

/-- Every hint that the design names must be registered. -/
def new (design : Design F) (hints : HintRegistry F) : Except Error (Solver F) := do
  if let some name := design.hintNames.find? fun name => !Table.contains hints name then
    throw (.unknownHint name)
  let entry ← (design.circuit .entry).mapError .malformed
  return ⟨design, hints, entry.numInputs, entry.numPublic⟩

/-- The same design with other hints. -/
def withHints (solver : Solver F) (hints : HintRegistry F) : Except Error (Solver F) :=
  new solver.design hints

def solve (solver : Solver F) (inputs : List (Scalar F)) (config : SolverConfig) :
    Except Error (Witness F) := do
  if inputs.length ≠ solver.numInputs then
    throw (.inputLength solver.numInputs inputs.length)
  let result ← (Interp.solve solver.hints config.hintMode).run solver.design
    (solver.design.size + 1) .entry inputs #[]
  let instances := result.tree.preorder.map fun (circuit, values) => ⟨circuit, values⟩
  if let some violation ← firstViolation solver.design instances config.workers then
    throw (.violated violation.circuit violation.index violation.value.val)
  return ⟨instances, result.outputs, inputs ++ result.state.toList, solver.numPublic⟩

end Solver
end ArithCircuit
