import ArithCircuit.Chunks
import ArithCircuit.Witness.Basic

/-!
Checking constraints. The constraints of all instances form one list, which workers share in
contiguous chunks; the first violation of the first chunk that has one is the first of all. The
workers are taken to be there: that the machine may refuse to start more than one, so that nothing is
checked and solving fails, depends on nothing that is described here and is left out.
-/
namespace ArithCircuit

/-- A constraint of an instance. -/
structure ConstraintTask (F : ScalarField) where
  inst : Nat
  circuit : CircuitId
  index : Nat
  form : LinearForm F
  values : Array (Scalar F)

/-- A constraint whose value is not zero. -/
structure Violation (F : ScalarField) where
  inst : Nat
  circuit : CircuitId
  index : Nat
  value : Scalar F
deriving DecidableEq

namespace ConstraintTask
variable {F : ScalarField}

/-- The constraints of one instance, in order. -/
def ofInstance (inst : Nat) (instanceValues : Instance F) (constraints : List (LinearForm F)) :
    List (ConstraintTask F) :=
  constraints.zipIdx.map fun (form, index) =>
    ⟨inst, instanceValues.circuit, index, form, instanceValues.values⟩

/-- The constraints of every instance, from a position on. -/
def ofInstances (D : Design F) : Nat → List (Instance F) → Except Error (List (ConstraintTask F))
  | _, [] => .ok []
  | inst, first :: rest => do
    let c ← (D.circuit first.circuit).mapError .malformed
    let tasks ← ofInstances D (inst + 1) rest
    return ofInstance inst first c.constraints ++ tasks

def check (task : ConstraintTask F) : Option (Violation F) :=
  let value := task.form.eval fun w => task.values.getD w 0
  if value.isZero then none else some ⟨task.inst, task.circuit, task.index, value⟩

end ConstraintTask

/-- The first constraint, by instance and then by position, whose value is not zero. -/
def firstViolation {F : ScalarField} (D : Design F) (instances : List (Instance F)) (workers : Nat) :
    Except Error (Option (Violation F)) := do
  let tasks ← ConstraintTask.ofInstances D 0 instances
  let share := (tasks.length + max workers 1 - 1) / max workers 1
  return (chunks share tasks).map (·.findSome? ConstraintTask.check) |>.findSome? id

end ArithCircuit
