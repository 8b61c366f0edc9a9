import ArithCircuit.Error
import ArithCircuit.Table
import ArithCircuit.Text.Quoted

/-!
Hints: named functions that a prover runs to supply values that a circuit only checks. A registry
maps names to functions; a call also checks that the function gave as many values as were asked for.
-/
namespace ArithCircuit

/-- A function from input values to a requested number of output values. -/
abbrev Hint (F : ScalarField) := List (Scalar F) → Nat → Except HintFailure (List (Scalar F))

/-- Hints by name, in the order of names. -/
abbrev HintRegistry (F : ScalarField) := Table String (Hint F)

namespace HintRegistry
variable {F : ScalarField}

/-- The names of the hints, in increasing order. -/
def names (registry : HintRegistry F) : List String := Table.keys registry

/-- The names as a set, quoted. -/
def text (registry : HintRegistry F) : String :=
  "\x7b" ++ ", ".intercalate (registry.names.map quoted) ++ "\x7d"

/-- Registers a hint, replacing an earlier one of that name. -/
def register (registry : HintRegistry F) (name : String) (hint : Hint F) : HintRegistry F :=
  Table.insert registry name hint

/-- Runs a hint and checks that it returns exactly `count` values. -/
def call (registry : HintRegistry F) (name : String) (inputs : List (Scalar F)) (count : Nat) :
    Except Error (List (Scalar F)) :=
  match Table.get? registry name with
  | none => .error (.unknownHint name)
  | some hint =>
    match hint inputs count with
    | .error failure => .error (.hintFailed name (inputs.map (·.val)) failure)
    | .ok outputs =>
      if outputs.length = count then .ok outputs
      else .error (.hintFailed name (inputs.map (·.val)) (.outputCount count outputs.length))

end HintRegistry
end ArithCircuit
