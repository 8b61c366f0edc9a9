import ArithCircuit.Builder.State
import ArithCircuit.Codec.Tagged
import ArithCircuit.Layered.Emission

/-!
Blueprints and their compilation. A blueprint says how many inputs a circuit has and how it is
recorded; compiling it gives a solver and a layered circuit for the same design.
-/
namespace ArithCircuit

/-- The definition of a circuit. -/
structure Blueprint (F : ScalarField) where
  numInputs : Nat
  /-- The first inputs are public. -/
  numPublic : Nat
  define : Build F Unit

/-- How a blueprint is compiled. -/
structure CompileOptions (F : ScalarField) where
  removeDead : Bool
  validate : Bool
  hints : HintRegistry F

/-- Everything on, with the built-in hints. -/
def CompileOptions.standard {F : ScalarField} : CompileOptions F := ⟨true, true, .builtins⟩

/-- What compiling gives. -/
structure Compiled (F : ScalarField) where
  solver : Solver F
  layered : LayeredCircuit F

namespace Blueprint
variable {F : ScalarField}

/-- Records the circuit on a fresh builder. -/
def record (bp : Blueprint F) (hints : HintRegistry F) : Except BuildError (Builder F) := do
  let b ← Builder.start bp.numInputs bp.numPublic hints
  match bp.define b with
  | .ok () b => return b
  | .error e _ => throw e

/-- The design of the circuit, checked. -/
def build (bp : Blueprint F) (hints : HintRegistry F) : Except BuildError (Design F) := do
  (← bp.record hints).build

/-- The solver and the layered circuit. -/
def compile (bp : Blueprint F) (options : CompileOptions F) : Except Error (Compiled F) := do
  let b ← (bp.record options.hints).mapError .build
  let D ← (if options.validate then b.build else b.design).mapError .build
  let layered ← D.emit options.removeDead
  let solver ← Solver.new D options.hints
  return ⟨solver, layered⟩

end Blueprint

/-- Compiles a blueprint for the field of a modulus, with the standard options. -/
def compileForModulus (modulus : Nat) (blueprint : (F : ScalarField) → Blueprint F) :
    Except Error (Tagged Compiled) :=
  match ScalarField.ofModulus? modulus with
  | none => .error (.unknownField modulus)
  | some F => return ⟨F, ← (blueprint F).compile .standard⟩

end ArithCircuit
