import ArithCircuit.Hint.Registry

/-!
The hints that every circuit may use.
-/
namespace ArithCircuit
namespace Hint
variable {F : ScalarField}

/-- `[x]` gives `[x⁻¹]`; fails at zero. -/
def inverse : Hint F := fun inputs count =>
  match inputs with
  | [x] =>
    if count = 1 then
      match x.inv? with
      | some y => .ok [y]
      | none => .error .divisionByZero
    else .error (.outputCount 1 count)
  | _ => .error (.inputCount 1 inputs.length)

/-- `[x]` gives `[x⁻¹]`, or `[0]` at zero. -/
def inverseOrZero : Hint F := fun inputs count =>
  match inputs with
  | [x] => if count = 1 then .ok [x.inv?.getD 0] else .error (.outputCount 1 count)
  | _ => .error (.inputCount 1 inputs.length)

/-- `[a, b]` gives `[a / b]`; fails when `b` is zero. -/
def quotient : Hint F := fun inputs count =>
  match inputs with
  | [a, b] =>
    if count = 1 then
      match b.inv? with
      | some y => .ok [a * y]
      | none => .error .divisionByZero
    else .error (.outputCount 1 count)
  | _ => .error (.inputCount 2 inputs.length)

/-- `[x]` gives the lowest `count` bits of `x`, lowest first; fails when `x` has more bits. -/
def toBinary : Hint F := fun inputs count =>
  match inputs with
  | [x] =>
    if bitLength x.val ≤ count then .ok ((List.range count).map fun i => Scalar.ofBool (x.val.testBit i))
    else .error (.valueOutOfRange count)
  | _ => .error (.inputCount 1 inputs.length)

/-- Copies its inputs. -/
def identity : Hint F := fun inputs count =>
  if count = inputs.length then .ok inputs else .error (.outputCount inputs.length count)

/-- `[x]` gives `[1]` at zero and `[0]` elsewhere. -/
def isZero : Hint F := fun inputs count =>
  match inputs with
  | [x] => if count = 1 then .ok [Scalar.ofBool x.isZero] else .error (.outputCount 1 count)
  | _ => .error (.inputCount 1 inputs.length)

end Hint

/-- A hint that every registry of builtins holds. -/
inductive BuiltinHint where
  | inverse | quotient | toBinary | identity | isZero | inverseOrZero
deriving DecidableEq, Repr

namespace BuiltinHint

def all : List BuiltinHint := [inverse, quotient, toBinary, identity, isZero, inverseOrZero]

/-- The name that instructions use. -/
def name : BuiltinHint → String
  | inverse => "inverse"
  | quotient => "div"
  | toBinary => "to_binary"
  | identity => "identity"
  | isZero => "is_zero"
  | inverseOrZero => "inverse_or_zero"

def run {F : ScalarField} : BuiltinHint → Hint F
  | inverse => Hint.inverse
  | quotient => Hint.quotient
  | toBinary => Hint.toBinary
  | identity => Hint.identity
  | isZero => Hint.isZero
  | inverseOrZero => Hint.inverseOrZero

end BuiltinHint

/-- The registry of the builtins. -/
def HintRegistry.builtins {F : ScalarField} : HintRegistry F :=
  BuiltinHint.all.foldl (fun registry hint => registry.register hint.name hint.run) ∅

end ArithCircuit
