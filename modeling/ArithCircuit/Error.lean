import ArithCircuit.Fault

/-!
What can go wrong, one type per activity: running a hint, reading and writing bytes, recording a
circuit, and everything together. Each cause is a constructor, and its wording stands in one place.
-/
namespace ArithCircuit

/-- Why a hint gives no values. -/
inductive HintFailure where
  | divisionByZero
  | inputCount (expected got : Nat)
  | outputCount (expected got : Nat)
  /-- The value takes more than this many bits. -/
  | valueOutOfRange (bits : Nat)
  | custom (text : String)
deriving DecidableEq, Repr

namespace HintFailure

def message : HintFailure → String
  | divisionByZero => "division by zero"
  | inputCount expected got => s!"expected {expected} inputs, got {got}"
  | outputCount expected got => s!"expected {expected} outputs, got {got}"
  | valueOutOfRange bits => s!"value does not fit in {bits} bits"
  | custom text => text

end HintFailure

/-- A choice that a stored tag or index does not name. -/
inductive UnknownChoice where
  | field | instruction | gate | hint
deriving DecidableEq, Repr

namespace UnknownChoice

def text : UnknownChoice → String
  | field => "FieldKind"
  | instruction => "Instruction"
  | gate => "Gate"
  | hint => "hint"

end UnknownChoice

/-- A stored part that contradicts itself or the rest. -/
inductive BadPart where
  | hintTable | duplicateCircuit | gateRecord | solverCounts
deriving DecidableEq, Repr

namespace BadPart

def text : BadPart → String
  | hintTable => "hint table"
  | duplicateCircuit => "duplicate circuit id"
  | gateRecord => "gate record"
  | solverCounts => "solver header counts"

end BadPart

/-- Why bytes cannot be written or read. -/
inductive CodecError where
  | bufferFull
  | notEnoughBytes
  | badMagic (expected found : List UInt8)
  | unsupportedVersion (version : Nat)
  | unknownChoice (what : UnknownChoice) (index : Nat)
  | nonCanonicalScalar
  | nonCanonicalForm
  | invalidText
  | badPart (part : BadPart)
  | numberTooLarge (n : Nat)
  | trailingBytes (count : Nat)
deriving DecidableEq, Repr

namespace CodecError

/-- A list of bytes in brackets, in decimal. -/
def bytesText (bytes : List UInt8) : String :=
  "[" ++ ", ".intercalate (bytes.map fun b => Nat.repr b.toNat) ++ "]"

def message : CodecError → String
  | bufferFull => "Write buffer is full"
  | notEnoughBytes => "Not enough data in read buffer to deserialize"
  | badMagic expected found => s!"Bad magic {bytesText found}, expected {bytesText expected}"
  | unsupportedVersion version => s!"Unsupported format version {version}"
  | unknownChoice what index => s!"Unknown variant index {what.text}::{index}"
  | nonCanonicalScalar => "Field element is not in canonical form"
  | nonCanonicalForm => "Expression terms are not sorted, merged and non-zero"
  | invalidText => "String is not valid UTF-8"
  | badPart part => s!"Invalid construction of {part.text}"
  | numberTooLarge n => s!"usize {n} is too large to serialize (max is 4294967295)"
  | trailingBytes count => s!"{count} unexpected trailing bytes"

end CodecError

/-- The assertions that a circuit can be given. -/
inductive Assertion where
  | zero | equal | distinct | boolean
deriving DecidableEq, Repr

namespace Assertion

def name : Assertion → String
  | zero => "assert_zero"
  | equal => "assert_eq"
  | distinct => "assert_ne"
  | boolean => "assert_bool"

end Assertion

/-- The operations that divide. -/
inductive Division where
  | inverse | quotient
deriving DecidableEq, Repr

namespace Division

def name : Division → String
  | inverse => "inverse"
  | quotient => "div_unchecked"

end Division

/-- Why a circuit cannot be recorded. -/
inductive BuildError where
  | inputOutOfRange (index numInputs : Nat)
  | unknownHint (name : String)
  | unknownCircuit (id : CircuitId)
  | arity (id : CircuitId) (expected got : Nat)
  | publicInputs (numPublic numInputs : Nat)
  | tooManyBits (limit bits : Nat)
  | dimension (expected actual : Nat)
  | tooManyInputs (numInputs : Nat)
  /-- An assertion on a constant operand that never holds. -/
  | unsatisfiable (assertion : Assertion) (value : Nat)
  | divisionByZero (division : Division)
  /-- Raised by the circuit's own definition. -/
  | refused (text : String)
  | malformed (fault : Fault)
deriving DecidableEq, Repr

namespace BuildError

def message : BuildError → String
  | inputOutOfRange index numInputs =>
    s!"Input index {index} out of range (circuit has {numInputs} inputs)"
  | unknownHint name => s!"Unknown hint `{name}`"
  | unknownCircuit id => s!"Unknown sub-circuit {id.name}"
  | arity id expected got => s!"{id.name} expects {expected} inputs, got {got}"
  | publicInputs numPublic numInputs => s!"{numPublic} public inputs exceed {numInputs} inputs"
  | tooManyBits limit bits =>
    s!"Too many bits for binary decomposition: expected at most {limit}, got {bits}"
  | dimension expected actual => s!"Invalid dimension: expected {expected}, got {actual}"
  | tooManyInputs numInputs => s!"{numInputs} inputs exceed the wire id range"
  | unsatisfiable assertion value =>
    s!"`{assertion.name}` can never hold: its operand is the constant {value}"
  | divisionByZero division => s!"`{division.name}` by the constant zero"
  | refused text => text
  | malformed fault => s!"Malformed circuit: {fault.message}"

end BuildError

/-- Why a circuit cannot be checked, solved, lowered, evaluated, stored or loaded. -/
inductive Error where
  | unknownField (modulus : Nat)
  | fieldMismatch (expected got : ScalarField)
  | malformed (fault : Fault)
  /-- A hint failed on these inputs. -/
  | hintFailed (name : String) (inputs : List Nat) (failure : HintFailure)
  /-- A constraint has a value other than zero. -/
  | violated (circuit : CircuitId) (index value : Nat)
  | inputLength (expected got : Nat)
  | unknownHint (name : String)
  | codec (error : CodecError)
  | build (error : BuildError)
deriving DecidableEq, Repr

namespace Error

def message : Error → String
  | unknownField modulus => s!"Unknown field: no backend for modulus {modulus}"
  | fieldMismatch expected got => s!"Field mismatch: expected {expected.name}, got {got.name}"
  | malformed fault => fault.message
  | hintFailed name inputs failure =>
    let values := ", ".intercalate (inputs.map Nat.repr)
    s!"Hint `{name}` failed on inputs [{values}]: {failure.message}"
  | violated circuit index value =>
    s!"Constraint {index} of {circuit.name} is violated: evaluates to {value}"
  | inputLength expected got => s!"Input length mismatch: expected {expected}, got {got}"
  | unknownHint name => s!"Unknown hint `{name}`"
  | codec error => s!"Serialization error: {error.message}"
  | build error => s!"Failed to build circuit: {error.message}"

end Error
end ArithCircuit
