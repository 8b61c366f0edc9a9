import ArithCircuit.Script.Basic
import ArithCircuit.Proofs.Builder.Binary

/-!
What a script computes, told without circuits. Actions compute field elements from those stored before
them; an action fails where an assertion does, where an operand that must be a bit is none, where a
divisor is zero or where a number takes too many bits. A definition adds a procedure, which runs the
body on its own store; a call runs a procedure.
-/
namespace ArithCircuit
variable {F : ScalarField}

/-- The truth value of a bit. -/
def Scalar.bit? (x : Scalar F) : Option Bool := if x = 0 then some false else if x = 1 then some true else none

/-- A definition that can be called. -/
structure Procedure (F : ScalarField) where
  key : String
  numInputs : Nat
  run : List (Scalar F) → Option (List (Scalar F))

/-- The definitions so far, in the order of their ids, which count from 1. -/
abbrev Library (F : ScalarField) := List (Procedure F)

namespace Library

def find? (lib : Library F) : CircuitId → Option (Procedure F)
  | 0 => none
  | index + 1 => lib[index]?

def defines (lib : Library F) (key : String) : Bool := lib.any fun p => p.key == key

/-- Runs a procedure on as many arguments as it takes. -/
def call (lib : Library F) (id : CircuitId) (args : List (Scalar F)) : Option (List (Scalar F)) :=
  match lib.find? id with
  | none => none
  | some p => if p.numInputs = args.length then p.run args else none

end Library

/-- What the actions so far have computed and shown. -/
structure Memory (F : ScalarField) where
  values : Array (Scalar F)
  outputs : List (Scalar F)

namespace Memory

def empty : Memory F := ⟨#[], []⟩

/-- The value of an operand. A position without a value reads as zero. -/
def read (m : Memory F) : Operand F → Scalar F
  | .stored position => (Store.item? m.values position).getD 0
  | .form e => e.constant?.getD 0

end Memory

namespace Action

/-- Applies a truth function to two operands that must be bits. -/
def onBits (op : Bool → Bool → Bool) (x y : Scalar F) : Option (List (Scalar F)) := do
  let s ← x.bit?
  let t ← y.bit?
  return [.ofBool (op s t)]

/-- The values that an action computes. Actions on words, samples and hints have no meaning here. -/
def compute (lib : Library F) (inputs : List (Scalar F)) (read : Operand F → Scalar F) :
    Action F → Option (List (Scalar F))
  | .form e => some [read (.form e)]
  | .input index => (inputs[index]?).map fun x => [x]
  | .inputs => some inputs
  | .add a b => some [read a + read b]
  | .sub a b => some [read a - read b]
  | .neg a => some [-read a]
  | .scale a c => some [c * read a]
  | .mul a b => some [read a * read b]
  | .reify a => some [read a]
  | .innerProduct xs ys =>
    if xs.length = ys.length then some [((xs.zip ys).map fun p => read p.1 * read p.2).sum] else none
  | .assertZero a => if read a = 0 then some [] else none
  | .assertEqual a b => if read a = read b then some [] else none
  | .assertDistinct a b => if read a ≠ read b then some [] else none
  | .assertBoolean a => if read a = 0 ∨ read a = 1 then some [] else none
  | .select b t f => some [read f + read b * (read t - read f)]
  | .inverse a => if read a = 0 then none else some [(read a)⁻¹]
  | .div a b => if read b = 0 then none else some [read a / read b]
  | .divUnchecked a b => if read b = 0 then none else some [read a / read b]
  | .isZero a => some [if read a = 0 then 1 else 0]
  | .and a b => onBits Bool.and (read a) (read b)
  | .or a b => onBits Bool.or (read a) (read b)
  | .xor a b => onBits Bool.xor (read a) (read b)
  | .lookup2 b₀ b₁ v₀ v₁ v₂ v₃ => do
    let low ← (read b₀).bit?
    let high ← (read b₁).bit?
    return [read (if high then if low then v₃ else v₂ else if low then v₁ else v₀)]
  | .toBinary a count => if (read a).val < 2 ^ count then some ((read a).toBinary count) else none
  | .fromBinary bits => some [.ofBinary (bits.map read)]
  | .output _ => some []
  | .call id args => lib.call id (args.map read)
  | _ => none

/-- The values that an action exposes as outputs. -/
def shown (read : Operand F → Scalar F) : Action F → List (Scalar F)
  | .output es => es.map read
  | _ => []

end Action

namespace Step

mutual

/-- The procedures after a step. The first definition of a key counts, and those inside a body come
    before it. -/
def library : Step F → Library F → Library F
  | .act _, lib => lib
  | .attempt step, lib => library step lib
  | .define key numInputs body _, lib =>
    if lib.defines key then lib
    else libraryAll body lib ++ [⟨key, numInputs, fun inputs => (performAll body lib inputs .empty).map (·.outputs)⟩]

def libraryAll : List (Step F) → Library F → Library F
  | [], lib => lib
  | step :: rest, lib => libraryAll rest (library step lib)

/-- What a step computes and shows after what was computed before. -/
def perform : Step F → Library F → List (Scalar F) → Memory F → Option (Memory F)
  | .act action, lib, inputs, m =>
    (action.compute lib inputs m.read).map fun (made : List (Scalar F)) => ⟨m.values ++ made, m.outputs ++ action.shown m.read⟩
  | .attempt step, lib, inputs, m => perform step lib inputs m
  | .define .., _, _, m => some m

def performAll : List (Step F) → Library F → List (Scalar F) → Memory F → Option (Memory F)
  | [], _, _, m => some m
  | step :: rest, lib, inputs, m =>
    match perform step lib inputs m with
    | none => none
    | some m => performAll rest (library step lib) inputs m

end

end Step

/-- The outputs of a script on inputs, if every assertion holds. -/
def Script.meaning (script : Script F) (inputs : List (Scalar F)) : Option (List (Scalar F)) :=
  (Step.performAll script.steps [] inputs .empty).map (·.outputs)

/-! ### Scripts of arithmetic -/

/-- An operand that was stored, or a constant. -/
def Operand.Plain : Operand F → Prop
  | .stored _ => True
  | .form e => ∃ k, e = .constant k

namespace Action

/-- An action on field elements other than a hint. -/
def Plain : Action F → Prop
  | .form e => (Operand.form e).Plain
  | .input _ | .inputs => True
  | .add a b | .sub a b | .mul a b | .assertEqual a b | .assertDistinct a b | .div a b | .divUnchecked a b | .and a b |
    .or a b | .xor a b => a.Plain ∧ b.Plain
  | .neg a | .scale a _ | .reify a | .assertZero a | .assertBoolean a | .inverse a | .isZero a | .toBinary a _ => a.Plain
  | .select b t f => b.Plain ∧ t.Plain ∧ f.Plain
  | .innerProduct xs ys => (∀ a ∈ xs, a.Plain) ∧ ∀ a ∈ ys, a.Plain
  | .lookup2 b₀ b₁ v₀ v₁ v₂ v₃ => ∀ a ∈ [b₀, b₁, v₀, v₁, v₂, v₃], a.Plain
  | .fromBinary es | .output es | .call _ es => ∀ a ∈ es, a.Plain
  | _ => False

/-- An action whose result the circuit pins down by itself. -/
def Checked : Action F → Prop
  | .divUnchecked _ _ => False
  | _ => True

end Action

namespace Step

mutual

/-- Every action of a step, also in bodies, is of a kind, and every step must succeed. -/
def Strict (P : Action F → Prop) : Step F → Prop
  | .act action => P action
  | .define _ _ body caught => caught = false ∧ StrictAll P body
  | .attempt _ => False

def StrictAll (P : Action F → Prop) : List (Step F) → Prop
  | [] => True
  | step :: rest => Strict P step ∧ StrictAll P rest

end

end Step

end ArithCircuit
