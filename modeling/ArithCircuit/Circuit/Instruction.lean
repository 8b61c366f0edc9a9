import ArithCircuit.LinearForm
import ArithCircuit.Fault

/-!
The instructions of a circuit. Each reads linear forms over wires defined before it and defines the
wires that follow.
-/
namespace ArithCircuit

/-- A step that defines wires. -/
inductive Instruction (F : ScalarField) where
  /-- `out` is the value of a form. -/
  | linear (form : LinearForm F) (out : Wire)
  /-- `out` is the product of two forms. -/
  | product (lhs rhs : LinearForm F) (out : Wire)
  /-- `outputs` are what a named hint gives on the inputs. -/
  | hint (name : String) (inputs : List (LinearForm F)) (outputs : List Wire)
  /-- `outputs` are what another circuit of the design gives on the inputs. -/
  | call (callee : CircuitId) (inputs : List (LinearForm F)) (outputs : List Wire)
deriving DecidableEq

namespace Instruction

/-- The four shapes of an instruction. -/
inductive Kind where
  | linear | product | hint | call
deriving DecidableEq, Repr

namespace Kind

def all : List Kind := [linear, product, hint, call]

/-- The number of a kind in statistics and in stored circuits. -/
def tag : Kind → Nat
  | linear => 0
  | product => 1
  | hint => 2
  | call => 3

def ofTag? (n : Nat) : Option Kind := all.find? fun k => k.tag == n

end Kind

variable {F : ScalarField}

def kind : Instruction F → Kind
  | linear .. => .linear
  | product .. => .product
  | hint .. => .hint
  | call .. => .call

/-- The wires defined, in order. -/
def outputs : Instruction F → List Wire
  | linear _ out => [out]
  | product _ _ out => [out]
  | hint _ _ outs => outs
  | call _ _ outs => outs

/-- The forms read, in order. -/
def inputs : Instruction F → List (LinearForm F)
  | linear form _ => [form]
  | product lhs rhs _ => [lhs, rhs]
  | hint _ ins _ => ins
  | call _ ins _ => ins

/-- The circuit called, if any. -/
def callee? : Instruction F → Option CircuitId
  | call callee _ _ => some callee
  | _ => none

/-- The hint run, if any. -/
def hintName? : Instruction F → Option String
  | hint name _ _ => some name
  | _ => none

def wiresText (wires : List Wire) : String := ", ".intercalate (wires.map Wire.name)

def formsText (forms : List (LinearForm F)) : String := ", ".intercalate (forms.map LinearForm.text)

def text : Instruction F → String
  | linear form out => s!"{out.name} = {form.text}"
  | product lhs rhs out => s!"{out.name} = ({lhs.text}) * ({rhs.text})"
  | hint name ins outs => s!"{wiresText outs} = hint {name}({formsText ins})"
  | call callee ins outs => s!"{wiresText outs} = call {callee.name}({formsText ins})"

end Instruction
end ArithCircuit
