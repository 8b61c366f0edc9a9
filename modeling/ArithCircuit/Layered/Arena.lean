import Std.Data.TreeMap
import ArithCircuit.Layered.Circuit
import ArithCircuit.Circuit.Execution

/-!
Gates under construction. Gates are added one by one, operands before users, each with its depth:
inputs and constants lie at depth 0, a sum or product one below its deeper operand. A constant is
added at most once.
-/
namespace ArithCircuit

/-- A gate with its depth. Operands are positions among the gates added so far. -/
structure Node (F : ScalarField) where
  gate : Gate F
  depth : Nat

/-- The gates added so far. -/
structure Arena (F : ScalarField) where
  nodes : Array (Node F)
  /-- Where each constant stands. -/
  constants : Std.TreeMap Nat Nat
  numInputs : Nat
  /-- The gates that must be zero, in order. -/
  constraints : Array Nat

/-- The value of a wire: a constant, or a gate times a coefficient other than zero. -/
inductive WireValue (F : ScalarField) where
  | constant (value : Scalar F)
  | scaled (gate : Nat) (coef : Scalar F)
deriving DecidableEq

namespace Arena
variable {F : ScalarField}

def empty : Arena F := ⟨#[], ∅, 0, #[]⟩

def depth (arena : Arena F) (gate : Nat) : Nat :=
  match arena.nodes[gate]? with
  | some node => node.depth
  | none => 0

/-- The depth of a gate over these operands. -/
def depthOver (arena : Arena F) (gate : Gate F) : Nat :=
  match gate.operands? with
  | some (a, b) => 1 + max (arena.depth a) (arena.depth b)
  | none => 0

/-- Adds a gate. Returns its position. -/
def push (gate : Gate F) (arena : Arena F) : Nat × Arena F :=
  let depth := arena.depthOver gate
  (arena.nodes.size, { arena with nodes := arena.nodes.push ⟨gate, depth⟩ })

/-- Adds the next input gate. -/
def pushInput (arena : Arena F) : WireValue F × Arena F :=
  let (gate, arena) := arena.push (.input arena.numInputs)
  (.scaled gate 1, { arena with numInputs := arena.numInputs + 1 })

/-- Adds several input gates. -/
def pushInputs : Nat → Arena F → List (WireValue F) × Arena F
  | 0, arena => ([], arena)
  | count + 1, arena =>
    let (value, arena) := arena.pushInput
    let (rest, arena) := pushInputs count arena
    (value :: rest, arena)

/-- The gate of a constant, added if it is new. -/
def constant (value : Scalar F) (arena : Arena F) : Nat × Arena F :=
  match arena.constants.get? value.val with
  | some gate => (gate, arena)
  | none =>
    let (gate, arena) := arena.push (.constant value)
    (gate, { arena with constants := arena.constants.insert value.val gate })

/-- Requires a gate to be zero. -/
def constrain (gate : Nat) (arena : Arena F) : Arena F :=
  { arena with constraints := arena.constraints.push gate }

/-- A gate with exactly the value of a wire. -/
def materialize (value : WireValue F) (arena : Arena F) : Nat × Arena F :=
  match value with
  | .constant k => arena.constant k
  | .scaled gate coef =>
    if coef = 1 then (gate, arena)
    else
      let (one, arena) := arena.constant 1
      arena.push (.mul gate one coef)

def materializeAll : List (WireValue F) → Arena F → List Nat × Arena F
  | [], arena => ([], arena)
  | value :: rest, arena =>
    let (gate, arena) := arena.materialize value
    let (gates, arena) := materializeAll rest arena
    (gate :: gates, arena)

/-- The product of two wire values. Constant factors are folded into the coefficient. -/
def product (lhs rhs : WireValue F) (arena : Arena F) : WireValue F × Arena F :=
  match lhs, rhs with
  | .constant a, .constant b => (.constant (a * b), arena)
  | .constant k, .scaled gate coef | .scaled gate coef, .constant k =>
    if k.isZero then (.constant 0, arena) else (.scaled gate (coef * k), arena)
  | .scaled a ca, .scaled b cb =>
    let (gate, arena) := arena.push (.mul a b (ca * cb))
    (.scaled gate 1, arena)

end Arena
end ArithCircuit
