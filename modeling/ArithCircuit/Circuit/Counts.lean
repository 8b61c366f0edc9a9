import ArithCircuit.Circuit.Design

/-!
Statistics of a design: instructions by kind, and totals with every call expanded. Totals are held
in 64 bits. What calls add stops at the largest such number; what a circuit adds itself wraps.
-/
namespace ArithCircuit

/-- The largest count. -/
def countLimit : Nat := Nat.pow 2 64 - 1

/-- A sum that stops at the largest count. -/
def saturatingAdd (a b : Nat) : Nat := min (a + b) countLimit

/-- A sum that wraps past the largest count. -/
def wrappingAdd (a b : Nat) : Nat := (a + b) % (countLimit + 1)

/-- Totals of a circuit with every call expanded. -/
structure ExpandedCounts where
  instances : Nat
  muls : Nat
  constraints : Nat
  hintOutputs : Nat
  wires : Nat
deriving DecidableEq, Repr

namespace ExpandedCounts

def zero : ExpandedCounts := ⟨0, 0, 0, 0, 0⟩

/-- Adds the totals of a called circuit. -/
def addCall (a b : ExpandedCounts) : ExpandedCounts :=
  ⟨saturatingAdd a.instances b.instances, saturatingAdd a.muls b.muls,
    saturatingAdd a.constraints b.constraints, saturatingAdd a.hintOutputs b.hintOutputs,
    saturatingAdd a.wires b.wires⟩

/-- The totals of a circuit before its instructions are counted. -/
def start {F : ScalarField} (c : Circuit F) : ExpandedCounts :=
  ⟨1, 0, c.constraints.length, 0, c.numWires⟩

end ExpandedCounts

/-- Summary of a design. -/
structure DesignStats where
  numCircuits : Nat
  linears : Nat
  products : Nat
  hints : Nat
  calls : Nat
  constraints : Nat
  /-- The totals of the entry circuit. -/
  expanded : ExpandedCounts
deriving DecidableEq, Repr

namespace Design
variable {F : ScalarField}

/-- Totals by circuit, as far as they are known. -/
abbrev CountTable := Table CircuitId ExpandedCounts

/-- Counts a list of instructions. `expand` gives the totals of a called circuit. -/
def countInstructions
    (expand : CircuitId → CountTable → Except Fault (ExpandedCounts × CountTable)) :
    List (Instruction F) → ExpandedCounts → CountTable → Except Fault (ExpandedCounts × CountTable)
  | [], counts, known => .ok (counts, known)
  | instruction :: rest, counts, known =>
    match instruction with
    | .linear .. => countInstructions expand rest counts known
    | .product .. =>
      countInstructions expand rest { counts with muls := wrappingAdd counts.muls 1 } known
    | .hint _ _ outputs =>
      countInstructions expand rest
        { counts with hintOutputs := wrappingAdd counts.hintOutputs outputs.length } known
    | .call callee _ _ => do
      let (sub, known) ← expand callee known
      countInstructions expand rest (counts.addCall sub) known

/-- The totals of a circuit, looked up or counted. Calls nest at most `depth` deep. -/
def expand (D : Design F) : (depth : Nat) → CircuitId → CountTable →
    Except Fault (ExpandedCounts × CountTable)
  | 0, id, _ => .error ⟨id, .header, .callCycle id⟩
  | depth + 1, id, known =>
    match known.get? id with
    | some counts => .ok (counts, known)
    | none => do
      let c ← D.circuit id
      let (counts, known) ← countInstructions (D.expand depth) c.instructions (.start c) known
      return (counts, known.insert id counts)

/-- Expands each id in turn. -/
def expandAll (D : Design F) : List CircuitId → CountTable → Except Fault CountTable
  | [], known => .ok known
  | id :: rest, known => do
    let (_, known) ← D.expand (D.size + 1) id known
    D.expandAll rest known

/-- The totals of every circuit. -/
def expandedCounts (D : Design F) : Except Fault CountTable := D.expandAll D.circuits.keys ∅

/-- The number of instructions of a kind, over all circuits. -/
def countKind (D : Design F) (kind : Instruction.Kind) : Nat :=
  sumOver (fun c => c.instructions.countP fun i => i.kind == kind) D.circuits.values

def stats (D : Design F) : Except Fault DesignStats := do
  let known ← D.expandedCounts
  return {
    numCircuits := D.size
    linears := D.countKind .linear
    products := D.countKind .product
    hints := D.countKind .hint
    calls := D.countKind .call
    constraints := sumOver (·.constraints.length) D.circuits.values
    expanded := (known.get? .entry).getD .zero }

end Design
end ArithCircuit
