import ArithCircuit.Circuit.Validity
import ArithCircuit.Codec.Header

/-!
Stored designs. Hint names stand in a table, strictly sorted, and instructions name hints by their
positions in it; then follow the circuits with their ids. What is read is checked against the rules
of designs.
-/
namespace ArithCircuit
namespace Codec
variable {F : ScalarField}

def term : Codec (Term F) where
  write t := do
    wire.write t.wire
    scalar.write t.coef
  read := do
    let w ← wire.read
    let coef ← scalar.read
    return ⟨coef, w⟩

/-- Canonical forms, as lists of terms. -/
def form : Codec (LinearForm F) where
  write e := (list term).write e.terms
  read := do
    match LinearForm.ofCanonical? (← (list term).read) with
    | some e => return e
    | none => throw .nonCanonicalForm

/-- Whether names strictly increase. -/
def increasing : List String → Bool
  | [] => true
  | [_] => true
  | a :: b :: rest => decide (a < b) && increasing (b :: rest)

/-- Strictly sorted names. -/
def hintTable : Codec (List String) where
  write names := (list text).write names
  read := do
    let names ← (list text).read
    if increasing names then return names else throw (.badPart .hintTable)

/-- The name of a hint, as its position in a table. -/
def hintName (names : List String) : Codec String where
  write name :=
    match names.idxOf? name with
    | some i => count.write i
    | none => throw (.badPart .hintTable)
  read := do
    let i ← count.read
    match names[i]? with
    | some name => return name
    | none => throw (.unknownChoice .hint i)

def instruction (names : List String) : Codec (Instruction F) where
  write i := do
    (number 1).write i.kind.tag
    match i with
    | .linear e out => do
      wire.write out
      form.write e
    | .product lhs rhs out => do
      wire.write out
      form.write lhs
      form.write rhs
    | .hint name inputs outputs => do
      (hintName names).write name
      (list form).write inputs
      (list wire).write outputs
    | .call callee inputs outputs => do
      circuitId.write callee
      (list form).write inputs
      (list wire).write outputs
  read := do
    let tag ← (number 1).read
    match Instruction.Kind.ofTag? tag with
    | none => throw (.unknownChoice .instruction tag)
    | some .linear =>
      let out ← wire.read
      let e ← form.read
      return .linear e out
    | some .product =>
      let out ← wire.read
      let lhs ← form.read
      let rhs ← form.read
      return .product lhs rhs out
    | some .hint =>
      let name ← (hintName names).read
      let inputs ← (list form).read
      let outputs ← (list wire).read
      return .hint name inputs outputs
    | some .call =>
      let callee ← circuitId.read
      let inputs ← (list form).read
      let outputs ← (list wire).read
      return .call callee inputs outputs

def circuit (names : List String) : Codec (Circuit F) where
  write c := do
    count.write c.numInputs
    count.write c.numPublic
    (list (instruction names)).write c.instructions
    (list form).write c.constraints
    (list form).write c.outputs
  read := do
    let numInputs ← count.read
    let numPublic ← count.read
    let instructions ← (list (instruction names)).read
    let constraints ← (list form).read
    let outputs ← (list form).read
    return ⟨numInputs, numPublic, instructions, constraints, outputs⟩

/-- A circuit after its id. -/
def entry (names : List String) : Codec (CircuitId × Circuit F) where
  write e := do
    circuitId.write e.1
    (circuit names).write e.2
  read := do
    let id ← circuitId.read
    let c ← (circuit names).read
    return (id, c)

/-- Reads circuits into a table. No id may come twice. -/
def readEntries (names : List String) :
    Nat → Table CircuitId (Circuit F) → Reader (Table CircuitId (Circuit F))
  | 0, table => return table
  | remaining + 1, table => do
    let (id, c) ← (entry names).read
    if table.contains id then throw (.badPart .duplicateCircuit)
    readEntries names remaining (table.insert id c)

/-- The hint table and the circuits, without a head. -/
def circuits : Codec (List String × Table CircuitId (Circuit F)) where
  write body := do
    hintTable.write body.1
    (list (entry body.1)).write body.2.entries
  read := do
    let names ← hintTable.read
    let length ← count.read
    let table ← readEntries names length ∅
    return (names, table)

end Codec

namespace Design
variable {F : ScalarField}

def toBytes (D : Design F) : Except Error (List UInt8) :=
  let writer : Writer Unit := do
    Header.write .design F
    Codec.circuits.write (D.hintNames, D.circuits)
  writer.toBytes.mapError .codec

def ofBytes (bytes : List UInt8) : Except Error (Design F) := do
  let body ← Header.expect .design F bytes
  let ((_, table), rest) ← ((Codec.circuits (F := F)).read.parse body).mapError .codec
  (Reader.finish rest).mapError .codec
  (Design.ofCircuits table).mapError .malformed

end Design
end ArithCircuit
