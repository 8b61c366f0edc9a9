import ArithCircuit.Builder.State

/-!
Defining sub-circuits and calling them. The body of a definition is recorded on a builder of its
own, which shares the sub-circuits defined so far. A key that is known is not defined again; it is
known from the end of its definition on. A failed definition takes back every definition made inside
it.
-/
namespace ArithCircuit
namespace Builder
variable {F : ScalarField}

/-- A builder for the body of a sub-circuit. -/
def child (b : Builder F) (numInputs : Nat) : Builder F := blank numInputs 0 b.hints b.subCircuits

/-- Ends a definition. A body that ended well becomes a sub-circuit, unless one of its assertions
    never holds; otherwise what it defined is forgotten. -/
def adopt (b : Builder F) (key : String) (body : Builder F) (failure : Option BuildError) :
    Except BuildError CircuitId × Builder F :=
  match failure.or body.unsatisfiable with
  | none =>
    let (id, subs) := body.subCircuits.insert key body.circuit
    (.ok id, { b with subCircuits := subs })
  | some e => (.error e, { b with subCircuits := body.subCircuits.rollback b.subCircuits.nextId })

/-- Defines a sub-circuit, or finds the one already defined under the key. -/
def define (key : String) (numInputs : Nat) (body : Build F Unit) : Build F CircuitId := do
  let b ← get
  if let some id := b.subCircuits.lookup? key then return id
  if let .error e := checkInputCount numInputs then throw e
  let (failure, inner) :=
    match body (b.child numInputs) with
    | .ok () inner => (none, inner)
    | .error e inner => (some e, inner)
  let (result, b) := b.adopt key inner failure
  set b
  match result with
  | .ok id => return id
  | .error e => throw e

/-- Calls a sub-circuit on inputs. Returns its outputs as new wires. -/
def call (id : CircuitId) (inputs : List (LinearForm F)) : Build F (List (LinearForm F)) := do
  let b ← get
  match b.subCircuits.get? id with
  | none => throw (.unknownCircuit id)
  | some callee =>
    if callee.numInputs ≠ inputs.length then throw (.arity id callee.numInputs inputs.length)
    let outputs ← newWires callee.outputs.length
    recordInstruction (.call id inputs outputs)
    return outputs.map .wire

end Builder
end ArithCircuit
