import ArithCircuit.Circuit.Design
import ArithCircuit.Error

/-!
Running a design, one walk for many readings. An interpretation says what values are, what forms,
products, hints and constraints do to them and to a state; the walk gives each instruction's outputs
to the wires in order and follows calls. It checks what it relies on as it goes: forms read only
wires that have a value, outputs are the next wires, and calls fit their callees. The number of
values so far is read as a machine word.
-/
namespace ArithCircuit

/-- A place in a circuit of a design. -/
structure Site where
  circuit : CircuitId
  location : Location

namespace Site

def error (site : Site) (flaw : Flaw) : Error := .malformed ⟨site.circuit, site.location, flaw⟩

end Site

/-- The run of a circuit: the values of its wires, and the runs of the calls it made, in order. -/
inductive CallTree (V : Type) where
  | node (circuit : CircuitId) (values : Array V) (calls : List (CallTree V))

namespace CallTree
variable {V : Type}

/-- The values of the wires of the circuit at the root. -/
def values : CallTree V → Array V
  | node _ values _ => values

mutual

/-- The runs of a tree, each before the runs of its calls, followed by `tail`. -/
def preorderOnto (tail : List (CircuitId × Array V)) : CallTree V → List (CircuitId × Array V)
  | node circuit values calls => (circuit, values) :: preorderAllOnto tail calls

/-- The runs of a list of trees, followed by `tail`. -/
def preorderAllOnto (tail : List (CircuitId × Array V)) :
    List (CallTree V) → List (CircuitId × Array V)
  | [] => tail
  | tree :: rest => preorderOnto (preorderAllOnto tail rest) tree

end

/-- The runs of a tree, each before the runs of its calls. -/
def preorder (tree : CallTree V) : List (CircuitId × Array V) := preorderOnto [] tree

end CallTree

/-- What instructions do to values of type `V` and a state of type `S`. -/
structure Interp (F : ScalarField) (V S : Type) where
  /-- The value of wire 0. -/
  one : V
  /-- The value of a form over the wires defined so far. -/
  form : Site → LinearForm F → Array V → S → Except Error (V × S)
  product : V → V → S → V × S
  /-- The values of the output wires of a hint, as many as asked for. -/
  hint : String → List (LinearForm F) → Nat → Array V → S → Except Error (List V × S)
  /-- Records a form that must vanish. -/
  constrain : Site → LinearForm F → Array V → S → Except Error S

/-- The result of running a circuit. -/
structure Run (V S : Type) where
  tree : CallTree V
  outputs : List V
  state : S

namespace Interp
variable {F : ScalarField} {V S : Type}

/-- A form may read only wires that have a value. -/
def checkDefined (site : Site) (form : LinearForm F) (defined : Nat) : Except Error Unit :=
  match form.undefined? (machineWord defined) with
  | some w => .error (site.error (.undefinedWire w))
  | none => .ok ()

def checkAllDefined (site : Site) (defined : Nat) : List (LinearForm F) → Except Error Unit
  | [] => .ok ()
  | form :: rest => do
    checkDefined site form defined
    checkAllDefined site defined rest

/-- Gives the next wire its value. -/
def defineWire (site : Site) (out : Wire) (value : V) (values : Array V) : Except Error (Array V) :=
  if out = machineWord values.size then .ok (values.push value)
  else .error (site.error (.notNextWire out values.size))

def defineWires (site : Site) : List Wire → List V → Array V → Except Error (Array V)
  | out :: outs, value :: rest, values => do
    let values ← defineWire site out value values
    defineWires site outs rest values
  | _, _, values => .ok values

variable (I : Interp F V S)

def read (site : Site) (form : LinearForm F) (values : Array V) (s : S) : Except Error (V × S) := do
  checkDefined site form values.size
  I.form site form values s

/-- Reads forms in order, the place of each given by its position. -/
def readAll (site : Nat → Site) (values : Array V) :
    Nat → List (LinearForm F) → S → Except Error (List V × S)
  | _, [], s => .ok ([], s)
  | i, form :: rest, s => do
    let (v, s) ← I.read (site i) form values s
    let (vs, s) ← readAll site values (i + 1) rest s
    return (v :: vs, s)

/-- Reads the factors of a product; equal factors are read once. -/
def readFactors (site : Site) (lhs rhs : LinearForm F) (values : Array V) (s : S) :
    Except Error ((V × V) × S) := do
  let (a, s) ← I.read site lhs values s
  if rhs = lhs then return ((a, a), s)
  let (b, s) ← I.read site rhs values s
  return ((a, b), s)

def constrainAll (circuit : CircuitId) (values : Array V) :
    Nat → List (LinearForm F) → S → Except Error S
  | _, [], s => .ok s
  | i, form :: rest, s => do
    let site : Site := ⟨circuit, .constraint i⟩
    checkDefined site form values.size
    let s ← I.constrain site form values s
    constrainAll circuit values (i + 1) rest s

/-- Runs instructions from a position on. `run` runs a called circuit. -/
def execute (D : Design F) (run : CircuitId → List V → S → Except Error (Run V S))
    (circuit : CircuitId) : Nat → List (Instruction F) → Array V → Array (CallTree V) → S →
      Except Error (Array V × Array (CallTree V) × S)
  | _, [], values, calls, s => .ok (values, calls, s)
  | i, instruction :: rest, values, calls, s =>
    let site : Site := ⟨circuit, .instruction i⟩
    match instruction with
    | .linear form out => do
      let (v, s) ← I.read site form values s
      let values ← defineWire site out v values
      execute D run circuit (i + 1) rest values calls s
    | .product lhs rhs out => do
      let ((a, b), s) ← I.readFactors site lhs rhs values s
      let (v, s) := I.product a b s
      let values ← defineWire site out v values
      execute D run circuit (i + 1) rest values calls s
    | .hint name inputs outputs => do
      checkAllDefined site values.size inputs
      let (vs, s) ← I.hint name inputs outputs.length values s
      let values ← defineWires site outputs vs values
      execute D run circuit (i + 1) rest values calls s
    | .call callee inputs outputs => do
      let (args, s) ← I.readAll (fun _ => site) values 0 inputs s
      let c ← (D.circuit callee).mapError .malformed
      if c.numInputs = args.length ∧ c.outputs.length = outputs.length then
        let result ← run callee args s
        let values ← defineWires site outputs result.outputs values
        execute D run circuit (i + 1) rest values (calls.push result.tree) result.state
      else .error (site.error (.callMismatch callee))

/-- Runs one circuit on its inputs. -/
def runCircuit (D : Design F) (run : CircuitId → List V → S → Except Error (Run V S))
    (id : CircuitId) (c : Circuit F) (inputs : List V) (s : S) : Except Error (Run V S) := do
  let (values, calls, s) ← I.execute D run id 0 c.instructions (#[I.one] ++ inputs) #[] s
  let s ← I.constrainAll id values 0 c.constraints s
  let (outputs, s) ← I.readAll (fun i => ⟨id, .output i⟩) values 0 c.outputs s
  return ⟨.node id values calls.toList, outputs, s⟩

/-- Runs the circuit of an id on its inputs. Calls nest at most `depth` deep; in a design without
    cycles they nest no deeper than it has circuits. -/
def run (D : Design F) : (depth : Nat) → CircuitId → List V → S → Except Error (Run V S)
  | 0, id, _, _ => .error (.malformed ⟨id, .header, .callCycle id⟩)
  | depth + 1, id, inputs, s => do
    let c ← (D.circuit id).mapError .malformed
    I.runCircuit D (run D depth) id c inputs s

end Interp
end ArithCircuit
