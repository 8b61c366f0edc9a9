import ArithCircuit.Script.Action

/-!
Scripts: lists of steps that record a circuit and say what each step made. A step that fails ends
its script, unless the step is an attempt. The body of a definition is a script with a store of its
own.
-/
namespace ArithCircuit

inductive Step (F : ScalarField) where
  | act (action : Action F)
  /-- Defines a sub-circuit. If `caught`, a failure is answered and the script goes on. -/
  | define (key : String) (numInputs : Nat) (body : List (Step F)) (caught : Bool)
  /-- Does a step, and goes on if it fails. -/
  | attempt (step : Step F)

/-- What a step says. -/
inductive Answer (F : ScalarField) where
  | made (product : Product F)
  /-- The id of a sub-circuit, and what its body said if it was recorded now. -/
  | defined (id : CircuitId) (body : Option (List (Answer F)))
  | failed (e : BuildError)
  /-- A caught failure of a definition, and what its body said if it was started. -/
  | notDefined (e : BuildError) (body : Option (List (Answer F)))
  /-- The step failed and its script ended. -/
  | aborted

/-- How a script ended. -/
structure Outcome (F : ScalarField) where
  answers : List (Answer F)
  failure : Option BuildError
  builder : Builder F

namespace Step
variable {F : ScalarField}

/-- Defines a sub-circuit by a script, given as what it does to a builder. Also returns what the
    script said, if it was started. -/
def record (key : String) (numInputs : Nat) (body : Builder F → Outcome F) (b : Builder F) :
    Except BuildError CircuitId × Option (List (Answer F)) × Builder F :=
  match b.subCircuits.lookup? key, Builder.checkInputCount numInputs with
  | some id, _ => (.ok id, none, b)
  | none, .error e => (.error e, none, b)
  | none, .ok () =>
    let outcome := body (b.child numInputs)
    let (result, b) := b.adopt key outcome.builder outcome.failure
    (result, some outcome.answers, b)

mutual

/-- Does a step with what is stored. -/
def run : Step F → Store F → Build F (Answer F × Store F)
  | .act action, store => do
    let product ← action.run store
    return (.made product, store.extend product)
  | .attempt step, store => fun b =>
    match run step store b with
    | .ok result b => .ok result b
    | .error e b => .ok (.failed e, store) b
  | .define key numInputs body caught, store => fun b =>
    let (result, answers, b) := record key numInputs (runAll body .empty #[]) b
    match result, caught with
    | .ok id, _ => .ok (.defined id answers, store) b
    | .error e, true => .ok (.notDefined e answers, store) b
    | .error e, false => .error e b

/-- Does steps in order with what is stored, after those that gave the first answers. -/
def runAll : List (Step F) → Store F → Array (Answer F) → Builder F → Outcome F
  | [], _, answers, b => ⟨answers.toList, none, b⟩
  | step :: rest, store, answers, b =>
    match run step store b with
    | .ok (answer, store) b => runAll rest store (answers.push answer) b
    | .error e b => ⟨(answers.push .aborted).toList, some e, b⟩

end

end Step

/-- A circuit given by a script. -/
structure Script (F : ScalarField) where
  numInputs : Nat
  numPublic : Nat
  steps : List (Step F)

namespace Script
variable {F : ScalarField}

/-- Runs the script on a builder. -/
def run (script : Script F) (b : Builder F) : Outcome F := Step.runAll script.steps .empty #[] b

/-- What the steps say on a fresh builder. Nothing, if there is none with these inputs. -/
def answers (script : Script F) (hints : HintRegistry F) : List (Answer F) :=
  match Builder.start script.numInputs script.numPublic hints with
  | .ok b => (script.run b).answers
  | .error _ => []

def blueprint (script : Script F) : Blueprint F where
  numInputs := script.numInputs
  numPublic := script.numPublic
  define := fun b =>
    let outcome := script.run b
    match outcome.failure with
    | none => .ok () outcome.builder
    | some e => .error e outcome.builder

end Script
end ArithCircuit
