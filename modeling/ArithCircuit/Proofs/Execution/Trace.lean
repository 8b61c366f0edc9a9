import ArithCircuit.Proofs.Circuit.Validity
import ArithCircuit.Witness.Basic

/-!
The meaning of a design, stated without an interpreter. A trace runs instructions one after the other
over the values of the wires so far: forms and products are what they say, calls are executions of
their callees, and hints are answered by a rule that is left open. The hint outputs of a trace are
listed in the order in which hints are met. A trace is fixed by its hint outputs, and also by its
rule if the rule leaves no choice.
-/
namespace ArithCircuit
variable {F : ScalarField}

/-- The value of a form over wires whose values are listed. -/
def LinearForm.on (e : LinearForm F) (values : List (Scalar F)) : Scalar F :=
  e.eval fun w => values.getD w 0

/-- Which outputs a hint may give on which inputs. -/
abbrev HintRule (F : ScalarField) := String → List (Scalar F) → List (Scalar F) → Prop

namespace HintRule

/-- Hints may give anything. -/
def any : HintRule F := fun _ _ _ => True

/-- The inputs of a hint and the number of its outputs decide the outputs. -/
def Functional (rule : HintRule F) : Prop :=
  ∀ name inputs first second, rule name inputs first → rule name inputs second →
    first.length = second.length → first = second

end HintRule

/-- Runs instructions from the values of the wires so far to the values of all wires, with the hint
    outputs taken and the instances of the calls made, each before those of its own calls. -/
inductive Trace (D : Design F) (rule : HintRule F) : List (Instruction F) → (values hints final : List (Scalar F)) →
    List (Instance F) → Prop
  | done (values : List (Scalar F)) : Trace D rule [] values [] values []
  | linear {form : LinearForm F} {out : Wire} {rest : List (Instruction F)} {values hints final : List (Scalar F)}
      {instances : List (Instance F)} (next : out = machineWord values.length)
      (later : Trace D rule rest (values ++ [form.on values]) hints final instances) :
      Trace D rule (.linear form out :: rest) values hints final instances
  | product {lhs rhs : LinearForm F} {out : Wire} {rest : List (Instruction F)}
      {values hints final : List (Scalar F)} {instances : List (Instance F)} (next : out = machineWord values.length)
      (later : Trace D rule rest (values ++ [lhs.on values * rhs.on values]) hints final instances) :
      Trace D rule (.product lhs rhs out :: rest) values hints final instances
  | hint {name : String} {inputs : List (LinearForm F)} {outs : List Wire} {rest : List (Instruction F)}
      {values answers hints final : List (Scalar F)} {instances : List (Instance F)}
      (next : outs = nextWires values.length answers.length)
      (answered : rule name (inputs.map (·.on values)) answers)
      (later : Trace D rule rest (values ++ answers) hints final instances) :
      Trace D rule (.hint name inputs outs :: rest) values (answers ++ hints) final instances
  | call {callee : CircuitId} {c : Circuit F} {inputs : List (LinearForm F)} {outs : List Wire}
      {rest : List (Instruction F)} {values inner innerHints hints final : List (Scalar F)}
      {innerInstances instances : List (Instance F)} (found : D.get? callee = some c)
      (fits : c.numInputs = inputs.length) (next : outs = nextWires values.length c.outputs.length)
      (called : Trace D rule c.instructions (1 :: inputs.map (·.on values)) innerHints inner innerInstances)
      (later : Trace D rule rest (values ++ c.outputs.map (·.on inner)) hints final instances) :
      Trace D rule (.call callee inputs outs :: rest) values (innerHints ++ hints) final
        (⟨callee, inner.toArray⟩ :: innerInstances ++ instances)

/-- Two lists that begin the same list, or a rule that leaves no choice. -/
private def Decided (rule : HintRule F) (hints others : List (Scalar F)) : Prop :=
  rule.Functional ∨ ∃ rest further, hints ++ rest = others ++ further

private theorem decided_first {rule : HintRule F} {first second hints others : List (Scalar F)}
    (decided : Decided rule (first ++ hints) (second ++ others)) : Decided rule first second := by
  rcases decided with functional | ⟨rest, further, same⟩
  · exact .inl functional
  · exact .inr ⟨hints ++ rest, others ++ further, by simpa using same⟩

private theorem decided_rest {rule : HintRule F} {first hints others : List (Scalar F)}
    (decided : Decided rule (first ++ hints) (first ++ others)) : Decided rule hints others := by
  rcases decided with functional | ⟨rest, further, same⟩
  · exact .inl functional
  · exact .inr ⟨rest, further, by simpa using same⟩

private theorem Trace.unique {D : Design F} {rule : HintRule F} {instructions : List (Instruction F)}
    {values hints final : List (Scalar F)} {instances : List (Instance F)}
    (trace : Trace D rule instructions values hints final instances) :
    ∀ {others last : List (Scalar F)} {further : List (Instance F)},
      Trace D rule instructions values others last further → Decided rule hints others →
      hints = others ∧ final = last ∧ instances = further := by
  induction trace with
  | done values =>
    intro others last further other _
    cases other
    exact ⟨rfl, rfl, rfl⟩
  | linear next later ih =>
    intro others last further other decided
    cases other with
    | linear _ later => exact ih later decided
  | product next later ih =>
    intro others last further other decided
    cases other with
    | product _ later => exact ih later decided
  | @hint _ _ _ _ _ answers _ _ _ next answered later ih =>
    intro others last further other decided
    cases other with
    | @hint _ _ _ _ _ replies _ _ _ following replied rest =>
      have sameLength : answers.length = replies.length := by
        simpa using congrArg List.length (next.symm.trans following)
      have same : answers = replies := by
        rcases decided with functional | ⟨left, right, joined⟩
        · exact functional _ _ _ _ answered replied sameLength
        · rw [List.append_assoc, List.append_assoc] at joined
          exact (List.append_inj joined sameLength).1
      subst same
      obtain ⟨rfl, sameFinal, sameInstances⟩ := ih rest (decided_rest decided)
      exact ⟨rfl, sameFinal, sameInstances⟩
  | call found fits next called later calledIh laterIh =>
    intro others last further other decided
    cases other with
    | call found' _ _ called' later' =>
      cases found.symm.trans found'
      obtain ⟨rfl, rfl, rfl⟩ := calledIh called' (decided_first decided)
      obtain ⟨rfl, rfl, rfl⟩ := laterIh later' (decided_rest decided)
      exact ⟨rfl, rfl, rfl⟩

/-- Where the rule leaves no choice, instructions have one trace. -/
theorem Trace.eq_of_functional {D : Design F} {rule : HintRule F} (functional : rule.Functional)
    {instructions : List (Instruction F)} {values hints final others last : List (Scalar F)}
    {instances further : List (Instance F)} (trace : Trace D rule instructions values hints final instances)
    (other : Trace D rule instructions values others last further) :
    hints = others ∧ final = last ∧ instances = further :=
  trace.unique other (.inl functional)

/-- All instances of a run of a circuit, each before those of its calls, and the outputs. -/
structure Execution (F : ScalarField) where
  instances : List (Instance F)
  outputs : List (Scalar F)
deriving DecidableEq

/-- The circuit of an id runs on inputs, taking the listed hint outputs. -/
def Executes (D : Design F) (rule : HintRule F) (id : CircuitId) (inputs hints : List (Scalar F))
    (R : Execution F) : Prop :=
  ∃ c final instances, D.get? id = some c ∧ c.numInputs = inputs.length ∧
    Trace D rule c.instructions (1 :: inputs) hints final instances ∧
    R = ⟨⟨id, final.toArray⟩ :: instances, c.outputs.map (·.on final)⟩

/-- The constraints of an instance evaluate to zero. -/
def Instance.Satisfied (D : Design F) (inst : Instance F) : Prop :=
  ∀ c, D.get? inst.circuit = some c → ∀ e ∈ c.constraints, e.on inst.values.toList = 0

/-- Every constraint of every instance evaluates to zero. -/
def Execution.Satisfied (D : Design F) (R : Execution F) : Prop := ∀ inst ∈ R.instances, inst.Satisfied D

/-- A trace gives a value to every wire that its instructions define. -/
theorem Trace.length_eq {D : Design F} {rule : HintRule F} {instructions : List (Instruction F)}
    {values hints final : List (Scalar F)} {instances : List (Instance F)}
    (trace : Trace D rule instructions values hints final instances) :
    final.length = values.length + sumOver (·.outputs.length) instructions := by
  induction trace with
  | done values => rfl
  | linear _ _ ih => simp [ih, Instruction.outputs, Nat.add_assoc]
  | product _ _ ih => simp [ih, Instruction.outputs, Nat.add_assoc]
  | hint next _ _ ih => simp [ih, Instruction.outputs, next, Nat.add_assoc]
  | call _ _ next _ _ _ ih => simp [ih, Instruction.outputs, next, Nat.add_assoc]

/-- Running a circuit on its inputs gives a value to every wire. -/
theorem Trace.length_eq_wireCount {D : Design F} {rule : HintRule F} {c : Circuit F}
    {inputs hints final : List (Scalar F)} {instances : List (Instance F)}
    (trace : Trace D rule c.instructions (1 :: inputs) hints final instances) (arity : c.numInputs = inputs.length) :
    final.length = c.wireCount := by
  rw [trace.length_eq, Circuit.wireCount, List.length_cons, arity, Nat.add_comm 1]

/-- How many hint outputs are taken depends on the instructions alone. -/
theorem Trace.length_hints_eq {D : Design F} {rule other : HintRule F} {instructions : List (Instruction F)}
    {values hints final : List (Scalar F)} {instances : List (Instance F)}
    (trace : Trace D rule instructions values hints final instances) :
    ∀ {values' hints' final' : List (Scalar F)} {instances' : List (Instance F)},
      Trace D other instructions values' hints' final' instances' → values.length = values'.length →
      hints.length = hints'.length := by
  induction trace with
  | done values =>
    intro values' hints' final' instances' second _
    cases second
    rfl
  | linear _ _ ih =>
    intro values' hints' final' instances' second same
    cases second with
    | linear _ later => exact ih later (by simp [same])
  | product _ _ ih =>
    intro values' hints' final' instances' second same
    cases second with
    | product _ later => exact ih later (by simp [same])
  | hint next _ _ ih =>
    intro values' hints' final' instances' second same
    cases second with
    | hint next' _ later =>
      have answers := congrArg List.length (next.symm.trans next')
      rw [length_nextWires, length_nextWires] at answers
      rw [List.length_append, List.length_append, answers, ih later (by simp [same, answers])]
  | call found _ _ _ _ calledIh laterIh =>
    intro values' hints' final' instances' second same
    cases second with
    | call found' _ _ called' later' =>
      cases found.symm.trans found'
      rw [List.length_append, List.length_append, calledIh called' (by simp), laterIh later' (by simp [same])]

/-- A trace stays one where hints may give more. -/
theorem Trace.mono {D : Design F} {rule wider : HintRule F} (wide : ∀ {name inputs outputs}, rule name inputs outputs →
    wider name inputs outputs) {instructions : List (Instruction F)} {values hints final : List (Scalar F)}
    {instances : List (Instance F)} (trace : Trace D rule instructions values hints final instances) :
    Trace D wider instructions values hints final instances := by
  induction trace with
  | done values => exact .done values
  | linear next _ ih => exact .linear next ih
  | product next _ ih => exact .product next ih
  | hint next answered _ ih => exact .hint next (wide answered) ih
  | call found fits next _ _ calledIh laterIh => exact .call found fits next calledIh laterIh

/-- The circuits that are run are circuits of the design, and all their wires have values. -/
theorem Trace.filled {D : Design F} {rule : HintRule F} {instructions : List (Instruction F)}
    {values hints final : List (Scalar F)} {instances : List (Instance F)}
    (trace : Trace D rule instructions values hints final instances) :
    ∀ inst ∈ instances, ∃ c, D.get? inst.circuit = some c ∧ inst.values.size = c.wireCount := by
  induction trace with
  | done values => exact List.forall_mem_nil _
  | linear _ _ ih => exact ih
  | product _ _ ih => exact ih
  | hint _ _ _ ih => exact ih
  | @call _ c _ _ _ _ _ _ _ _ _ _ found fits _ called _ calledIh laterIh =>
    refine List.forall_mem_append.mpr ⟨List.forall_mem_cons.mpr ⟨⟨c, found, ?_⟩, calledIh⟩, laterIh⟩
    exact called.length_eq_wireCount (by rw [List.length_map, fits])

namespace Executes
variable {D : Design F} {rule other : HintRule F} {id : CircuitId} {inputs hints : List (Scalar F)} {R : Execution F}

theorem mono (executes : Executes D rule id inputs hints R)
    (wide : ∀ {name inputs outputs}, rule name inputs outputs → other name inputs outputs) :
    Executes D other id inputs hints R := by
  obtain ⟨c, final, instances, found, arity, trace, same⟩ := executes
  exact ⟨c, final, instances, found, arity, trace.mono wide, same⟩

theorem filled (executes : Executes D rule id inputs hints R) :
    ∀ inst ∈ R.instances, ∃ c, D.get? inst.circuit = some c ∧ inst.values.size = c.wireCount := by
  obtain ⟨c, final, instances, found, arity, trace, rfl⟩ := executes
  exact List.forall_mem_cons.mpr ⟨⟨c, found, trace.length_eq_wireCount arity⟩, trace.filled⟩

theorem known (executes : Executes D rule id inputs hints R) :
    ∀ inst ∈ R.instances, ∃ c, D.get? inst.circuit = some c :=
  fun inst member => (executes.filled inst member).imp fun _ => And.left

/-- A circuit takes the same numbers of inputs and of hint outputs in every execution. -/
theorem lengths_eq {inputs' hints' : List (Scalar F)} {S : Execution F} (first : Executes D rule id inputs hints R)
    (second : Executes D other id inputs' hints' S) : inputs.length = inputs'.length ∧ hints.length = hints'.length := by
  obtain ⟨c, _, _, found, arity, trace, _⟩ := first
  obtain ⟨c', _, _, found', arity', trace', _⟩ := second
  cases found.symm.trans found'
  have same : inputs.length = inputs'.length := arity.symm.trans arity'
  exact ⟨same, trace.length_hints_eq trace' (by simp [same])⟩

end Executes

private theorem Executes.unique {D : Design F} {rule : HintRule F} {id : CircuitId}
    {inputs hints others : List (Scalar F)} {R S : Execution F} (first : Executes D rule id inputs hints R)
    (second : Executes D rule id inputs others S) (decided : Decided rule hints others) :
    hints = others ∧ R = S := by
  obtain ⟨c, final, instances, found, _, trace, rfl⟩ := first
  obtain ⟨c', last, further, found', _, other, rfl⟩ := second
  cases found.symm.trans found'
  obtain ⟨sameHints, rfl, rfl⟩ := trace.unique other decided
  exact ⟨sameHints, rfl⟩

/-- Inputs and hint outputs fix the execution. -/
theorem Executes.eq_of_hints {D : Design F} {rule : HintRule F} {id : CircuitId}
    {inputs hints : List (Scalar F)} {R S : Execution F} (first : Executes D rule id inputs hints R)
    (second : Executes D rule id inputs hints S) : R = S :=
  (first.unique second (.inr ⟨[], [], rfl⟩)).2

/-- Where the rule leaves no choice, inputs fix the hint outputs and the execution. -/
theorem Executes.eq_of_functional {D : Design F} {rule : HintRule F} (functional : rule.Functional)
    {id : CircuitId} {inputs hints others : List (Scalar F)} {R S : Execution F}
    (first : Executes D rule id inputs hints R) (second : Executes D rule id inputs others S) :
    hints = others ∧ R = S :=
  first.unique second (.inl functional)

end ArithCircuit
