import ArithCircuit.Proofs.Circuit.Validity
import ArithCircuit.Proofs.Execution.Trace

/-!
What interpretations have in common. A reading says which field element each value of an
interpretation stands for, state by state, and asks of each operation only that it keep to that.
Running a checked design under an interpretation then follows the meaning of the design: either the
run ends well and stands for an execution, or a hint fails and there is no execution.
-/
namespace ArithCircuit

namespace CallTree
variable {V : Type}

mutual

private theorem preorderOnto_eq (tail : List (CircuitId × Array V)) :
    (tree : CallTree V) → preorderOnto tail tree = preorderOnto [] tree ++ tail
  | node circuit values calls => by
    rw [preorderOnto, preorderOnto, preorderAllOnto_eq tail calls, List.cons_append]

private theorem preorderAllOnto_eq (tail : List (CircuitId × Array V)) :
    (trees : List (CallTree V)) → preorderAllOnto tail trees = preorderAllOnto [] trees ++ tail
  | [] => rfl
  | tree :: rest => by
    rw [preorderAllOnto, preorderAllOnto, preorderOnto_eq (preorderAllOnto tail rest),
      preorderOnto_eq (preorderAllOnto [] rest), preorderAllOnto_eq tail rest, List.append_assoc]

end

theorem preorder_node (circuit : CircuitId) (values : Array V) (calls : List (CallTree V)) :
    (node circuit values calls).preorder = (circuit, values) :: calls.flatMap preorder := by
  have all : preorderAllOnto [] calls = calls.flatMap preorder := by
    induction calls with
    | nil => rfl
    | cons tree rest ih => rw [preorderAllOnto, preorderOnto_eq, ih, List.flatMap_cons, preorder]
  rw [preorder, preorderOnto, all]

end CallTree

variable {F : ScalarField} {V S : Type}

/-- What the values and states of an interpretation stand for. -/
structure Reading (I : Interp F V S) (rule : HintRule F) where
  /-- The states that occur. -/
  good : S → Prop
  /-- In a state, a value stands for a field element. -/
  means : S → V → Scalar F → Prop
  /-- One state leads to another, taking hint outputs and demanding that something holds. -/
  step : S → S → List (Scalar F) → Prop → Prop
  /-- The hints that can be run. -/
  known : String → Prop
  /-- The errors of hints. -/
  fails : Error → Prop
  refl {s : S} : good s → step s s [] True
  trans {s t u : S} {hints more : List (Scalar F)} {P Q : Prop} :
    step s t hints P → step t u more Q → step s u (hints ++ more) (P ∧ Q)
  good_of_step {s t : S} {hints : List (Scalar F)} {P : Prop} : step s t hints P → good t
  mono {s t : S} {hints : List (Scalar F)} {P : Prop} {v : V} {x : Scalar F} :
    step s t hints P → means s v x → means t v x
  one {s : S} : good s → means s I.one 1
  form (site : Site) (form : LinearForm F) {values : Array V} {xs : List (Scalar F)} {s : S} : good s →
    List.Forall₂ (means s) values.toList xs →
    ∃ v t, I.form site form values s = .ok (v, t) ∧ step s t [] True ∧ means t v (form.on xs)
  product {a b : V} {x y : Scalar F} {s : S} : good s → means s a x → means s b y →
    step s (I.product a b s).2 [] True ∧ means (I.product a b s).2 (I.product a b s).1 (x * y)
  hint {name : String} (inputs : List (LinearForm F)) (count : Nat) {values : Array V} {xs : List (Scalar F)}
    {s : S} : good s → known name → List.Forall₂ (means s) values.toList xs →
    (∃ vs t ys, I.hint name inputs count values s = .ok (vs, t) ∧ ys.length = count ∧
      rule name (inputs.map (·.on xs)) ys ∧ step s t ys True ∧ List.Forall₂ (means t) vs ys) ∨
    ∃ e, I.hint name inputs count values s = .error e ∧ fails e ∧
      ∀ ys, ys.length = count → ¬ rule name (inputs.map (·.on xs)) ys
  constrain (site : Site) (form : LinearForm F) {values : Array V} {xs : List (Scalar F)} {s : S} : good s →
    List.Forall₂ (means s) values.toList xs →
    ∃ t, I.constrain site form values s = .ok t ∧ step s t [] (form.on xs = 0)
  /-- Only hints without a choice can fail. -/
  functional {e : Error} : fails e → rule.Functional

namespace Interp

theorem checkDefined_eq_ok {site : Site} {form : LinearForm F} {defined : Nat}
    (readable : form.Readable (machineWord defined)) : checkDefined site form defined = .ok () := by
  rw [checkDefined, readable.2]

theorem checkAllDefined_eq_ok {site : Site} {defined : Nat} {forms : List (LinearForm F)}
    (readable : ∀ form ∈ forms, form.Readable (machineWord defined)) : checkAllDefined site defined forms = .ok () := by
  induction forms with
  | nil => rfl
  | cons form rest ih =>
    obtain ⟨first, later⟩ := List.forall_mem_cons.mp readable
    rw [checkAllDefined, checkDefined_eq_ok first, ok_bind, ih later]

theorem defineWires_eq_ok {site : Site} {outs : List Wire} {vs : List V} {values : Array V}
    (next : outs = nextWires values.size vs.length) :
    defineWires site outs vs values = .ok (values ++ vs) := by
  induction vs generalizing outs values with
  | nil =>
    rw [next]
    rfl
  | cons v rest ih =>
    rw [List.length_cons, nextWires_succ] at next
    rw [next, defineWires, defineWire, if_pos rfl, ok_bind, ih (by rw [Array.size_push])]
    simp

end Interp

namespace Reading
variable {I : Interp F V S} {rule : HintRule F} (M : Reading I rule)

/-- A run of a circuit stands for an instance. -/
def Matches (s : S) (run : CircuitId × Array V) (inst : Instance F) : Prop :=
  run.1 = inst.circuit ∧ List.Forall₂ (M.means s) run.2.toList inst.values.toList

/-- A run of the circuit of an id stands for an execution, or a hint fails and there is none. -/
def Follows (D : Design F) (id : CircuitId) (xs : List (Scalar F)) (s : S) (outcome : Except Error (Run V S)) :
    Prop :=
  (∃ result hints R, outcome = .ok result ∧ Executes D rule id xs hints R ∧
    M.step s result.state hints (R.Satisfied D) ∧
    List.Forall₂ (M.means result.state) result.outputs R.outputs ∧
    List.Forall₂ (M.Matches result.state) result.tree.preorder R.instances) ∨
  ∃ e, outcome = .error e ∧ M.fails e ∧ ∀ hints R, ¬ Executes D rule id xs hints R

/-- Running instructions stands for a trace, or a hint fails and there is no trace. -/
def Proceeds (D : Design F) (instructions : List (Instruction F)) (xs : List (Scalar F)) (s : S)
    (calls : Array (CallTree V)) (outcome : Except Error (Array V × Array (CallTree V) × S)) : Prop :=
  (∃ values trees t hints final instances, outcome = .ok (values, calls ++ trees, t) ∧
    Trace D rule instructions xs hints final instances ∧
    M.step s t hints (∀ inst ∈ instances, inst.Satisfied D) ∧
    List.Forall₂ (M.means t) values.toList final ∧
    List.Forall₂ (M.Matches t) (trees.toList.flatMap CallTree.preorder) instances) ∨
  ∃ e, outcome = .error e ∧ M.fails e ∧ ∀ hints final instances, ¬ Trace D rule instructions xs hints final instances

section
variable {M}

theorem step_congr {s t : S} {hints : List (Scalar F)} {P Q : Prop} (step : M.step s t hints P)
    (same : P ↔ Q) : M.step s t hints Q :=
  propext same ▸ step

/-- A step that takes no hint outputs and demands nothing can follow. -/
theorem step_silent {s t u : S} {hints : List (Scalar F)} {P : Prop} (step : M.step s t hints P)
    (silent : M.step t u [] True) : M.step s u hints P := by
  have joined := M.trans step silent
  rw [List.append_nil] at joined
  exact step_congr joined (and_iff_left trivial)

/-- A step that takes no hint outputs and demands nothing can come first. -/
theorem silent_step {s t u : S} {hints : List (Scalar F)} {P : Prop} (silent : M.step s t [] True)
    (step : M.step t u hints P) : M.step s u hints P :=
  step_congr (M.trans silent step) (and_iff_right trivial)

theorem forall₂_mono {s t : S} {hints : List (Scalar F)} {P : Prop} (step : M.step s t hints P) {vs : List V}
    {xs : List (Scalar F)} (mean : List.Forall₂ (M.means s) vs xs) : List.Forall₂ (M.means t) vs xs :=
  mean.imp fun _ _ => M.mono step

theorem matches_mono {s t : S} {hints : List (Scalar F)} {P : Prop} (step : M.step s t hints P)
    {runs : List (CircuitId × Array V)} {instances : List (Instance F)}
    (matching : List.Forall₂ (M.Matches s) runs instances) : List.Forall₂ (M.Matches t) runs instances :=
  matching.imp fun _ _ both => ⟨both.1, forall₂_mono step both.2⟩

theorem forall₂_push {s : S} {values : Array V} {xs : List (Scalar F)} {v : V} {x : Scalar F}
    (mean : List.Forall₂ (M.means s) values.toList xs) (last : M.means s v x) :
    List.Forall₂ (M.means s) (values.push v).toList (xs ++ [x]) := by
  rw [Array.toList_push]
  exact List.rel_append mean (.cons last .nil)

theorem read_spec (site : Site) {form : LinearForm F} {values : Array V} {xs : List (Scalar F)} {s : S}
    (good : M.good s) (mean : List.Forall₂ (M.means s) values.toList xs) (readable : form.Readable (machineWord values.size)) :
    ∃ v t, I.read site form values s = .ok (v, t) ∧ M.step s t [] True ∧ M.means t v (form.on xs) := by
  rw [Interp.read, Interp.checkDefined_eq_ok readable, ok_bind]
  exact M.form site form good mean

theorem readAll_spec (site : Nat → Site) {forms : List (LinearForm F)} {values : Array V}
    {xs : List (Scalar F)} {i : Nat} {s : S} (good : M.good s)
    (mean : List.Forall₂ (M.means s) values.toList xs) (readable : ∀ form ∈ forms, form.Readable (machineWord values.size)) :
    ∃ vs t, I.readAll site values i forms s = .ok (vs, t) ∧ M.step s t [] True ∧
      List.Forall₂ (M.means t) vs (forms.map (·.on xs)) := by
  induction forms generalizing i s with
  | nil => exact ⟨[], s, rfl, M.refl good, .nil⟩
  | cons form rest ih =>
    obtain ⟨first, later⟩ := List.forall_mem_cons.mp readable
    obtain ⟨v, t, reading, step, value⟩ := read_spec (site i) good mean first
    obtain ⟨vs, u, readingRest, stepRest, valuesRest⟩ :=
      ih (i := i + 1) (M.good_of_step step) (forall₂_mono step mean) later
    refine ⟨v :: vs, u, ?_, silent_step step stepRest, .cons (M.mono stepRest value) valuesRest⟩
    rw [Interp.readAll, reading, ok_bind]
    dsimp only
    rw [readingRest]
    rfl

theorem readFactors_spec (site : Site) {lhs rhs : LinearForm F} {values : Array V} {xs : List (Scalar F)} {s : S}
    (good : M.good s) (mean : List.Forall₂ (M.means s) values.toList xs) (left : lhs.Readable (machineWord values.size))
    (right : rhs.Readable (machineWord values.size)) :
    ∃ a b t, I.readFactors site lhs rhs values s = .ok ((a, b), t) ∧ M.step s t [] True ∧
      M.means t a (lhs.on xs) ∧ M.means t b (rhs.on xs) := by
  obtain ⟨a, t, reading, step, value⟩ := read_spec site good mean left
  rw [Interp.readFactors, reading, ok_bind]
  dsimp only
  by_cases same : rhs = lhs
  · rw [if_pos same, same]
    exact ⟨a, a, t, rfl, step, value, value⟩
  · obtain ⟨b, u, readingRight, stepRight, valueRight⟩ :=
      read_spec site (M.good_of_step step) (forall₂_mono step mean) right
    rw [if_neg same, readingRight]
    exact ⟨a, b, u, rfl, silent_step step stepRight, M.mono stepRight value, valueRight⟩

theorem constrainAll_spec (circuit : CircuitId) {forms : List (LinearForm F)} {values : Array V}
    {xs : List (Scalar F)} {i : Nat} {s : S} (good : M.good s)
    (mean : List.Forall₂ (M.means s) values.toList xs) (readable : ∀ form ∈ forms, form.Readable (machineWord values.size)) :
    ∃ t, I.constrainAll circuit values i forms s = .ok t ∧ M.step s t [] (∀ form ∈ forms, form.on xs = 0) := by
  induction forms generalizing i s with
  | nil => exact ⟨s, rfl, step_congr (M.refl good) (by simp)⟩
  | cons form rest ih =>
    obtain ⟨first, later⟩ := List.forall_mem_cons.mp readable
    obtain ⟨t, constraining, step⟩ := M.constrain ⟨circuit, .constraint i⟩ form good mean
    obtain ⟨u, constrainingRest, stepRest⟩ := ih (i := i + 1) (M.good_of_step step) (forall₂_mono step mean) later
    refine ⟨u, ?_, step_congr (M.trans step stepRest) (by rw [List.forall_mem_cons])⟩
    rw [Interp.constrainAll, Interp.checkDefined_eq_ok first, ok_bind, constraining, ok_bind, constrainingRest]

/-! ### Instructions -/

variable {D : Design F} {run : CircuitId → List V → S → Except Error (Run V S)} {circuit : CircuitId} {i : Nat}
  {rest : List (Instruction F)} {values : Array V} {xs : List (Scalar F)} {s : S} {calls : Array (CallTree V)}

theorem size_eq_length (mean : List.Forall₂ (M.means s) values.toList xs) : values.size = xs.length := by
  rw [← Array.length_toList, mean.length_eq]

/-- A value on a new wire, after which the rest follows. -/
private theorem proceeds_value {instruction : Instruction F} {t : S} {x : Scalar F}
    {outcome : Except Error (Array V × Array (CallTree V) × S)} (silent : M.step s t [] True)
    (traced : ∀ hints final instances, Trace D rule (instruction :: rest) xs hints final instances ↔
      Trace D rule rest (xs ++ [x]) hints final instances)
    (later : M.Proceeds D rest (xs ++ [x]) t calls outcome) :
    M.Proceeds D (instruction :: rest) xs s calls outcome := by
  rcases later with ⟨values, trees, u, hints, final, instances, done, trace, step, mean, matching⟩ | ⟨e, failed, fails, none⟩
  · exact .inl ⟨values, trees, u, hints, final, instances, done, (traced _ _ _).mpr trace, silent_step silent step,
      mean, matching⟩
  · exact .inr ⟨e, failed, fails, fun hints final instances trace => none _ _ _ ((traced _ _ _).mp trace)⟩

private theorem linear_traced {form : LinearForm F} {out : Wire} (next : out = machineWord xs.length)
    (hints final : List (Scalar F)) (instances : List (Instance F)) :
    Trace D rule (.linear form out :: rest) xs hints final instances ↔
      Trace D rule rest (xs ++ [form.on xs]) hints final instances := by
  constructor
  · intro trace
    cases trace with
    | linear _ later => exact later
  · exact .linear next

private theorem product_traced {lhs rhs : LinearForm F} {out : Wire} (next : out = machineWord xs.length)
    (hints final : List (Scalar F)) (instances : List (Instance F)) :
    Trace D rule (.product lhs rhs out :: rest) xs hints final instances ↔
      Trace D rule rest (xs ++ [lhs.on xs * rhs.on xs]) hints final instances := by
  constructor
  · intro trace
    cases trace with
    | product _ later => exact later
  · exact .product next

/-- Hint outputs on new wires, after which the rest follows. -/
private theorem proceeds_hint {name : String} {inputs : List (LinearForm F)} {outs : List Wire}
    {answers : List (Scalar F)} {t : S} {outcome : Except Error (Array V × Array (CallTree V) × S)}
    (next : outs = nextWires xs.length answers.length) (answered : rule name (inputs.map (·.on xs)) answers)
    (taken : M.step s t answers True) (later : M.Proceeds D rest (xs ++ answers) t calls outcome) :
    M.Proceeds D (.hint name inputs outs :: rest) xs s calls outcome := by
  rcases later with ⟨values, trees, u, hints, final, instances, done, trace, step, mean, matching⟩ | ⟨e, failed, fails, none⟩
  · exact .inl ⟨values, trees, u, answers ++ hints, final, instances, done, .hint next answered trace,
      step_congr (M.trans taken step) (and_iff_right trivial), mean, matching⟩
  · refine .inr ⟨e, failed, fails, fun hints final instances trace => ?_⟩
    cases trace with
    | @hint _ _ _ _ _ others _ _ _ following replied trace =>
      have sameLength : answers.length = others.length := by
        simpa using congrArg List.length (next.symm.trans following)
      have same : answers = others := M.functional fails _ _ _ _ answered replied sameLength
      subst same
      exact none _ _ _ trace

/-- A call that ended well, after which the rest follows. -/
private theorem proceeds_call {callee : CircuitId} {c : Circuit F} {inputs : List (LinearForm F)} {outs : List Wire}
    {t : S} {result : Run V S} {hints : List (Scalar F)} {R : Execution F}
    {outcome : Except Error (Array V × Array (CallTree V) × S)} (found : D.get? callee = some c)
    (fits : c.numInputs = inputs.length) (next : outs = nextWires xs.length c.outputs.length)
    (silent : M.step s t [] True) (executed : Executes D rule callee (inputs.map (·.on xs)) hints R)
    (stepped : M.step t result.state hints (R.Satisfied D))
    (matched : List.Forall₂ (M.Matches result.state) result.tree.preorder R.instances)
    (later : M.Proceeds D rest (xs ++ R.outputs) result.state (calls.push result.tree) outcome) :
    M.Proceeds D (.call callee inputs outs :: rest) xs s calls outcome := by
  obtain ⟨c', inner, innerInstances, found', _, called, rfl⟩ := executed
  cases found.symm.trans found'
  rcases later with ⟨values, trees, u, more, final, instances, done, trace, step, mean, matching⟩ | ⟨e, failed, fails, none⟩
  · refine .inl ⟨values, #[result.tree] ++ trees, u, hints ++ more, final, _, ?_,
      .call found fits next called trace, ?_, mean, ?_⟩
    · rw [done, Array.push_eq_append, Array.append_assoc]
    · refine step_congr (M.trans (silent_step silent stepped) step) ?_
      rw [Execution.Satisfied, List.forall_mem_append]
    · have trees_eq : (#[result.tree] ++ trees).toList.flatMap CallTree.preorder =
          result.tree.preorder ++ trees.toList.flatMap CallTree.preorder := by simp
      rw [trees_eq]
      exact List.rel_append (matches_mono step matched) matching
  · refine .inr ⟨e, failed, fails, fun hints final instances trace => ?_⟩
    cases trace with
    | call found' _ _ called' trace =>
      cases found.symm.trans found'
      obtain ⟨_, rfl, _⟩ := called.eq_of_functional (M.functional fails) called'
      exact none _ _ _ trace

/-- Whenever the circuit of an id is run on values, the run follows its meaning. -/
def Runs (M : Reading I rule) (D : Design F) (run : CircuitId → List V → S → Except Error (Run V S)) (id : CircuitId) :
    Prop :=
  ∀ {c args ys s}, D.get? id = some c → M.good s → List.Forall₂ (M.means s) args ys → c.numInputs = ys.length →
    M.Follows D id ys s (run id args s)

/-- Running instructions of a checked design follows their meaning, if running callees does. -/
theorem execute_proceeds {instructions : List (Instruction F)} (callees : Design.CallsIn (M.Runs D run) instructions)
    (known : ∀ instruction ∈ instructions, ∀ name, instruction.hintName? = some name → M.known name)
    (sequenced : Sequenced D values.size instructions) (good : M.good s)
    (mean : List.Forall₂ (M.means s) values.toList xs) :
    M.Proceeds D instructions xs s calls (I.execute D run circuit i instructions values calls s) := by
  induction instructions generalizing i values xs s calls with
  | nil =>
    refine .inl ⟨values, #[], s, [], xs, [], ?_, .done xs, step_congr (M.refl good) (by simp), mean, .nil⟩
    rw [Interp.execute, Array.append_empty]
  | cons instruction rest ih =>
    obtain ⟨runsCallee, laterCallees⟩ := List.forall_mem_cons.mp callees
    obtain ⟨knownFirst, laterKnown⟩ := List.forall_mem_cons.mp known
    obtain ⟨readable, fits, next, laterSequenced⟩ := sequenced
    cases instruction with
    | linear form out =>
      obtain ⟨v, t, reading, step, value⟩ := read_spec ⟨circuit, .instruction i⟩ good mean
        (readable form (List.mem_singleton_self _))
      have position : out = machineWord values.size := by simpa [Instruction.outputs] using next
      simp only [Interp.execute, reading, ok_bind, Interp.defineWire, if_pos position]
      refine proceeds_value step (linear_traced (position.trans (by rw [size_eq_length mean])))
        (ih laterCallees laterKnown ?_ (M.good_of_step step) (forall₂_push (forall₂_mono step mean) value))
      rwa [Array.size_push]
    | product lhs rhs out =>
      obtain ⟨a, b, t, reading, step, left, right⟩ := readFactors_spec ⟨circuit, .instruction i⟩ good mean
        (readable lhs (by simp [Instruction.inputs])) (readable rhs (by simp [Instruction.inputs]))
      obtain ⟨multiplied, value⟩ := M.product (M.good_of_step step) left right
      have position : out = machineWord values.size := by simpa [Instruction.outputs] using next
      have silent := silent_step step multiplied
      simp only [Interp.execute, reading, ok_bind, Interp.defineWire, if_pos position]
      refine proceeds_value silent (product_traced (position.trans (by rw [size_eq_length mean])))
        (ih laterCallees laterKnown ?_ (M.good_of_step silent) (forall₂_push (forall₂_mono silent mean) value))
      rwa [Array.size_push]
    | hint name inputs outs =>
      have readable : ∀ form ∈ inputs, form.Readable (machineWord values.size) := readable
      simp only [Interp.execute, Interp.checkAllDefined_eq_ok readable, ok_bind]
      rcases M.hint inputs outs.length good (knownFirst name rfl) mean with
        ⟨vs, t, ys, answering, count, answered, step, new⟩ | ⟨e, failing, fails, none⟩
      · have sameLength : vs.length = outs.length := new.length_eq.trans count
        have wires : outs = nextWires values.size vs.length := by
          rw [sameLength]
          exact next
        simp only [answering, ok_bind, Interp.defineWires_eq_ok wires]
        refine proceeds_hint ?_ answered step (ih laterCallees laterKnown ?_ (M.good_of_step step) ?_)
        · rw [← size_eq_length mean, ← new.length_eq]
          exact wires
        · rw [size_appendList, sameLength]
          exact laterSequenced
        · rw [Array.toList_appendList]
          exact List.rel_append (forall₂_mono step mean) new
      · simp only [failing, error_bind]
        refine .inr ⟨e, rfl, fails, fun hints final instances trace => ?_⟩
        cases trace with
        | @hint _ _ _ _ _ answers _ _ _ following answered _ =>
          exact none answers (by simpa using (congrArg List.length following).symm) answered
    | call callee inputs outs =>
      have readable : ∀ form ∈ inputs, form.Readable (machineWord values.size) := readable
      obtain ⟨c, found, numInputs, numOutputs⟩ := fits
      obtain ⟨args, t, reading, step, argValues⟩ :=
        readAll_spec (i := 0) (fun _ => ⟨circuit, .instruction i⟩) good mean readable
      have arity : c.numInputs = args.length := by rw [argValues.length_eq, List.length_map, numInputs]
      simp only [Interp.execute, reading, ok_bind, mapError_eq_ok.mpr (Design.circuit_eq_ok_iff.mpr found),
        if_pos (And.intro arity numOutputs)]
      have following := runsCallee callee rfl found (M.good_of_step step) argValues
        (by rw [List.length_map, numInputs])
      rcases following with ⟨result, hints, R, running, executed, stepped, outputs, matched⟩ | ⟨e, failing, fails, none⟩
      · have length : result.outputs.length = outs.length := by
          obtain ⟨c', _, _, found', _, _, rfl⟩ := executed
          cases found.symm.trans found'
          rw [outputs.length_eq, List.length_map, numOutputs]
        have wires : outs = nextWires values.size result.outputs.length := by
          rw [length]
          exact next
        simp only [running, ok_bind, Interp.defineWires_eq_ok wires]
        refine proceeds_call found numInputs ?_ step executed stepped matched
          (ih laterCallees laterKnown ?_ (M.good_of_step stepped) ?_)
        · rw [← size_eq_length mean, numOutputs]
          exact next
        · rw [size_appendList, length]
          exact laterSequenced
        · rw [Array.toList_appendList]
          exact List.rel_append (forall₂_mono stepped (forall₂_mono step mean)) outputs
      · simp only [failing, error_bind]
        refine .inr ⟨e, rfl, fails, fun hints final instances trace => ?_⟩
        cases trace with
        | call found' _ _ called _ =>
          cases found.symm.trans found'
          exact none _ _ ⟨c, _, _, found, by rw [List.length_map, numInputs], called, rfl⟩

/-- A circuit starts from one and its inputs. -/
theorem forall₂_start {args : List V} {ys : List (Scalar F)} (good : M.good s)
    (mean : List.Forall₂ (M.means s) args ys) : List.Forall₂ (M.means s) (#[I.one] ++ args).toList (1 :: ys) := by
  simpa using And.intro (M.one good) mean

theorem sequenced_start {c : Circuit F} (wellFormed : c.WellFormed D) {args : List V} {ys : List (Scalar F)}
    (mean : List.Forall₂ (M.means s) args ys) (arity : c.numInputs = ys.length) :
    Sequenced D (#[I.one] ++ args).size c.instructions := by
  have size : (#[I.one] ++ args).size = 1 + c.numInputs := by
    rw [size_appendList, mean.length_eq, arity]
    rfl
  rw [size]
  exact wellFormed.instructions

/-- Running one circuit of a checked design follows its meaning, if running callees does. -/
theorem runCircuit_follows {id : CircuitId} {c : Circuit F} {args : List V} {ys : List (Scalar F)}
    (found : D.get? id = some c) (wellFormed : c.WellFormed D)
    (callees : Design.CallsIn (M.Runs D run) c.instructions)
    (known : ∀ instruction ∈ c.instructions, ∀ name, instruction.hintName? = some name → M.known name)
    (good : M.good s) (mean : List.Forall₂ (M.means s) args ys) (arity : c.numInputs = ys.length) :
    M.Follows D id ys s (I.runCircuit D run id c args s) := by
  have executed : M.Proceeds D c.instructions (1 :: ys) s #[]
      (I.execute D run id 0 c.instructions (#[I.one] ++ args) #[] s) :=
    execute_proceeds callees known (sequenced_start wellFormed mean arity) good (forall₂_start good mean)
  rcases executed with ⟨values, trees, t, hints, final, instances, done, trace, step, mean', matching⟩ | ⟨e, failed, fails, none⟩
  · have readable : values.size = c.wireCount := by
      rw [size_eq_length mean', trace.length_eq_wireCount arity]
    obtain ⟨u, constraining, constrained⟩ := constrainAll_spec id (i := 0) (M.good_of_step step) mean'
      (fun form member => readable ▸ wellFormed.constraints form member)
    obtain ⟨outputs, v, reading, silent, outputValues⟩ := readAll_spec (i := 0) (fun i => ⟨id, .output i⟩)
      (M.good_of_step constrained) (forall₂_mono constrained mean')
      (fun form member => readable ▸ wellFormed.outputs form member)
    have whole := step_silent (M.trans step constrained) silent
    rw [List.append_nil] at whole
    refine .inl ⟨⟨.node id values trees.toList, outputs, v⟩, hints, _, ?_,
      ⟨c, final, instances, found, arity, trace, rfl⟩, step_congr whole ?_, outputValues, ?_⟩
    · rw [Interp.runCircuit, done, ok_bind]
      dsimp only
      rw [constraining, ok_bind, reading, ok_bind, Array.empty_append]
      rfl
    · rw [Execution.Satisfied, List.forall_mem_cons, And.comm]
      refine and_congr_left fun _ => ?_
      constructor
      · intro all c' found'
        cases found.symm.trans found'
        exact all
      · exact fun own => own c found
    · rw [CallTree.preorder_node]
      exact .cons ⟨rfl, forall₂_mono silent (forall₂_mono constrained mean')⟩
        (matches_mono silent (matches_mono constrained matching))
  · refine .inr ⟨e, ?_, fails, ?_⟩
    · rw [Interp.runCircuit, failed, error_bind]
    · rintro hints R ⟨c', final, instances, found', _, trace, _⟩
      cases found.symm.trans found'
      exact none _ _ _ trace

end

/-- Running a checked design follows its meaning. -/
theorem run_follows {D : Design F} (valid : D.Valid)
    (known : ∀ {id c}, D.get? id = some c → ∀ instruction ∈ c.instructions, ∀ name,
      instruction.hintName? = some name → M.known name) {depth : Nat} (deep : D.size ≤ depth) (id : CircuitId) :
    M.Runs D (I.run D depth) id := by
  refine valid.depth_induction (P := fun depth id => M.Runs D (I.run D depth) id) ?_ deep id
  intro depth id callees c args ys s found good mean arity
  rw [Interp.run, mapError_eq_ok.mpr (Design.circuit_eq_ok_iff.mpr found), ok_bind]
  exact runCircuit_follows found (valid.wellFormed found) (callees found) (known found) good mean arity

end Reading
end ArithCircuit
