import ArithCircuit.Proofs.Execution.Reading
import ArithCircuit.Proofs.Layered.Emission
import ArithCircuit.Witness.Solver

/-!
The solver runs a design with the hint outputs that its registry gives, and succeeds exactly when all
constraints of that execution hold. Lowering keeps the meaning of every execution, of this one too, so
a layered circuit accepts what the solver accepts and rejects what it rejects.
-/
namespace ArithCircuit
variable {F : ScalarField}

/-- Hints give what a registry gives. -/
def HintRule.honest (hints : HintRegistry F) (mode : HintMode) : HintRule F := fun name inputs outputs =>
  hints.outputs mode name inputs outputs.length = .ok outputs

theorem HintRule.honest_functional (hints : HintRegistry F) (mode : HintMode) : (honest hints mode).Functional := by
  intro name inputs first second given given' length
  rw [honest, length] at given
  exact Except.ok.inj (given.symm.trans given')

namespace HintRegistry

theorem call_cases {hints : HintRegistry F} {name : String} (known : Table.contains hints name = true)
    (inputs : List (Scalar F)) (count : Nat) :
    (∃ outputs, hints.call name inputs count = .ok outputs ∧ outputs.length = count) ∨
      ∃ args failure, hints.call name inputs count = .error (.hintFailed name args failure) := by
  obtain ⟨hint, found⟩ := Table.contains_iff.mp known
  rw [call, found]
  dsimp only
  cases hint inputs count with
  | error failure => exact .inr ⟨_, _, rfl⟩
  | ok outputs =>
    dsimp only
    split
    · rename_i length
      exact .inl ⟨outputs, rfl, length⟩
    · exact .inr ⟨_, _, rfl⟩

/-- A registered hint gives as many outputs as were asked for, or fails in strict mode. -/
theorem outputs_cases {hints : HintRegistry F} {name : String} (known : Table.contains hints name = true)
    (mode : HintMode) (inputs : List (Scalar F)) (count : Nat) :
    (∃ outputs, hints.outputs mode name inputs count = .ok outputs ∧ outputs.length = count) ∨
      mode = .strict ∧ ∃ args failure, hints.outputs mode name inputs count = .error (.hintFailed name args failure) := by
  rw [outputs]
  rcases call_cases known inputs count with ⟨given, called, length⟩ | ⟨args, failure, failed⟩
  · rw [called]
    exact .inl ⟨given, rfl, length⟩
  · rw [failed]
    cases mode with
    | strict => exact .inr ⟨rfl, args, failure, rfl⟩
    | lenient => exact .inl ⟨_, rfl, List.length_replicate⟩

end HintRegistry

theorem LinearForm.eval_getD (form : LinearForm F) (values : Array (Scalar F)) :
    (form.eval fun w => values.getD w 0) = form.on values.toList := by
  simp [LinearForm.on]

theorem Interp.solve_hint (hints : HintRegistry F) (mode : HintMode) (name : String) (inputs : List (LinearForm F))
    (count : Nat) (values taken : Array (Scalar F)) :
    (Interp.solve hints mode).hint name inputs count values taken =
      (hints.outputs mode name (inputs.map (·.on values.toList)) count >>= fun outputs =>
        .ok (outputs, taken ++ outputs)) := by
  have args : inputs.map (fun form => form.eval fun w => values.getD w 0) = inputs.map (·.on values.toList) :=
    List.map_congr_left fun form _ => form.eval_getD values
  rw [← args]
  rfl

/-- Values stand for themselves, and the state lists the hint outputs that were taken. -/
def Reading.solve (hints : HintRegistry F) (mode : HintMode) :
    Reading (Interp.solve hints mode) (HintRule.honest hints mode) where
  good _ := True
  means _ v x := v = x
  step s t taken _ := t.toList = s.toList ++ taken
  known name := Table.contains hints name = true
  fails e := mode = .strict ∧ ∃ name args failure, e = .hintFailed name args failure
  refl _ := (List.append_nil _).symm
  trans first second := by rw [second, first, List.append_assoc]
  good_of_step _ := trivial
  mono _ same := same
  one _ := rfl
  form site form values xs s _ mean := by
    obtain rfl : values.toList = xs := List.forall₂_eq_eq_eq.le _ _ mean
    exact ⟨_, s, rfl, (List.append_nil _).symm, form.eval_getD values⟩
  product _ left right := by
    subst left right
    exact ⟨(List.append_nil _).symm, rfl⟩
  hint inputs count values xs s _ known mean := by
    obtain rfl : values.toList = xs := List.forall₂_eq_eq_eq.le _ _ mean
    rw [Interp.solve_hint]
    rcases HintRegistry.outputs_cases known mode (inputs.map (·.on values.toList)) count with
      ⟨outputs, given, length⟩ | ⟨strict, args, failure, failed⟩
    · rw [given, ok_bind]
      refine .inl ⟨outputs, s ++ outputs, outputs, rfl, length, ?_, Array.toList_appendList, ?_⟩
      · rw [HintRule.honest, length, given]
      · exact List.forall₂_eq_eq_eq.ge _ _ rfl
    · rw [failed, error_bind]
      refine .inr ⟨_, rfl, ⟨strict, _, args, failure, rfl⟩, fun ys length given => ?_⟩
      rw [HintRule.honest, length, failed] at given
      cases given
  constrain _ _ _ _ _ _ _ := ⟨_, rfl, (List.append_nil _).symm⟩
  functional _ := HintRule.honest_functional hints mode

/-! ### Constraints -/

namespace ConstraintTask

theorem check_eq_none_iff (task : ConstraintTask F) :
    task.check = none ↔ task.form.on task.values.toList = 0 := by
  rw [check, ← LinearForm.eval_getD]
  split
  · rename_i zero
    simpa using zero
  · rename_i nonzero
    simpa using nonzero

/-- No task finds a violation exactly when every instance satisfies its constraints. -/
theorem ofInstances_spec {D : Design F} {instances : List (Instance F)}
    (known : ∀ inst ∈ instances, ∃ c, D.get? inst.circuit = some c) (i : Nat) :
    ∃ tasks, ofInstances D i instances = .ok tasks ∧
      ((∀ task ∈ tasks, task.check = none) ↔ ∀ inst ∈ instances, inst.Satisfied D) := by
  induction instances generalizing i with
  | nil => exact ⟨[], rfl, by simp⟩
  | cons first rest ih =>
    obtain ⟨⟨c, found⟩, later⟩ := List.forall_mem_cons.mp known
    obtain ⟨tasks, listed, same⟩ := ih later (i + 1)
    refine ⟨ofInstance i first c.constraints ++ tasks, ?_, ?_⟩
    · rw [ofInstances, mapError_eq_ok.mpr (Design.circuit_eq_ok_iff.mpr found), ok_bind, listed, ok_bind]
      rfl
    · rw [List.forall_mem_append, same, List.forall_mem_cons]
      refine and_congr_left fun _ => ?_
      simp only [ofInstance, List.forall_mem_map, check_eq_none_iff]
      constructor
      · intro zero c' found' form member
        cases found.symm.trans found'
        obtain ⟨k, here⟩ := List.mem_iff_getElem?.mp member
        exact zero (form, k) (List.mk_mem_zipIdx_iff_getElem?.mpr here)
      · rintro satisfied ⟨form, k⟩ member
        exact satisfied c found form (List.mem_of_getElem? (List.mk_mem_zipIdx_iff_getElem?.mp member))

end ConstraintTask

private theorem findSome?_flatten {α β : Type} (f : α → Option β) (parts : List (List α)) :
    parts.flatten.findSome? f = parts.findSome? (·.findSome? f) := by
  induction parts with
  | nil => rfl
  | cons part rest ih =>
    rw [List.flatten_cons, List.findSome?_append, ih, List.findSome?_cons]
    cases part.findSome? f <;> rfl

/-- Searching chunk by chunk is searching. -/
private theorem findSome?_chunks {α β : Type} (f : α → Option β) {size : Nat} {xs : List α}
    (positive : xs ≠ [] → 0 < size) : ((chunks size xs).map (·.findSome? f)).findSome? id = xs.findSome? f := by
  have joined : (chunks size xs).flatten = xs := by
    by_cases empty : xs = []
    · rw [empty, chunks, if_pos (.inr rfl), List.flatten_nil]
    · exact flatten_chunks (positive empty) xs
  rw [List.findSome?_map, Function.id_comp, ← findSome?_flatten, joined]

/-- How many workers share the constraints makes no difference. -/
theorem firstViolation_eq (D : Design F) (instances : List (Instance F)) (workers : Nat) :
    firstViolation D instances workers =
      (ConstraintTask.ofInstances D 0 instances >>= fun tasks => .ok (tasks.findSome? ConstraintTask.check)) := by
  refine bind_congr fun tasks => congrArg Except.ok (findSome?_chunks _ fun some => ?_)
  have : 0 < tasks.length := List.length_pos_iff.mpr some
  exact Nat.div_pos (by omega) (by omega)

/-- The check of all constraints finds none that fails exactly when every instance satisfies its own. -/
theorem firstViolation_cases {D : Design F} {instances : List (Instance F)}
    (known : ∀ inst ∈ instances, ∃ c, D.get? inst.circuit = some c) (workers : Nat) :
    firstViolation D instances workers = .ok none ∧ (∀ inst ∈ instances, inst.Satisfied D) ∨
      ∃ violation, firstViolation D instances workers = .ok (some violation) ∧
        ¬ ∀ inst ∈ instances, inst.Satisfied D := by
  obtain ⟨tasks, listed, same⟩ := ConstraintTask.ofInstances_spec known 0
  rw [firstViolation_eq, listed, ok_bind, ← same, ← List.findSome?_eq_none_iff]
  cases tasks.findSome? ConstraintTask.check with
  | none => exact .inl ⟨rfl, rfl⟩
  | some violation => exact .inr ⟨violation, rfl, Option.some_ne_none violation⟩

/-! ### Solving -/

/-- The names of the hints of a design are those that its instructions name. -/
theorem Design.mem_hintNames_iff {D : Design F} {name : String} :
    name ∈ D.hintNames ↔
      ∃ id c, D.get? id = some c ∧ ∃ instruction ∈ c.instructions, instruction.hintName? = some name := by
  have inserted (names : List String) (t : Table String Unit) :
      name ∈ (names.foldl (fun t name => t.insert name ()) t).keys ↔ name ∈ names ∨ name ∈ t.keys := by
    induction names generalizing t with
    | nil => simp
    | cons first rest ih =>
      rw [List.foldl_cons, ih, List.mem_cons, Table.mem_keys_iff, Table.mem_keys_iff]
      simp only [Table.get?_insert]
      split
      · rename_i same
        simp [same]
      · rename_i differs
        simp [differs]
  have none : name ∉ (∅ : Table String Unit).keys := List.not_mem_nil
  rw [hintNames, inserted, or_iff_left none, List.mem_flatMap]
  simp only [Table.values, List.mem_map, List.mem_filterMap]
  constructor
  · rintro ⟨_, ⟨⟨id, c⟩, listed, rfl⟩, named⟩
    exact ⟨id, c, Table.get?_eq_some_iff.mpr listed, named⟩
  · rintro ⟨id, c, found, named⟩
    exact ⟨c, ⟨(id, c), Table.get?_eq_some_iff.mp found, rfl⟩, named⟩

theorem Design.registered_of_named {D : Design F} {hints : HintRegistry F}
    (registered : ∀ name ∈ D.hintNames, Table.contains hints name = true) {id : CircuitId} {c : Circuit F}
    (found : D.get? id = some c) : ∀ instruction ∈ c.instructions, ∀ name, instruction.hintName? = some name →
      Table.contains hints name = true :=
  fun instruction member name named =>
    registered name (mem_hintNames_iff.mpr ⟨id, c, found, instruction, member, named⟩)

namespace Solver

/-- A solver is made exactly when the registry has every hint that the design names. -/
theorem new_eq_ok_iff {D : Design F} {hints : HintRegistry F} {solver : Solver F} :
    new D hints = .ok solver ↔ (∀ name ∈ D.hintNames, Table.contains hints name = true) ∧
      ∃ entry, D.get? .entry = some entry ∧ solver = ⟨D, hints, entry.numInputs, entry.numPublic⟩ := by
  rw [new]
  cases missing : D.hintNames.find? fun name => !Table.contains hints name with
  | some name =>
    obtain ⟨unregistered, member⟩ := And.intro (List.find?_some missing) (List.mem_of_find?_eq_some missing)
    refine ⟨fun made => (nomatch made), fun ⟨registered, _⟩ => ?_⟩
    simp [registered name member] at unregistered
  | none =>
    have registered : ∀ name ∈ D.hintNames, Table.contains hints name = true := by simpa using missing
    rw [and_iff_right registered]
    constructor
    · intro made
      obtain ⟨entry, found, same⟩ := bind_eq_ok.mp made
      exact ⟨entry, Design.circuit_eq_ok_iff.mp (mapError_eq_ok.mp found), (Except.ok.inj same).symm⟩
    · rintro ⟨entry, found, rfl⟩
      exact bind_eq_ok.mpr ⟨entry, mapError_eq_ok.mpr (Design.circuit_eq_ok_iff.mpr found), rfl⟩

/-- The hint outputs that a run computes, in the order in which hints run. -/
def hintOutputs (solver : Solver F) (inputs : List (Scalar F)) (config : SolverConfig) :
    Except Error (List (Scalar F)) := do
  let result ← (Interp.solve solver.hints config.hintMode).run solver.design (solver.design.size + 1) .entry inputs #[]
  return result.state.toList

theorem solve_eq {solver : Solver F} {inputs : List (Scalar F)} (length : inputs.length = solver.numInputs)
    (config : SolverConfig) :
    solver.solve inputs config =
      ((Interp.solve solver.hints config.hintMode).run solver.design (solver.design.size + 1) .entry inputs #[] >>=
        fun result =>
          let instances := result.tree.preorder.map fun (circuit, values) => ⟨circuit, values⟩
          firstViolation solver.design instances config.workers >>= fun found =>
            match found with
            | some violation => .error (.violated violation.circuit violation.index violation.value.val)
            | none => .ok ⟨instances, result.outputs, inputs ++ result.state.toList, solver.numPublic⟩) := by
  rw [solve, if_neg (not_not.mpr length)]
  refine bind_congr fun result => bind_congr fun found => ?_
  cases found <;> rfl

/-- Runs whose values stand for themselves are the instances they stand for. -/
theorem instances_eq {hints : HintRegistry F} {mode : HintMode} {taken : Array (Scalar F)}
    {runs : List (CircuitId × Array (Scalar F))} {instances : List (Instance F)}
    (matching : List.Forall₂ ((Reading.solve hints mode).Matches taken) runs instances) :
    runs.map (fun (circuit, values) => (⟨circuit, values⟩ : Instance F)) = instances := by
  induction matching with
  | nil => rfl
  | @cons run inst _ _ first _ ih =>
    obtain ⟨circuit, values⟩ := first
    have same : run.2 = inst.values := Array.toList_inj.mp (List.forall₂_eq_eq_eq.le _ _ values)
    have whole : (⟨run.1, run.2⟩ : Instance F) = inst := by rw [circuit, same]
    exact congrArg₂ List.cons whole ih

/-- Solving finds the execution in which hints give what the registry gives, if there is one, and
    otherwise reports a hint that failed. -/
theorem solve_cases {D : Design F} (valid : D.Valid) {hints : HintRegistry F} {solver : Solver F}
    (made : new D hints = .ok solver) (config : SolverConfig) {inputs : List (Scalar F)}
    (length : inputs.length = solver.numInputs) :
    (∃ given R, Executes D (.honest hints config.hintMode) .entry inputs given R ∧
      solver.hintOutputs inputs config = .ok given ∧
      (R.Satisfied D ∧ solver.solve inputs config = .ok ⟨R.instances, R.outputs, inputs ++ given, solver.numPublic⟩ ∨
        ¬ R.Satisfied D ∧ ∃ circuit index value, solver.solve inputs config = .error (.violated circuit index value))) ∨
    config.hintMode = .strict ∧ (∀ given R, ¬ Executes D (.honest hints .strict) .entry inputs given R) ∧
      ∃ name args failure, solver.hintOutputs inputs config = .error (.hintFailed name args failure) ∧
        solver.solve inputs config = .error (.hintFailed name args failure) := by
  obtain ⟨registered, entry, found, rfl⟩ := new_eq_ok_iff.mp made
  have follows := Reading.run_follows (Reading.solve hints config.hintMode) valid
    (Design.registered_of_named registered) (Nat.le_succ D.size) .entry (s := #[]) found trivial
    (List.forall₂_eq_eq_eq.ge _ _ rfl) length.symm
  rcases follows with ⟨result, given, R, ran, executes, taken, outputs, matching⟩ | ⟨e, ran, ⟨strict, name, args, failure, rfl⟩, none⟩
  · have state : result.state.toList = given := taken
    have sameOutputs : result.outputs = R.outputs := List.forall₂_eq_eq_eq.le _ _ outputs
    refine .inl ⟨given, R, executes, ?_, ?_⟩
    · rw [hintOutputs, ran, ok_bind, state]
      rfl
    · rw [solve_eq length, ran, ok_bind, instances_eq matching, sameOutputs, state]
      dsimp only
      rcases firstViolation_cases executes.known config.workers with ⟨found, all⟩ | ⟨violation, found, some⟩
      · exact .inl ⟨all, by rw [found, ok_bind]⟩
      · exact .inr ⟨some, _, _, _, by rw [found, ok_bind]⟩
  · refine .inr ⟨strict, strict ▸ none, name, args, failure, ?_, ?_⟩
    · rw [hintOutputs, ran, error_bind]
    · rw [solve_eq length, ran, error_bind]

theorem length_eq_of_solve {solver : Solver F} {inputs : List (Scalar F)} {config : SolverConfig}
    {outcome : Except Error (Witness F)} (solved : solver.solve inputs config = outcome)
    (started : ∀ expected found, outcome ≠ .error (.inputLength expected found)) :
    inputs.length = solver.numInputs := by
  by_contra differs
  refine started solver.numInputs inputs.length (solved.symm.trans ?_)
  rw [solve, if_pos differs]
  rfl

/-- A layered circuit accepts what a solver accepts, with the same outputs, and rejects what it rejects;
    and once all hints have run, the solver does one or the other. -/
def Agrees (solver : Solver F) (L : LayeredCircuit F) : Prop :=
  ∀ (inputs : List (Scalar F)) (config : SolverConfig),
    (∀ w, solver.solve inputs config = .ok w →
      w.layeredInputs.length = L.numInputs ∧ L.evaluate w.layeredInputs = .ok w.outputs) ∧
    (∀ circuit index value, solver.solve inputs config = .error (.violated circuit index value) →
      ∃ given, solver.hintOutputs inputs config = .ok given ∧
        ∃ index' value', L.evaluate (inputs ++ given) = .error (.violated .entry index' value')) ∧
    (∀ given, inputs.length = solver.numInputs → solver.hintOutputs inputs config = .ok given →
      (∃ w, solver.solve inputs config = .ok w ∧ w.layeredInputs = inputs ++ given) ∨
        ∃ circuit index value, solver.solve inputs config = .error (.violated circuit index value))

/-- The solver of a checked design and its layered circuit agree, if all its hints are registered. -/
theorem solve_agrees {D : Design F} (checked : D.validate = .ok ()) {hints : HintRegistry F}
    (registered : ∀ name ∈ D.hintNames, Table.contains hints name = true) (removeDead : Bool) :
    ∃ solver L, new D hints = .ok solver ∧ D.emit removeDead = .ok L ∧ solver.Agrees L := by
  have valid := D.valid_of_validate checked
  obtain ⟨entry, found⟩ := valid.entry
  obtain ⟨L, _, emitted, -⟩ := Design.emit_spec valid removeDead []
  have made := new_eq_ok_iff.mpr ⟨registered, entry, found, rfl⟩
  refine ⟨_, L, made, emitted, fun inputs config => ⟨?_, ?_, ?_⟩⟩
  · intro w solved
    have length := length_eq_of_solve solved nofun
    rcases solve_cases valid made config length with ⟨given, R, executes, -, ending⟩ | ⟨-, -, _, _, _, -, failed⟩
    · obtain ⟨-, total, accepts, -⟩ := Design.evaluate_of_executes valid emitted executes
      rcases ending with ⟨satisfied, solved'⟩ | ⟨-, _, _, _, violated⟩
      · cases solved.symm.trans solved'
        exact ⟨total, (accepts _).mpr ⟨satisfied, rfl⟩⟩
      · cases solved.symm.trans violated
    · cases solved.symm.trans failed
  · intro circuit index value solved
    have length := length_eq_of_solve solved nofun
    rcases solve_cases valid made config length with ⟨given, R, executes, computed, ending⟩ | ⟨-, -, _, _, _, -, failed⟩
    · obtain ⟨-, -, -, rejects⟩ := Design.evaluate_of_executes valid emitted executes
      rcases ending with ⟨-, solved'⟩ | ⟨unsatisfied, -⟩
      · cases solved.symm.trans solved'
      · exact ⟨given, computed, rejects unsatisfied⟩
    · cases solved.symm.trans failed
  · intro given length computed
    rcases solve_cases valid made config length with ⟨_, R, -, computed', ending⟩ | ⟨-, -, _, _, _, failed, -⟩
    · cases computed.symm.trans computed'
      rcases ending with ⟨-, solved⟩ | ⟨-, violated⟩
      · exact .inl ⟨_, solved, rfl⟩
      · exact .inr violated
    · cases computed.symm.trans failed

/-- A hint that gives the reciprocal of its input, or zero. -/
def reciprocalHints : HintRegistry .mersenne31 :=
  HintRegistry.register ∅ "guess" fun inputs _ => .ok (inputs.map (·⁻¹))

theorem solve_agrees_reciprocal :
    (Design.reciprocal.validate = .ok () ∧
      ∀ name ∈ Design.reciprocal.hintNames, Table.contains reciprocalHints name = true) ∧
    ∃ solver L, new Design.reciprocal reciprocalHints = .ok solver ∧ Design.reciprocal.emit true = .ok L ∧
      solver.Agrees L :=
  ⟨⟨by decide, by decide⟩, solve_agrees (by decide) (by decide) true⟩

end Solver

end ArithCircuit
