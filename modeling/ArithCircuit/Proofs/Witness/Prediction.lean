import ArithCircuit.Proofs.Layered.Tidiness
import ArithCircuit.Proofs.Witness.Violation

/-!
What the statistics of a design say about solving and lowering it. Counting looks circuits up, solving runs
them and lowering inlines them, but all three follow the calls of the entry circuit, so each of them meets the
circuits of the same tree. Counts that are exact therefore tell how many instances, wires and hint outputs a
witness has, how many constraints are checked, and how many inputs the layered circuit takes.
-/
namespace ArithCircuit
variable {F : ScalarField} {D : Design F}

/-! ### Executions -/

theorem sumOver_congr {α : Type} {count other : α → Nat} {xs : List α} (same : ∀ x ∈ xs, count x = other x) :
    sumOver count xs = sumOver other xs := by
  induction xs with
  | nil => rfl
  | cons x rest ih =>
    obtain ⟨first, later⟩ := List.forall_mem_cons.mp same
    rw [sumOver_cons, sumOver_cons, first, ih later]

theorem sumOver_one {α : Type} (xs : List α) : sumOver (fun _ => 1) xs = xs.length := by
  induction xs with
  | nil => rfl
  | cons x rest ih => rw [sumOver_cons, ih, List.length_cons, Nat.add_comm]

/-- A trace runs the circuits of its calls, written out, and takes the hint outputs of its instructions and
    of these circuits. -/
theorem Trace.exists_calls {rule : HintRule F} {instructions : List (Instruction F)}
    {values hints final : List (Scalar F)} {instances : List (Instance F)}
    (trace : Trace D rule instructions values hints final instances) :
    ∃ calls : List (CallTree Unit), instructions.filterMap Instruction.callee? = calls.map CallTree.circuit ∧
      (∀ tree ∈ calls, tree.Unfolds D) ∧ instances.map (·.circuit) = calls.flatMap CallTree.circuits ∧
      hints.length = sumOver Gauge.hintOutputs.step instructions +
        sumOver (CallTree.total D Gauge.hintOutputs.own) calls := by
  induction trace with
  | done values => exact ⟨[], rfl, List.forall_mem_nil _, rfl, rfl⟩
  | linear _ _ ih =>
    obtain ⟨calls, callees, unfold, circuits, taken⟩ := ih
    exact ⟨calls, callees, unfold, circuits, by simp [taken, Gauge.step]⟩
  | product _ _ ih =>
    obtain ⟨calls, callees, unfold, circuits, taken⟩ := ih
    exact ⟨calls, callees, unfold, circuits, by simp [taken, Gauge.step]⟩
  | hint next _ _ ih =>
    obtain ⟨calls, callees, unfold, circuits, taken⟩ := ih
    refine ⟨calls, callees, unfold, circuits, ?_⟩
    simp [taken, Gauge.step, next, Nat.add_assoc]
  | @call callee c inputs outs _ _ _ _ _ _ _ _ found _ _ _ _ calledIh laterIh =>
    obtain ⟨inner, innerCallees, innerUnfold, innerCircuits, innerTaken⟩ := calledIh
    obtain ⟨calls, callees, unfold, circuits, taken⟩ := laterIh
    refine ⟨.node callee #[] inner :: calls, congrArg (callee :: ·) callees, ?_, ?_, ?_⟩
    · exact List.forall_mem_cons.mpr ⟨.node found (c.callees_eq.trans innerCallees) innerUnfold, unfold⟩
    · rw [List.flatMap_cons, CallTree.circuits_node, List.map_append, List.map_cons, innerCircuits, circuits]
    · have none : Gauge.hintOutputs.step (.call callee inputs outs : Instruction F) = 0 := rfl
      have start : Gauge.hintOutputs.initial c = 0 := rfl
      rw [List.length_append, innerTaken, taken, sumOver_cons, sumOver_cons, CallTree.total_node found, Gauge.own_eq,
        none, start]
      omega

namespace Executes
variable {V : Type} {rule : HintRule F} {id : CircuitId} {inputs hints : List (Scalar F)} {R : Execution F}

/-- An execution runs the circuits of the tree of calls, and takes their hint outputs. -/
theorem exists_unfolding (executes : Executes D rule id inputs hints R) :
    ∃ tree : CallTree Unit, tree.circuit = id ∧ tree.Unfolds D ∧ R.instances.map (·.circuit) = tree.circuits ∧
      hints.length = tree.total D Gauge.hintOutputs.own := by
  obtain ⟨c, final, instances, found, -, trace, rfl⟩ := executes
  obtain ⟨calls, callees, unfold, circuits, taken⟩ := trace.exists_calls
  refine ⟨.node id #[] calls, rfl, .node found (c.callees_eq.trans callees) unfold, ?_, ?_⟩
  · rw [CallTree.circuits_node, List.map_cons, circuits]
  · have start : Gauge.hintOutputs.initial c = 0 := rfl
    rw [taken, CallTree.total_node found, Gauge.own_eq, start, Nat.zero_add]

section
variable (executes : Executes D rule id inputs hints R) {tree : CallTree V} (root : tree.circuit = id)
  (unfolds : tree.Unfolds D)
include executes root unfolds

theorem length_hints : hints.length = tree.total D Gauge.hintOutputs.own := by
  obtain ⟨other, same, unfolds', -, taken⟩ := executes.exists_unfolding
  rw [taken, unfolds'.total_eq unfolds (same.trans root.symm)]

theorem sumOver_instances (count : Circuit F → Nat) :
    sumOver (fun inst => (D.get? inst.circuit).elim 0 count) R.instances = tree.total D count := by
  obtain ⟨other, same, unfolds', circuits, -⟩ := executes.exists_unfolding
  rw [unfolds.total_eq unfolds' (root.trans same.symm), CallTree.total, ← circuits, sumOver_map]

theorem length_instances : R.instances.length = tree.total D Gauge.instances.own := by
  rw [← executes.sumOver_instances root unfolds, ← sumOver_one]
  refine sumOver_congr fun inst member => ?_
  obtain ⟨c, found⟩ := executes.known inst member
  rw [found]
  rfl

/-- All wires of all circuits have values. -/
theorem sumOver_size : sumOver (·.values.size) R.instances = tree.total D Gauge.wires.own := by
  rw [← executes.sumOver_instances root unfolds]
  refine sumOver_congr fun inst member => ?_
  obtain ⟨c, found, size⟩ := executes.filled inst member
  rw [found, size]
  rfl

end
end Executes

/-! ### Solving -/

/-- Every constraint of every instance is a task of its own. -/
theorem ConstraintTask.length_ofInstances {i : Nat} {instances : List (Instance F)} {tasks : List (ConstraintTask F)}
    (listed : ofInstances D i instances = .ok tasks) :
    tasks.length = sumOver (fun inst => (D.get? inst.circuit).elim 0 Gauge.constraints.own) instances := by
  induction instances generalizing i tasks with
  | nil =>
    cases listed
    rfl
  | cons first rest ih =>
    obtain ⟨c, later, found, further, rfl⟩ := ofInstances_cons_eq_ok.mp listed
    rw [List.length_append, ofInstance, List.length_map, List.length_zipIdx, ih further, sumOver_cons, found]
    rfl

namespace Solver

/-- A run that succeeds is an execution in which hints give what the registry gives. -/
theorem executes_of_run (valid : D.Valid) {hints : HintRegistry F}
    (registered : ∀ name ∈ D.hintNames, Table.contains hints name = true) {entry : Circuit F}
    (found : D.get? .entry = some entry) {inputs : List (Scalar F)} (length : inputs.length = entry.numInputs)
    {mode : HintMode} {result : Run (Scalar F) (Array (Scalar F))}
    (ran : (Interp.solve hints mode).run D (D.size + 1) .entry inputs #[] = .ok result) :
    Executes D (.honest hints mode) .entry inputs result.state.toList ⟨result.tree.instances, result.outputs⟩ := by
  have follows := Reading.run_follows (Reading.solve hints mode) valid (Design.registered_of_named registered)
    (Nat.le_succ D.size) .entry (s := #[]) found trivial (List.forall₂_eq_eq_eq.ge _ _ rfl) length.symm
  rcases follows with ⟨_, given, R, ran', executes, taken, outputs, matching⟩ | ⟨_, failed, -⟩
  · cases ran.symm.trans ran'
    have state : result.state.toList = given := taken
    have outputs : result.outputs = R.outputs := List.forall₂_eq_eq_eq.le _ _ outputs
    have instances : result.tree.instances = R.instances :=
      result.tree.instances_eq_preorder.trans (instances_eq matching)
    rw [state, outputs, instances]
    exact executes
  · cases ran.symm.trans failed

/-- A witness is read off a run. -/
theorem exists_run {solver : Solver F} {inputs : List (Scalar F)} {config : SolverConfig} {w : Witness F}
    (solved : solver.solve inputs config = .ok w) :
    inputs.length = solver.numInputs ∧ ∃ result,
      (Interp.solve solver.hints config.hintMode).run solver.design (solver.design.size + 1) .entry inputs #[] = .ok result ∧
      w.instances = result.tree.instances ∧ w.layeredInputs = inputs ++ result.state.toList := by
  have length := length_eq_of_solve solved (by simp)
  rw [solve_eq length] at solved
  obtain ⟨result, ran, solved⟩ := bind_eq_ok.mp solved
  obtain ⟨found, -, solved⟩ := bind_eq_ok.mp solved
  cases found with
  | some violation => cases solved
  | none =>
    cases solved
    exact ⟨length, result, ran, result.tree.instances_eq_preorder.symm, rfl⟩

end Solver

/-! ### Statistics -/

/-- The exact totals of the entry circuit, its calls written out, do not pass the largest count. -/
def Design.TotalsFit (D : Design F) : Prop :=
  ∀ tree : CallTree Unit, tree.circuit = .entry → tree.Unfolds D → ∀ g : Gauge, tree.total D g.own ≤ countLimit

/-- The statistics of a valid design are exact as long as its totals fit. -/
theorem Design.Valid.stats_eq (valid : D.Valid) (fits : D.TotalsFit) :
    ∃ (stats : DesignStats) (tree : CallTree Unit), D.stats = .ok stats ∧ tree.circuit = .entry ∧ tree.Unfolds D ∧
      ∀ g : Gauge, g.read stats.expanded = tree.total D g.own := by
  obtain ⟨entry, found⟩ := valid.entry
  obtain ⟨tree, root, unfolds⟩ := valid.exists_unfolding found
  obtain ⟨table, expanded, told⟩ := Design.expandedCounts_tell valid
  obtain ⟨counts, held, tell⟩ := told found
  refine ⟨_, tree, by rw [Design.stats, expanded, ok_bind]; rfl, root, unfolds, fun g => ?_⟩
  have small := fits tree root unfolds g
  have steady : ¬ tree.Overruns D g := fun overruns => (overruns.lt_total unfolds).not_ge small
  rw [held, Option.getD_some, tell tree root unfolds g steady, Nat.min_eq_left small]

/-- Counts tell how many instances there are, how many values these have, and how many constraints there are for
    the check of these instances to search, however many workers share them. -/
structure ExpandedCounts.Predict (D : Design F) (runs : List (Instance F)) (counts : ExpandedCounts) : Prop where
  instances : runs.length = counts.instances
  wires : sumOver (·.values.size) runs = counts.wires
  constraints : ∃ tasks, ConstraintTask.ofInstances D 0 runs = .ok tasks ∧ tasks.length = counts.constraints ∧
    ∀ workers, firstViolation D runs workers = .ok (tasks.findSome? ConstraintTask.check)

section
variable {V : Type} {tree : CallTree V} (root : tree.circuit = .entry) (unfolds : tree.Unfolds D)
  {counts : ExpandedCounts} (told : ∀ g : Gauge, g.read counts = tree.total D g.own)
include root unfolds told

theorem Executes.predict {rule : HintRule F} {inputs hints : List (Scalar F)} {R : Execution F}
    (executes : Executes D rule .entry inputs hints R) : counts.Predict D R.instances := by
  refine ⟨?_, ?_, ?_⟩
  · exact (executes.length_instances root unfolds).trans (told .instances).symm
  · exact (executes.sumOver_size root unfolds).trans (told .wires).symm
  · obtain ⟨tasks, listed, -⟩ := ConstraintTask.ofInstances_spec executes.known 0
    refine ⟨tasks, listed, (ConstraintTask.length_ofInstances listed).trans ?_, fun workers => ?_⟩
    · exact (executes.sumOver_instances root unfolds _).trans (told .constraints).symm
    · rw [firstViolation_eq, listed, ok_bind]

/-- The layered circuit takes an input for each input of the entry circuit and each hint output, has an
    output for each output of the entry circuit, and no more gates that must be zero than there are constraints. -/
theorem Design.Valid.emit_predict (valid : D.Valid) {entry : Circuit F} (found : D.get? .entry = some entry)
    (removeDead : Bool) :
    ∃ L, D.emit removeDead = .ok L ∧ L.numInputs = entry.numInputs + counts.hintOutputs ∧
      L.constraints.length ≤ counts.constraints ∧ L.outputs.length = entry.outputs.length := by
  obtain ⟨L, -, emitted, -⟩ := Design.emit_spec valid removeDead []
  obtain ⟨_, _, emitted', found', external, -, runs⟩ :=
    Design.emit_spec valid removeDead (List.replicate L.numInputs 0)
  cases emitted.symm.trans emitted'
  cases found.symm.trans found'
  -- The execution on zeros has as many inputs, hint outputs and outputs as any other.
  obtain ⟨R, executes, outputs, -⟩ := runs List.length_replicate
  have taken := (executes.length_hints root unfolds).trans (told .hintOutputs).symm
  obtain ⟨_, final, instances, found'', arity, -, rfl⟩ := executes
  cases found.symm.trans found''
  refine ⟨L, emitted, ?_, ?_, by simpa using congrArg List.length outputs⟩
  · rw [List.length_take, List.length_replicate] at arity
    rw [List.length_drop, List.length_replicate] at taken
    have taken : L.numInputs - L.numExternal = counts.hintOutputs := taken
    omega
  · obtain ⟨_, other, arena, _, -, root', unfolds', -, few, rfl⟩ := Design.exists_arena_of_emit emitted
    have told : counts.constraints = tree.total D Gauge.constraints.own := told .constraints
    rw [told, unfolds.total_eq unfolds' (root.trans root'.symm)]
    simpa [Arena.laidOut] using few

end

/-- The statistics of a checked design whose totals fit tell how many instances and values every run of the
    solver makes and how many constraints it checks, how many inputs the layered circuit takes, and how many
    outputs it has, and they bound its constraint gates. -/
theorem Design.stats_predict {D : Design F} (checked : D.validate = .ok ()) (fits : D.TotalsFit) :
    ∃ stats entry, D.stats = .ok stats ∧ D.get? .entry = some entry ∧
      (∀ (hints : HintRegistry F) (solver : Solver F), Solver.new D hints = .ok solver →
        ∀ (inputs : List (Scalar F)) (config : SolverConfig),
          (∀ result, inputs.length = entry.numInputs →
            (Interp.solve hints config.hintMode).run D (D.size + 1) .entry inputs #[] = .ok result →
            stats.expanded.Predict D result.tree.instances) ∧
          ∀ w, solver.solve inputs config = .ok w → stats.expanded.Predict D w.instances ∧
            w.layeredInputs.length = entry.numInputs + stats.expanded.hintOutputs) ∧
      ∀ removeDead, ∃ L, D.emit removeDead = .ok L ∧ L.numInputs = entry.numInputs + stats.expanded.hintOutputs ∧
        L.constraints.length ≤ stats.expanded.constraints ∧ L.outputs.length = entry.outputs.length := by
  have valid := D.valid_of_validate checked
  obtain ⟨entry, found⟩ := valid.entry
  obtain ⟨stats, tree, computed, root, unfolds, told⟩ := valid.stats_eq fits
  refine ⟨stats, entry, computed, found, fun hints solver made inputs config => ⟨?_, ?_⟩, ?_⟩
  · intro result length ran
    obtain ⟨registered, -⟩ := Solver.new_eq_ok_iff.mp made
    exact (Solver.executes_of_run valid registered found length ran).predict root unfolds told
  · intro w solved
    obtain ⟨registered, _, found', rfl⟩ := Solver.new_eq_ok_iff.mp made
    cases found.symm.trans found'
    obtain ⟨length, result, ran, instances, layered⟩ := Solver.exists_run solved
    have executes := Solver.executes_of_run valid registered found length ran
    have taken := (executes.length_hints root unfolds).trans (told .hintOutputs).symm
    rw [instances, layered, List.length_append, length, taken]
    exact ⟨executes.predict root unfolds told, rfl⟩
  · exact valid.emit_predict root unfolds told found

/-- A design that takes the reciprocal of the reciprocal of a reciprocal: the circuit of one is called by the
    entry circuit, twice, and by another circuit that it calls. One constraint is of zero. -/
def Design.reciprocals : Design .mersenne31 :=
  .ofList [(.entry, ⟨1, 0, [.call 1 [.wire 1] [2], .call 2 [.wire 2] [3], .call 1 [.wire 3] [4]], [⟨[]⟩],
      [.wire 2, .wire 4]⟩),
    (1, ⟨1, 0, [.hint "guess" [.wire 1] [2], .product (.wire 1) (.wire 2) 3], [⟨[⟨-1, .one⟩, ⟨1, 3⟩]⟩], [.wire 2]⟩),
    (2, ⟨1, 0, [.call 1 [.wire 1] [2]], [], [.wire 2]⟩)]

theorem Design.reciprocals_totalsFit : Design.reciprocals.TotalsFit := by
  intro tree root unfolds g
  have leaf : (CallTree.node 1 #[] [] : CallTree Unit).Unfolds Design.reciprocals :=
    .node rfl rfl (List.forall_mem_nil _)
  have middle : (CallTree.node 2 #[] [.node 1 #[] []] : CallTree Unit).Unfolds Design.reciprocals :=
    .node rfl rfl (List.forall_mem_singleton.mpr leaf)
  have whole : (CallTree.node .entry #[] [.node 1 #[] [], .node 2 #[] [.node 1 #[] []], .node 1 #[] []] :
      CallTree Unit).Unfolds Design.reciprocals := by
    refine .node rfl rfl ?_
    simp only [List.forall_mem_cons]
    exact ⟨leaf, middle, leaf, List.forall_mem_nil _⟩
  rw [unfolds.total_eq whole root]
  cases g <;> decide +kernel

theorem Design.reciprocals_stats_predict :
    Design.reciprocals.validate = .ok () ∧ Design.reciprocals.TotalsFit ∧
      ∃ stats, Design.reciprocals.stats = .ok stats ∧ stats.expanded = ⟨5, 3, 4, 3, 20⟩ ∧
        (∃ w, Solver.solve ⟨Design.reciprocals, Solver.reciprocalHints, 1, 0⟩ [2] {} = .ok w ∧
          stats.expanded.Predict Design.reciprocals w.instances ∧ w.layeredInputs.length = 4) ∧
        ∃ L, Design.reciprocals.emit true = .ok L ∧ L.numInputs = 4 ∧ L.constraints.length ≤ 4 ∧
          L.outputs.length = 2 := by
  have checked : Design.reciprocals.validate = .ok () := by decide
  refine ⟨checked, Design.reciprocals_totalsFit, ?_⟩
  obtain ⟨stats, entry, computed, found, solving, lowering⟩ :=
    Design.stats_predict checked Design.reciprocals_totalsFit
  have counts : stats.expanded = ⟨5, 3, 4, 3, 20⟩ := by
    have evaluated : Design.reciprocals.stats.toOption.map (·.expanded) = some ⟨5, 3, 4, 3, 20⟩ := by decide +kernel
    rw [computed] at evaluated
    exact Option.some.inj evaluated
  obtain ⟨w, solved⟩ := exists_of_isOk
    (x := Solver.solve ⟨Design.reciprocals, Solver.reciprocalHints, 1, 0⟩ [2] {}) (by decide +kernel)
  obtain ⟨-, witnesses⟩ := solving Solver.reciprocalHints ⟨Design.reciprocals, Solver.reciprocalHints, 1, 0⟩ rfl [2] {}
  obtain ⟨predict, layered⟩ := witnesses w solved
  obtain ⟨L, emitted, inputs, constraints, outputs⟩ := lowering true
  cases found
  rw [counts] at layered inputs constraints
  exact ⟨stats, computed, counts, ⟨w, solved, predict, layered⟩, L, emitted, inputs, constraints, outputs⟩

end ArithCircuit
