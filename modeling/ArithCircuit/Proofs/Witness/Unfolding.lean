import ArithCircuit.Proofs.Execution.Unfolding
import ArithCircuit.Proofs.Witness.Solver

/-!
What a witness says. Its instances are the calls of the design written out from the entry, with the
only values under which all wires agree; its outputs and its inputs to the layered circuit are read
off that tree.
-/
namespace ArithCircuit
variable {F : ScalarField}

/-- A hint gives what the registry returns for it, or zeros where the hint fails in lenient mode. -/
def HintRule.registered (hints : HintRegistry F) (mode : HintMode) : HintRule F := fun name inputs outputs =>
  hints.call name inputs outputs.length = .ok outputs ∨
    mode = .lenient ∧ outputs = List.replicate outputs.length 0 ∧
      ∃ args failure, hints.call name inputs outputs.length = .error (.hintFailed name args failure)

theorem HintRule.honest_eq_registered (hints : HintRegistry F) (mode : HintMode) :
    honest hints mode = registered hints mode := by
  funext name inputs outputs
  rw [honest, registered, HintRegistry.outputs, eq_iff_iff]
  by_cases known : Table.contains hints name = true
  · rcases HintRegistry.call_cases known inputs outputs.length with ⟨given, called, length⟩ | ⟨args, failure, failed⟩
    · simp [called]
    · cases mode with
      | strict => simp [failed]
      | lenient => simp [failed, eq_comm]
  · have missing : Table.get? hints name = none := by
      rw [Option.eq_none_iff_forall_ne_some]
      exact fun hint found => known (Table.contains_iff.mpr ⟨hint, found⟩)
    simp [HintRegistry.call, missing]

namespace Solver

/-- A witness is the tree of all calls with the only values under which its wires agree, as long as a machine word can
    count the values of each instance. -/
theorem solve_unfolds {D : Design F} (checked : D.validate = .ok ()) {hints : HintRegistry F} {solver : Solver F}
    (made : new D hints = .ok solver) {inputs : List (Scalar F)} {config : SolverConfig} {w : Witness F}
    (solved : solver.solve inputs config = .ok w) (small : ∀ inst ∈ w.instances, inst.values.size < 2 ^ 64) :
    ∃ tree : CallTree (Scalar F), tree.circuit = .entry ∧ tree.Unfolds D ∧
      tree.Wired D (.registered hints config.hintMode) inputs ∧ w.instances = tree.instances ∧
      (∀ inst ∈ w.instances, inst.Satisfied D) ∧ w.outputs = tree.outputs D ∧
      w.layeredInputs = inputs ++ tree.hintOutputs D ∧
      ∀ other : CallTree (Scalar F), other.circuit = .entry → other.Unfolds D →
        other.Wired D (.registered hints config.hintMode) inputs → other.instances = w.instances := by
  have valid := D.valid_of_validate checked
  rw [← HintRule.honest_eq_registered]
  have functional := HintRule.honest_functional hints config.hintMode
  rcases solve_cases valid made config (length_eq_of_solve solved (by simp)) with
    ⟨given, R, executes, -, ⟨satisfied, solved'⟩ | ⟨-, _, _, _, violated⟩⟩ | ⟨-, -, _, _, _, -, failed⟩
  · cases solved.symm.trans solved'
    have only {tree : CallTree (Scalar F)} (root : tree.circuit = .entry) (unfolds : tree.Unfolds D)
        (wired : tree.Wired D (.honest hints config.hintMode) inputs)
        (small : ∀ inst ∈ tree.instances, inst.values.size < 2 ^ 64) :
        given = tree.hintOutputs D ∧ R = ⟨tree.instances, tree.outputs D⟩ :=
      executes.eq_of_functional functional (root ▸ wired.executes valid unfolds small)
    obtain ⟨tree, root, unfolds, wired, sizes⟩ := executes.exists_tree valid small
    obtain ⟨rfl, rfl⟩ := only root unfolds wired sizes
    refine ⟨tree, root, unfolds, wired, rfl, satisfied, rfl, rfl, ?_⟩
    intro other root' unfolds' wired'
    have sizes' := wired.small unfolds wired' unfolds' (root.trans root'.symm) sizes
    exact (Execution.mk.inj (only root' unfolds' wired' sizes').2).1.symm
  · cases solved.symm.trans violated
  · cases solved.symm.trans failed

/-- Two has a reciprocal, found in the circuit that the entry calls. -/
theorem solve_unfolds_reciprocal :
    Design.reciprocal.validate = .ok () ∧
    new Design.reciprocal reciprocalHints = .ok ⟨Design.reciprocal, reciprocalHints, 1, 0⟩ ∧
    ∃ w, solve ⟨Design.reciprocal, reciprocalHints, 1, 0⟩ [2] {} = .ok w ∧
      (∀ inst ∈ w.instances, inst.values.size < 2 ^ 64) ∧
      ∃ tree : CallTree (Scalar .mersenne31), tree.circuit = .entry ∧ tree.Unfolds Design.reciprocal ∧
        tree.Wired Design.reciprocal (.registered reciprocalHints .strict) [2] ∧ w.instances = tree.instances ∧
        w.layeredInputs = [2] ++ tree.hintOutputs Design.reciprocal := by
  have checked : Design.reciprocal.validate = .ok () := by decide
  have made : new Design.reciprocal reciprocalHints = .ok ⟨Design.reciprocal, reciprocalHints, 1, 0⟩ := rfl
  obtain ⟨w, solved, small⟩ := exists_of_any (x := solve ⟨Design.reciprocal, reciprocalHints, 1, 0⟩ [2] {})
    (p := fun w => decide (∀ inst ∈ w.instances, inst.values.size < 2 ^ 64)) (by decide +kernel)
  have small := of_decide_eq_true small
  obtain ⟨tree, root, unfolds, wired, instances, -, -, layered, -⟩ := solve_unfolds checked made solved small
  exact ⟨checked, made, w, solved, small, tree, root, unfolds, wired, instances, layered⟩

end Solver
end ArithCircuit
