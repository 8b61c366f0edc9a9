import ArithCircuit.Proofs.Builder.WellFormed
import ArithCircuit.Proofs.Script.Completeness

/-!
Compiling a recorded circuit. If the assignments that satisfy the recorded circuit relate its inputs to
its outputs in some way, whatever values hints may give, then so does the solver, and the layered circuit
accepts no other inputs and outputs.
-/
namespace ArithCircuit
variable {F : ScalarField}

/-- A recorded circuit without sub-circuits has a number for each wire, and its inputs and outputs are those of a
    relation, in every world that allows what builtin hints give. -/
structure Builder.Relates (b : Builder F) (R : List (Scalar F) → List (Scalar F) → Prop) : Prop where
  wellFormed : b.WellFormed
  alone : b.subCircuits = .empty
  room : b.nextWire ≤ 2 ^ 32
  good : ∀ {W : World F}, W.rule.Allows → b.Good W
  meaning : ∀ {W : World F}, W.rule.Allows → ∀ {x outs}, (∃ w, b.Satisfied W w ∧ inputValues b.numInputs w = x ∧
    b.outputs.toList.map (·.eval w) = outs) ↔ R x outs

namespace Builder.Relates
variable {b : Builder F} {R : List (Scalar F) → List (Scalar F) → Prop} {x outs : List (Scalar F)}

theorem satisfied (relates : b.Relates R) (related : R x outs) :
    ∃ (W : World F) (w : Wire → Scalar F), b.Satisfied W w ∧ inputValues b.numInputs w = x := by
  obtain ⟨w, satisfied, given, -⟩ := (relates.meaning (W := ⟨.any, fun _ _ _ => True⟩) HintRule.any_allows).mpr related
  exact ⟨_, w, satisfied, given⟩

theorem length (relates : b.Relates R) (related : R x outs) : x.length = b.numInputs := by
  obtain ⟨_, w, -, rfl⟩ := relates.satisfied related
  exact length_inputValues ..

theorem roomy (relates : b.Relates R) : b.Roomy := by
  refine ⟨relates.room, fun found => ?_⟩
  rw [relates.alone] at found
  cases found

section
variable (relates : b.Relates R) {D : Design F} (built : b.build = .ok D)

include relates built

theorem get?_design {id : CircuitId} {c : Circuit F} (found : D.get? id = some c) : id = .entry ∧ c = b.circuit := by
  obtain ⟨-, -, get⟩ := Builder.build_eq_ok built
  rw [get, relates.alone] at found
  split at found
  · rename_i entry
    exact ⟨entry, (Option.some.inj found).symm⟩
  · cases found

/-- The design computes what the relation says. -/
theorem computes_iff {rule : HintRule F} (allows : rule.Allows) : D.Computes rule .entry x outs ↔ R x outs := by
  obtain ⟨possible, validated, get⟩ := Builder.build_eq_ok built
  have small : D.Addressable := fun {id c} found => by
    obtain ⟨-, rfl⟩ := relates.get?_design built found
    rw [← (relates.good (W := ⟨.any, fun _ _ _ => True⟩) HintRule.any_allows).count]
    exact relates.room.trans_lt (by decide)
  rw [Design.computes_iff (Design.valid_of_validate validated) small,
    ← relates.meaning (W := ⟨rule, D.Computes rule⟩) allows]
  constructor
  · rintro ⟨c, w, found, satisfying, shown⟩
    obtain ⟨-, rfl⟩ := relates.get?_design built found
    obtain ⟨satisfied, given⟩ := (satisfying_circuit_iff possible).mp satisfying
    exact ⟨w, satisfied, given, shown⟩
  · rintro ⟨w, satisfied, given, shown⟩
    exact ⟨b.circuit, w, (get _).trans (if_pos rfl), (satisfying_circuit_iff possible).mpr ⟨satisfied, given⟩, shown⟩

theorem hint_registered : ∀ name ∈ D.hintNames, Table.contains (HintRegistry.builtins (F := F)) name = true := by
  intro name listed
  obtain ⟨id, c, found, i, member, named⟩ := Design.mem_hintNames_iff.mp listed
  obtain ⟨-, rfl⟩ := relates.get?_design built found
  have good := relates.good (W := ⟨.any, fun _ _ _ => True⟩) HintRule.any_allows
  obtain ⟨hint, rfl⟩ := good.hints i member name named
  exact Table.contains_iff.mpr ⟨_, HintRegistry.get?_builtins hint⟩

end

/-- Where some inputs are related to outputs, compiling succeeds. The solver solves exactly the related inputs, and
    the layered circuit accepts exactly these, with some hint outputs after them. -/
theorem compiles (relates : b.Relates R) (related : R x outs) {bp : Blueprint F}
    (recorded : bp.record .builtins = .ok b) : ∃ compiled, bp.compile .standard = .ok compiled ∧
      (∀ (config : SolverConfig) x outs, config.hintMode = .strict →
        ((∃ w, compiled.solver.solve x config = .ok w ∧ w.outputs = outs) ↔ R x outs)) ∧
      (∀ v outs, compiled.layered.evaluate v = .ok outs → b.numInputs ≤ v.length ∧ R (v.take b.numInputs) outs) ∧
      ∀ x outs, R x outs → ∃ h, compiled.layered.evaluate (x ++ h) = .ok outs := by
  obtain ⟨_, _, satisfied, -⟩ := relates.satisfied related
  obtain ⟨D, -, built⟩ := relates.wellFormed.build_of_possible relates.roomy satisfied.possible
  have valid := Design.valid_of_validate (Builder.build_eq_ok built).2.1
  obtain ⟨L, entry, emitted, found, external, wellFormed, -⟩ := Design.emit_spec valid true []
  obtain ⟨-, rfl⟩ := relates.get?_design built found
  have external : L.numExternal = b.numInputs := external
  obtain ⟨solver, made, arity⟩ : ∃ solver, Solver.new D .builtins = .ok solver ∧ solver.numInputs = b.numInputs :=
    ⟨_, Solver.new_eq_ok_iff.mpr ⟨relates.hint_registered built, b.circuit, found, rfl⟩, rfl⟩
  refine ⟨⟨solver, L⟩, ?_, fun config x outs mode => ?_, fun v outs accepted => ?_, fun x outs related => ?_⟩
  · refine ArithCircuit.bind_eq_ok.mpr ⟨b, mapError_eq_ok.mpr recorded, ?_⟩
    refine ArithCircuit.bind_eq_ok.mpr ⟨D, mapError_eq_ok.mpr built, ?_⟩
    refine ArithCircuit.bind_eq_ok.mpr ⟨L, emitted, ?_⟩
    exact ArithCircuit.bind_eq_ok.mpr ⟨solver, made, rfl⟩
  · rw [Solver.solve_iff_computes valid made mode, arity, relates.computes_iff built HintRule.builtins_allow]
    exact and_iff_right_of_imp relates.length
  · have length := LayeredCircuit.length_of_evaluate accepted
    have enough : b.numInputs ≤ v.length := by
      rw [length, ← external]
      exact wellFormed.numExternal
    have whole : L.evaluate (v.take b.numInputs ++ v.drop b.numInputs) = .ok outs := by rwa [List.take_append_drop]
    have taken : (v.take b.numInputs).length = L.numExternal := by rw [List.length_take_of_le enough, external]
    have computed := (Design.computes_iff_evaluate valid emitted).mpr ⟨taken, _, whole⟩
    exact ⟨enough, (relates.computes_iff built HintRule.any_allows).mp computed⟩
  · have computed := (relates.computes_iff built HintRule.any_allows).mpr related
    exact ((Design.computes_iff_evaluate valid emitted).mp computed).2

end Builder.Relates
end ArithCircuit
