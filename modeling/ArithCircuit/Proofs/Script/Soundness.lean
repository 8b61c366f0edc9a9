import ArithCircuit.Proofs.Layered.Emission
import ArithCircuit.Proofs.Script.Compilation

/-!
No script leaves a hint output open. Whatever values are put in place of the hint outputs, a layered
circuit that accepts them shows the outputs of the script; and where the script has outputs, some
values are accepted.
-/
namespace ArithCircuit
variable {F : ScalarField}

theorem HintRule.any_allows : (HintRule.any (F := F)).Allows := fun _ _ _ _ => trivial

theorem LayeredCircuit.length_of_evaluate {L : LayeredCircuit F} {inputs outputs : List (Scalar F)}
    (accepted : L.evaluate inputs = .ok outputs) : inputs.length = L.numInputs := by
  by_contra differs
  rw [evaluate, if_pos differs] at accepted
  cases accepted

/-- A layered circuit accepts some hint outputs exactly where its design computes outputs. -/
theorem Design.computes_iff_evaluate {D : Design F} (valid : D.Valid) {removeDead : Bool} {L : LayeredCircuit F}
    (emitted : D.emit removeDead = .ok L) {inputs outputs : List (Scalar F)} :
    D.Computes .any .entry inputs outputs ↔
      inputs.length = L.numExternal ∧ ∃ hints, L.evaluate (inputs ++ hints) = .ok outputs := by
  constructor
  · rintro ⟨hints, R, executes, satisfied, returned⟩
    obtain ⟨external, _, accepts, _⟩ := evaluate_of_executes valid emitted executes
    exact ⟨external, hints, (accepts outputs).mpr ⟨satisfied, returned.symm⟩⟩
  · rintro ⟨external, hints, accepted⟩
    have length := LayeredCircuit.length_of_evaluate accepted
    obtain ⟨L', _, emitted', _, _, _, follows⟩ := emit_spec valid removeDead (inputs ++ hints)
    obtain rfl : L = L' := Except.ok.inj (emitted.symm.trans emitted')
    obtain ⟨R, executes, _⟩ := follows length
    rw [← external, List.take_left, List.drop_left] at executes
    obtain ⟨_, _, accepts, _⟩ := evaluate_of_executes valid emitted executes
    obtain ⟨satisfied, returned⟩ := (accepts outputs).mp accepted
    exact ⟨hints, R, executes, satisfied, returned.symm⟩

namespace Script
open Step (StrictAll)

/-- The layered circuit of a script accepts inputs only with the outputs that the script means, whatever hint
    outputs follow them, and it accepts all inputs on which the script means something. -/
theorem evaluate_means {script : Script F} (strict : StrictAll (fun action => action.Plain ∧ action.Checked) script.steps)
    {hints : HintRegistry F} {D : Design F} (built : script.blueprint.build hints = .ok D) (removeDead : Bool) :
    ∃ L, D.emit removeDead = .ok L ∧ ∀ x : List (Scalar F), x.length = script.numInputs →
      (∀ h outs, L.evaluate (x ++ h) = .ok outs → script.meaning x = some outs) ∧
      ∀ outs, script.meaning x = some outs → ∃ h, L.evaluate (x ++ h) = .ok outs := by
  obtain ⟨b, recorded, built⟩ := bind_eq_ok.mp built
  have valid := Design.valid_of_validate (Builder.build_eq_ok built).2.1
  have actions {action : Action F} (kind : action.Plain ∧ action.Checked) :
      action.Plain ∧ (action.Checked ∨ (HintRule.any (F := F)).Divides) := kind.imp_right .inl
  obtain ⟨L, entry, emitted, found, external, _⟩ := Design.emit_spec valid removeDead []
  have inputs : L.numExternal = script.numInputs :=
    external.trans (numInputs_entry HintRule.any_allows actions strict recorded built found)
  refine ⟨L, emitted, fun x length => ⟨fun h outs accepted => ?_, fun outs returned => ?_⟩⟩
  · have computed := (Design.computes_iff_evaluate valid emitted).mpr ⟨length.trans inputs.symm, h, accepted⟩
    exact ((computes_iff HintRule.any_allows actions strict recorded built).mp computed).2
  · have computed := (computes_iff HintRule.any_allows actions strict recorded built).mpr ⟨length, returned⟩
    exact ((Design.computes_iff_evaluate valid emitted).mp computed).2

/-- A script that defines the reciprocal, calls it and tells whether an input is its own reciprocal. -/
def reciprocal : Script .mersenne31 where
  numInputs := 1
  numPublic := 0
  steps := [
    .define "reciprocal" 1 [.act (.input 0), .act (.inverse (.stored 0)), .act (.output [.stored 1])] false,
    .act (.input 0), .act (.call 1 [.stored 0]), .act (.sub (.stored 0) (.stored 1)), .act (.isZero (.stored 2)),
    .act (.output [.stored 1, .stored (-1)])]

theorem reciprocal_strict :
    StrictAll (fun action => action.Plain ∧ action.Checked) reciprocal.steps := by
  simp [reciprocal, StrictAll, Step.Strict, Action.Plain, Action.Checked, Operand.Plain]

theorem reciprocal_built : ∃ D, reciprocal.blueprint.build ∅ = .ok D := exists_of_isOk (by decide +kernel)

/-- Two has a reciprocal, which is accepted, and zero is rejected. -/
theorem evaluate_means_reciprocal : ∃ D L, reciprocal.blueprint.build ∅ = .ok D ∧ D.emit true = .ok L ∧
    (∃ h, L.evaluate ([2] ++ h) = .ok [1073741824, 0]) ∧ ∀ h outs, L.evaluate ([0] ++ h) ≠ .ok outs := by
  obtain ⟨D, built⟩ := reciprocal_built
  obtain ⟨L, emitted, means⟩ := evaluate_means reciprocal_strict built true
  refine ⟨D, L, built, emitted, (means [2] rfl).2 _ (by decide +kernel), fun h outs accepted => ?_⟩
  have returned := (means [0] rfl).1 h outs accepted
  have fails : reciprocal.meaning [0] = none := by decide +kernel
  rw [fails] at returned
  cases returned

end Script
end ArithCircuit
