import ArithCircuit.Layered.Emission
import ArithCircuit.Proofs.Execution.Reading
import ArithCircuit.Proofs.Layered.Fold
import ArithCircuit.Proofs.Layered.Layout

/-!
Lowering keeps the meaning of a design. Running a design over gates follows its execution on the
inputs of the layered circuit, where hint outputs are the inputs after the external ones: each wire
value stands for the value of its wire, and the demanded gates are zero exactly when all constraints
hold. Laying out the gates then changes no value.
-/
namespace ArithCircuit
variable {F : ScalarField}

namespace Arena

theorem wellFormed_empty : (empty : Arena F).WellFormed where
  operands := by simp [empty]
  depths := by simp [empty]
  constants := by simp [empty]
  inputs := rfl
  constraints := by simp [empty]

/-- Constraining the value of a form demands that it be zero. -/
theorem constrainFold_advances (inputs : Array (Scalar F)) (site : Site) (form : LinearForm F)
    {values : Array (WireValue F)} {xs : List (Scalar F)} {arena : Arena F} (wellFormed : arena.WellFormed)
    (mean : List.Forall₂ (WireValue.Means inputs arena) values.toList xs) :
    ∃ next, Interp.emit.constrain site form values arena = .ok next ∧
      Advances inputs arena next [] (form.on xs = 0) := by
  obtain ⟨⟨value, folded⟩, done, advances, means⟩ := fold_yields inputs site form wellFormed mean
  change ∃ next, (arena.fold site form values >>= _) = .ok next ∧ _
  rw [done, ok_bind]
  cases value with
  | constant k =>
    obtain means : form.on xs = k := means
    dsimp only
    split
    · rename_i zero
      rw [means, (Scalar.isZero_iff k).mp zero]
      exact ⟨folded, rfl, advances.congr (by simp)⟩
    · obtain ⟨added, there, same⟩ := constant_places inputs k advances.wellFormed
      have constrained := (constrain_advances inputs added.wellFormed there).congr (by rw [same, ← means])
      exact ⟨_, rfl, advances.after (added.after constrained)⟩
  | scaled gate coef =>
    obtain ⟨inside, nonzero, same⟩ := means
    refine ⟨_, rfl, (advances.after (constrain_advances inputs advances.wellFormed inside)).congr ?_⟩
    rw [same, mul_eq_zero, or_iff_right nonzero]

end Arena

/-- Wire values stand for field elements once the inputs are known, and hints may give anything. -/
def Reading.emit (inputs : Array (Scalar F)) : Reading Interp.emit (HintRule.any (F := F)) where
  good := Arena.WellFormed
  means := WireValue.Means inputs
  step := Arena.Advances inputs
  known _ := True
  fails _ := False
  refl := Arena.Advances.refl
  trans := Arena.Advances.trans
  good_of_step := Arena.Advances.wellFormed
  mono advances means := advances.means means
  one _ := rfl
  form site form values xs arena wellFormed mean := by
    obtain ⟨⟨value, next⟩, folded, advances, means⟩ := Arena.fold_yields inputs site form wellFormed mean
    exact ⟨value, next, folded, advances, means⟩
  product := Arena.product_yields inputs
  hint _ count _ _ arena wellFormed _ _ := by
    obtain ⟨taken, length, advances, means⟩ := Arena.pushInputs_spec inputs count wellFormed
    exact .inl ⟨_, _, taken, rfl, length, trivial, advances, means⟩
  constrain site form _ _ _ := Arena.constrainFold_advances inputs site form
  functional impossible := impossible.elim

/-- The inputs that were taken from the first on are the inputs themselves. -/
theorem Arena.taken_eq {inputs : List (Scalar F)} {arena : Arena F} {taken : List (Scalar F)} {P : Prop}
    (advances : Advances inputs.toArray empty arena taken P) (length : inputs.length = arena.numInputs) :
    taken = inputs := by
  have sameLength : taken.length = inputs.length := by
    rw [length, advances.numInputs]
    exact (Nat.zero_add _).symm
  refine List.ext_getElem sameLength fun i left right => ?_
  have read := congrArg (·[i]?) advances.taken
  simpa [empty, left, right] using read

/-- Running a valid design over gates gives one arena, which is laid out with or without its dead gates.
    On each input its gates have the values of an execution: the outputs are its outputs, and the demanded
    gates are zero exactly when all its constraints hold. -/
theorem Design.lowers {D : Design F} (valid : D.Valid) (v : List (Scalar F)) :
    ∃ (entry : Circuit F) (arena : Arena F) (outputs : List Nat), D.get? .entry = some entry ∧ arena.WellFormed ∧
      (∀ gate ∈ outputs, gate < arena.nodes.size) ∧ entry.numInputs ≤ arena.numInputs ∧
      (∀ removeDead c, D.emit removeDead = .ok c ↔
        c = ⟨arena.numInputs, entry.numInputs, entry.numPublic, (arena.layout outputs removeDead).layers,
          (arena.layout outputs removeDead).outputs, (arena.layout outputs removeDead).constraints⟩ ∧ c.WellFormed) ∧
      (v.length = arena.numInputs →
        ∃ R, Executes D .any .entry (v.take entry.numInputs) (v.drop entry.numInputs) R ∧
          outputs.map (arena.value v.toArray) = R.outputs ∧ (arena.Vanishes v.toArray ↔ R.Satisfied D)) := by
  obtain ⟨entry, found⟩ := valid.entry
  obtain ⟨taken, count, first, means⟩ := Arena.pushInputs_spec v.toArray entry.numInputs Arena.wellFormed_empty
  have deep : D.size ≤ D.size + 1 := Nat.le_succ _
  rcases Reading.run_follows (Reading.emit v.toArray) valid (fun _ _ _ _ _ => trivial) deep .entry found
      first.wellFormed means count.symm with
    ⟨result, hints, R, ran, executes, second, outputs, -⟩ | ⟨e, -, impossible, -⟩
  · obtain ⟨third, inside, values⟩ := Arena.materializeAll_spec v.toArray second.wellFormed outputs
    have whole := (first.trans (second.trans third)).congr (by rw [true_and, and_true])
    rw [List.append_nil] at whole
    refine ⟨entry, _, _, found, third.wellFormed, inside, ?_, fun removeDead c => ?_, fun length => ⟨R, ?_, values, ?_⟩⟩
    · rw [whole.numInputs, List.length_append, count]
      exact (Nat.le_add_right ..).trans (Nat.le_add_left ..)
    · rw [Design.emit, mapError_eq_ok.mpr (Design.circuit_eq_ok_iff.mpr found), ok_bind]
      dsimp only
      rw [ran, ok_bind, mapError_eq_ok]
      exact LayeredCircuit.ofParts_eq_ok_iff
    · have read : taken ++ hints = v := Arena.taken_eq whole length
      rwa [← read, ← count, List.take_left, List.drop_left]
    · rw [whole.vanishes]
      exact and_iff_right (List.forall_mem_nil _)
  · exact impossible.elim

/-- A valid design is lowered to a well-formed circuit, and on each input the gates of the circuit
    have the values of an execution: the outputs are its outputs, and the constraint gates are zero
    exactly when all its constraints hold. -/
theorem Design.emit_spec {D : Design F} (valid : D.Valid) (removeDead : Bool) (v : List (Scalar F)) :
    ∃ L entry, D.emit removeDead = .ok L ∧ D.get? .entry = some entry ∧ L.numExternal = entry.numInputs ∧
      L.WellFormed ∧ (v.length = L.numInputs →
        ∃ R, Executes D .any .entry (v.take L.numExternal) (v.drop L.numExternal) R ∧
          L.outputs.map (L.valueAt v) = R.outputs ∧
          ((∀ gate ∈ L.constraints, L.valueAt v gate = 0) ↔ R.Satisfied D)) := by
  obtain ⟨entry, arena, outputs, found, wellFormed, inside, external, emits, executes⟩ := Design.lowers valid v
  obtain ⟨L, same, accepted, values⟩ :=
    Arena.layout_spec wellFormed inside removeDead (valid.wellFormed found).numPublic external
  have numExternal : L.numExternal = entry.numInputs := by rw [same]
  refine ⟨L, entry, (emits removeDead L).mpr ⟨same, accepted⟩, found, numExternal, accepted, fun length => ?_⟩
  obtain ⟨R, run, results, vanishes⟩ := executes (by rw [length, same])
  obtain ⟨outputValues, constraintValues⟩ := values v
  refine ⟨R, numExternal ▸ run, outputValues.trans results, ?_⟩
  -- Which gates are zero can be read off the list of their values.
  rw [← vanishes, Arena.Vanishes, ← List.forall_mem_map (P := (· = 0)), constraintValues, List.forall_mem_map]

/-- On every input of the right length, with hint outputs after the external inputs, there is one
    execution of the design; if all its constraints hold, evaluating the circuit gives its outputs, and
    otherwise a violated constraint. -/
def LayeredCircuit.Implements (L : LayeredCircuit F) (D : Design F) : Prop :=
  ∀ v : List (Scalar F), v.length = L.numInputs →
    ∃ R, Executes D .any .entry (v.take L.numExternal) (v.drop L.numExternal) R ∧
      (∀ S, Executes D .any .entry (v.take L.numExternal) (v.drop L.numExternal) S → S = R) ∧
      (∀ outputs, L.evaluate v = .ok outputs ↔ R.Satisfied D ∧ outputs = R.outputs) ∧
      (¬ R.Satisfied D → ∃ index value, L.evaluate v = .error (.violated .entry index value))

/-- Whatever hints give, on the inputs and hint outputs of an execution the circuit evaluates to the
    outputs of the execution if its constraints hold, and to a violated constraint otherwise. -/
theorem Design.evaluate_of_executes {D : Design F} (valid : D.Valid) {removeDead : Bool} {L : LayeredCircuit F}
    (emitted : D.emit removeDead = .ok L) {rule : HintRule F} {inputs hints : List (Scalar F)} {R : Execution F}
    (executes : Executes D rule .entry inputs hints R) :
    inputs.length = L.numExternal ∧ (inputs ++ hints).length = L.numInputs ∧
      (∀ outputs, L.evaluate (inputs ++ hints) = .ok outputs ↔ R.Satisfied D ∧ outputs = R.outputs) ∧
      (¬ R.Satisfied D → ∃ index value, L.evaluate (inputs ++ hints) = .error (.violated .entry index value)) := by
  have anyhow : Executes D .any .entry inputs hints R := executes.mono fun _ => trivial
  have spec (v : List (Scalar F)) : L.WellFormed ∧ (v.length = L.numInputs →
      ∃ R, Executes D .any .entry (v.take L.numExternal) (v.drop L.numExternal) R ∧
        L.outputs.map (L.valueAt v) = R.outputs ∧
        ((∀ gate ∈ L.constraints, L.valueAt v gate = 0) ↔ R.Satisfied D)) := by
    obtain ⟨L', _, emitted', -, -, wellFormed, follows⟩ := Design.emit_spec valid removeDead v
    obtain rfl : L = L' := Except.ok.inj (emitted.symm.trans emitted')
    exact ⟨wellFormed, follows⟩
  have external : L.numExternal ≤ L.numInputs := (spec []).1.numExternal
  -- All executions take as many inputs and hint outputs as the one on zeros.
  obtain ⟨_, zeros, -, -⟩ := (spec (List.replicate L.numInputs 0)).2 List.length_replicate
  obtain ⟨sameInputs, sameHints⟩ := anyhow.lengths_eq zeros
  rw [List.length_take, List.length_replicate, Nat.min_eq_left external] at sameInputs
  rw [List.length_drop, List.length_replicate] at sameHints
  have length : (inputs ++ hints).length = L.numInputs := by
    rw [List.length_append]
    omega
  obtain ⟨S, same, outputs, constraints⟩ := (spec (inputs ++ hints)).2 length
  rw [← sameInputs, List.take_left, List.drop_left] at same
  obtain rfl := anyhow.eq_of_hints same
  refine ⟨sameInputs, length, ?_⟩
  rcases L.evaluate_cases length with ⟨zero, evaluated⟩ | ⟨nonzero, index, value, evaluated⟩
  · have satisfied := constraints.mp zero
    refine ⟨fun outs => ?_, absurd satisfied⟩
    rw [evaluated, Except.ok.injEq, outputs, and_iff_right satisfied, eq_comm]
  · have violated := mt constraints.mpr nonzero
    refine ⟨fun outs => ?_, fun _ => ⟨index, value, evaluated⟩⟩
    rw [evaluated]
    constructor
    · intro impossible
      cases impossible
    · intro satisfied
      exact absurd satisfied.1 violated

/-- Lowering a checked design succeeds, with dead gates or without them, and keeps its meaning on every
    input, whatever the hint outputs are. -/
theorem Design.emit_implements {D : Design F} (checked : D.validate = .ok ()) (removeDead : Bool) :
    ∃ L, D.emit removeDead = .ok L ∧ (∃ entry, D.get? .entry = some entry ∧ L.numExternal = entry.numInputs) ∧
      L.Implements D := by
  have valid := D.valid_of_validate checked
  obtain ⟨L, entry, emitted, found, external, -, -⟩ := Design.emit_spec valid removeDead []
  refine ⟨L, emitted, ⟨entry, found, external⟩, fun v length => ?_⟩
  obtain ⟨L', _, emitted', -, -, -, follows⟩ := Design.emit_spec valid removeDead v
  obtain rfl : L = L' := Except.ok.inj (emitted.symm.trans emitted')
  obtain ⟨R, executes, -⟩ := follows length
  obtain ⟨-, -, evaluates⟩ := Design.evaluate_of_executes valid emitted executes
  rw [List.take_append_drop] at evaluates
  exact ⟨R, executes, fun S other => other.eq_of_hints executes, evaluates⟩

/-- A design that calls a circuit which takes a hint output for the reciprocal of its input. -/
def Design.reciprocal : Design .mersenne31 :=
  .ofList [(.entry, ⟨1, 0, [.call 1 [.wire 1] [2]], [], [.wire 2]⟩),
    (1, ⟨1, 0, [.hint "guess" [.wire 1] [2], .product (.wire 1) (.wire 2) 3], [⟨[⟨-1, .one⟩, ⟨1, 3⟩]⟩], [.wire 2]⟩)]

theorem Design.reciprocal_emit_implements :
    Design.reciprocal.validate = .ok () ∧ ∃ L, Design.reciprocal.emit true = .ok L ∧
      (∃ entry, Design.reciprocal.get? .entry = some entry ∧ L.numExternal = entry.numInputs) ∧
      L.Implements Design.reciprocal :=
  ⟨by decide, Design.emit_implements (by decide) true⟩

end ArithCircuit
