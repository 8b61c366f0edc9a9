import ArithCircuit.Proofs.Codec.Solver
import ArithCircuit.Proofs.Layered.Lookups

/-!
An accepted design never fails for a reason of its own. Its calls come to an end, its counts can be
computed and it can be lowered. Solving it fails only if a constraint is violated or, in strict mode, if
a hint fails. Nothing that is looked up on the way is missing.
-/
namespace ArithCircuit
variable {F : ScalarField}

/-! ### Solving -/

/-- When the wires that an operation on field elements reads have values. -/
def Lookups.solve : Lookups F (Scalar F) (Array (Scalar F)) where
  form form values _ := form.Reads values.size
  product _ _ _ := True
  hint inputs values _ := ∀ form ∈ inputs, form.Reads values.size
  constrain _ _ _ := True

theorem Reading.solve_finds (hints : HintRegistry F) (mode : HintMode) : (Reading.solve hints mode).Finds .solve where
  form _ _ readable := readable.reads_of_word
  product _ _ _ := trivial
  hint _ _ readable := fun form member => (readable form member).reads_of_word
  constrain _ _ _ := trivial

namespace Solver

/-- Every wire that solving reads has a value: while circuits are run, and when the constraints of each
    of their instances are checked. -/
structure SolvesInRange (solver : Solver F) (inputs : List (Scalar F)) (mode : HintMode) : Prop where
  run : (Interp.solve solver.hints mode).InRange .solve solver.design .entry inputs #[]
  constraints : ∀ result,
    (Interp.solve solver.hints mode).run solver.design (solver.design.size + 1) .entry inputs #[] = .ok result →
    ∀ inst ∈ result.tree.preorder, ∃ c, solver.design.get? inst.1 = some c ∧
      ∀ form ∈ c.constraints, form.Reads inst.2.size

theorem solvesInRange {D : Design F} (valid : D.Valid) {hints : HintRegistry F} {solver : Solver F}
    (made : new D hints = .ok solver) {inputs : List (Scalar F)} (length : inputs.length = solver.numInputs)
    (mode : HintMode) : solver.SolvesInRange inputs mode := by
  obtain ⟨registered, entry, found, rfl⟩ := new_eq_ok_iff.mp made
  have same : List.Forall₂ ((Reading.solve hints mode).means #[]) inputs inputs := List.forall₂_eq_eq_eq.ge _ _ rfl
  refine ⟨(Reading.solve_finds hints mode).inRange valid (Design.registered_of_named registered) found trivial same
    length.symm, ?_⟩
  intro result ran inst member
  rcases Reading.run_follows (Reading.solve hints mode) valid (Design.registered_of_named registered)
      (Nat.le_succ D.size) .entry (s := #[]) found trivial same length.symm with
    ⟨result', given, R, ran', executes, -, -, matching⟩ | ⟨e, failed, -, -⟩
  · obtain rfl : result = result' := Except.ok.inj (ran.symm.trans ran')
    have listed : (⟨inst.1, inst.2⟩ : Instance F) ∈ R.instances :=
      instances_eq matching ▸ List.mem_map.mpr ⟨inst, member, rfl⟩
    obtain ⟨c, found, size⟩ := executes.filled _ listed
    have size : inst.2.size = c.wireCount := size
    exact ⟨c, found, fun form member => size ▸ ((valid.wellFormed found).constraints form member).reads_of_word⟩
  · cases ran.symm.trans failed

/-- Solving gives a witness, or reports a violated constraint or, in strict mode, a hint that failed. -/
def Ends (solver : Solver F) (inputs : List (Scalar F)) (config : SolverConfig) : Prop :=
  (∃ w, solver.solve inputs config = .ok w) ∨
  (∃ circuit index value, solver.solve inputs config = .error (.violated circuit index value)) ∨
  config.hintMode = .strict ∧ ∃ name args failure, solver.solve inputs config = .error (.hintFailed name args failure)

theorem ends {D : Design F} (valid : D.Valid) {hints : HintRegistry F} {solver : Solver F}
    (made : new D hints = .ok solver) {inputs : List (Scalar F)} (length : inputs.length = solver.numInputs)
    (config : SolverConfig) : solver.Ends inputs config := by
  rcases solve_cases valid made config length with
    ⟨given, R, -, -, ⟨-, solved⟩ | ⟨-, violated⟩⟩ | ⟨strict, -, name, args, failure, -, failed⟩
  · exact .inl ⟨_, solved⟩
  · exact .inr (.inl violated)
  · exact .inr (.inr ⟨strict, name, args, failure, failed⟩)

end Solver

/-! ### Accepted designs -/

/-- What is decoded together with its field is decoded over that field. -/
theorem Tagged.ofBytes_of_decode {α : ScalarField → Type}
    {ofBytes : (F : ScalarField) → List UInt8 → Except Error (α F)} {bytes : List UInt8} {tagged : Tagged α}
    (read : decode ofBytes bytes = .ok tagged) : ofBytes tagged.field bytes = .ok tagged.value := by
  obtain ⟨F, -, rest⟩ := bind_eq_ok.mp read
  obtain ⟨value, decoded, same⟩ := bind_eq_ok.mp rest
  cases same
  exact decoded

namespace Design

/-- Designs that were accepted: by the check, or by reading them, or a solver for them, from bytes. -/
inductive Accepted : {F : ScalarField} → Design F → Prop
  | checked {F : ScalarField} {D : Design F} : D.validate = .ok () → Accepted D
  | read {F : ScalarField} {bytes : List UInt8} {D : Design F} : ofBytes bytes = .ok D → Accepted D
  | readSolver {F : ScalarField} {bytes : List UInt8} {hints : HintRegistry F} {solver : Solver F} :
    Solver.ofBytes bytes hints = .ok solver → Accepted solver.design
  | readTagged {bytes : List UInt8} {design : Tagged Design} :
    Tagged.designOfBytes bytes = .ok design → Accepted design.value
  | readTaggedSolver {bytes : List UInt8} {solver : Tagged Solver} :
    Tagged.solverOfBytes bytes = .ok solver → Accepted solver.value.design

theorem Accepted.validates {D : Design F} (accepted : D.Accepted) : D.validate = .ok () := by
  cases accepted with
  | checked checked => exact checked
  | read read => exact (ofBytes_eq_ok read).1
  | readSolver read => exact (Solver.ofBytes_eq_ok read).1
  | readTagged read => exact (ofBytes_eq_ok (Tagged.ofBytes_of_decode read)).1
  | readTaggedSolver read => exact (Solver.ofBytes_eq_ok (Tagged.ofBytes_of_decode read)).1

/-- What can be relied on in a design that was accepted. -/
structure Safe (D : Design F) : Prop where
  /-- No chain of calls goes on for ever. -/
  callsEnd : WellFounded fun callee caller => D.Calls caller callee
  /-- Running the design ends by itself, under every interpretation: a bound on nested calls makes no
      difference. -/
  runs : ∀ {V S : Type} (I : Interp F V S) (depth : Nat), D.size ≤ depth → ∀ id, I.run D depth id = I.run D D.size id
  /-- Expanding its counts ends by itself too. -/
  expands : ∀ depth, D.size ≤ depth → ∀ id, D.expand depth id = D.expand D.size id
  counts : ∃ table, D.expandedCounts = .ok table
  emits : ∀ removeDead, (∃ L, D.emit removeDead = .ok L) ∧ D.EmitsInRange removeDead
  solves : ∀ hints : HintRegistry F, (∀ name ∈ D.hintNames, Table.contains hints name = true) →
    ∃ entry solver, D.get? .entry = some entry ∧ Solver.new D hints = .ok solver ∧
      ∀ inputs : List (Scalar F), inputs.length = entry.numInputs → ∀ config,
        solver.Ends inputs config ∧ solver.SolvesInRange inputs config.hintMode

/-- Accepted designs are safe. -/
theorem safe_of_accepted {D : Design F} (accepted : D.Accepted) : D.Safe := by
  have valid := valid_of_validate accepted.validates
  refine ⟨valid.wellFounded, fun I _ deep => I.run_eq_of_depth valid deep, fun _ deep => expand_eq_of_depth valid deep,
    expandedCounts_succeeds valid, ?_, ?_⟩
  · intro removeDead
    obtain ⟨L, _, emitted, -⟩ := emit_spec valid removeDead []
    exact ⟨⟨L, emitted⟩, emitsInRange valid removeDead⟩
  · intro hints registered
    obtain ⟨entry, found⟩ := valid.entry
    have made := Solver.new_eq_ok_iff.mpr ⟨registered, entry, found, rfl⟩
    refine ⟨entry, _, found, made, fun inputs length config => ?_⟩
    exact ⟨Solver.ends valid made length config, Solver.solvesInRange valid made length config.hintMode⟩

theorem reciprocal_safe : reciprocal.Accepted ∧ reciprocal.Safe :=
  ⟨.checked (by decide), safe_of_accepted (.checked (by decide))⟩

end Design
end ArithCircuit
