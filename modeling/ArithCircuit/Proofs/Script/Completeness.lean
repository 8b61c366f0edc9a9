import ArithCircuit.Proofs.Script.Soundness
import ArithCircuit.Proofs.Witness.Solver

/-!
The solver with builtin hints solves a script exactly where the script means something. Builtin hints
give what the recorded constraints ask for; where they fail, so does the script. A script that takes more wires
than there are numbers may be rejected although it means something.
-/
namespace ArithCircuit
variable {F : ScalarField}

theorem HintRegistry.get?_builtins (hint : BuiltinHint) :
    Table.get? (HintRegistry.builtins (F := F)) hint.name = some hint.run := by
  have get (registry : HintRegistry F) (name other : String) (h : Hint F) :
      Table.get? (registry.register name h) other = if other = name then some h else Table.get? registry other :=
    Table.get?_insert ..
  simp only [builtins, BuiltinHint.all, List.foldl_cons, List.foldl_nil, get]
  cases hint <;> simp [BuiltinHint.name]

theorem HintRegistry.call_toBinary (x : Scalar F) (count : Nat) :
    builtins.call BuiltinHint.toBinary.name [x] count = if x.val < 2 ^ count then .ok (Scalar.toBinary count x)
      else .error (.hintFailed BuiltinHint.toBinary.name [x.val] (.valueOutOfRange count)) := by
  rw [call, get?_builtins]
  simp only [BuiltinHint.run, Hint.toBinary_eq]
  by_cases below : x.val < 2 ^ count
  · simp [below, Scalar.length_toBinary]
  · simp [below]

/-- The registry of builtins gives in strict mode what builtin hints give. -/
theorem HintRule.honest_builtins_iff (hint : BuiltinHint) {inputs outputs : List (Scalar F)} :
    HintRule.honest .builtins .strict hint.name inputs outputs ↔ hint.run inputs outputs.length = .ok outputs := by
  rw [honest, HintRegistry.outputs, HintRegistry.call, HintRegistry.get?_builtins]
  dsimp only
  cases hint.run inputs outputs.length with
  | error failure => simp
  | ok given =>
    dsimp only
    by_cases length : given.length = outputs.length
    · simp [length]
    · refine ⟨fun failed => ?_, fun same => absurd (congrArg List.length (Except.ok.inj same)) length⟩
      rw [if_neg length] at failed
      cases failed

theorem HintRule.builtins_allow : (HintRule.honest (F := F) .builtins .strict).Allows :=
  fun hint _ _ given => (honest_builtins_iff hint).mpr given

theorem HintRule.builtins_divide : (HintRule.honest (F := F) .builtins .strict).Divides := by
  intro x y q given
  have ran : Hint.quotient [x, y] 1 = .ok [q] := (honest_builtins_iff .quotient).mp given
  rintro rfl
  simp [Hint.quotient] at ran

namespace Solver

/-- In strict mode, a solver finds a witness exactly where its design computes outputs. -/
theorem solve_iff_computes {D : Design F} (valid : D.Valid) {hints : HintRegistry F} {solver : Solver F}
    (made : new D hints = .ok solver) {config : SolverConfig} (strict : config.hintMode = .strict)
    {x outs : List (Scalar F)} : (∃ w, solver.solve x config = .ok w ∧ w.outputs = outs) ↔
      x.length = solver.numInputs ∧ D.Computes (.honest hints .strict) .entry x outs := by
  constructor
  · rintro ⟨w, solved, rfl⟩
    have length := length_eq_of_solve solved nofun
    rcases solve_cases valid made config length with ⟨given, R, executes, -, ending⟩ | ⟨-, -, _, _, _, -, failed⟩
    · rcases ending with ⟨satisfied, solved'⟩ | ⟨-, _, _, _, violated⟩
      · cases solved.symm.trans solved'
        exact ⟨length, given, R, strict ▸ executes, satisfied, rfl⟩
      · cases solved.symm.trans violated
    · cases solved.symm.trans failed
  · rintro ⟨length, given, R, executes, satisfied, rfl⟩
    rcases solve_cases valid made config length with ⟨_, S, executes', -, ending⟩ | ⟨-, none, -⟩
    · rw [strict] at executes'
      obtain ⟨-, rfl⟩ := executes.eq_of_functional (HintRule.honest_functional hints .strict) executes'
      rcases ending with ⟨-, solved⟩ | ⟨unsatisfied, -⟩
      · exact ⟨_, solved, rfl⟩
      · exact absurd satisfied unsatisfied
    · exact absurd executes (none given R)

end Solver

namespace Script
open Step (StrictAll)

/-- A script whose steps all succeed is solved exactly where it means something, with the outputs that it means. If
    one of its assertions never holds and every wire has a number of its own, it means nothing anywhere. -/
theorem solve_means {script : Script F} (strict : StrictAll Action.Plain script.steps) {hints : HintRegistry F}
    {b : Builder F} (recorded : script.blueprint.record hints = .ok b) :
    (∀ D, b.build = .ok D → ∃ solver, Solver.new D .builtins = .ok solver ∧
      ∀ (config : SolverConfig) (x outs : List (Scalar F)), config.hintMode = .strict →
        ((∃ w, solver.solve x config = .ok w ∧ w.outputs = outs) ↔
          x.length = script.numInputs ∧ script.meaning x = some outs)) ∧
    (b.nextWire ≤ 2 ^ 32 → ∀ assertion value, b.build = .error (.unsatisfiable assertion value) →
      ∀ x : List (Scalar F), x.length = script.numInputs → script.meaning x = none) := by
  have allows : (HintRule.honest (F := F) .builtins .strict).Allows := HintRule.builtins_allow
  have actions {action : Action F} (plain : action.Plain) :
      action.Plain ∧ (action.Checked ∨ (HintRule.honest (F := F) .builtins .strict).Divides) :=
    ⟨plain, .inr HintRule.builtins_divide⟩
  constructor
  · intro D built
    have valid := Design.valid_of_validate (Builder.build_eq_ok built).2.1
    obtain ⟨entry, found⟩ := valid.entry
    have registered : ∀ name ∈ D.hintNames, Table.contains (HintRegistry.builtins (F := F)) name = true := by
      intro name listed
      obtain ⟨id, c, here, i, member, named⟩ := Design.mem_hintNames_iff.mp listed
      obtain ⟨hint, rfl⟩ := hint_builtin allows actions strict recorded built here member named
      exact Table.contains_iff.mpr ⟨_, HintRegistry.get?_builtins hint⟩
    have made := Solver.new_eq_ok_iff.mpr ⟨registered, entry, found, rfl⟩
    refine ⟨_, made, fun config x outs mode => ?_⟩
    rw [Solver.solve_iff_computes valid made mode, computes_iff allows actions strict recorded built,
      numInputs_entry allows actions strict recorded built found, ← and_assoc, and_self]
  · intro room assertion value failed x length
    refine meaning_eq_none allows actions strict recorded room (fun possible => ?_) length
    rw [Builder.build, Builder.design, possible] at failed
    cases validated : (⟨b.subCircuits.circuits.insert .entry b.circuit⟩ : Design F).validate with
    | ok =>
      rw [ok_bind, validated] at failed
      cases failed
    | error e =>
      rw [ok_bind, validated] at failed
      cases failed

/-- A script that asserts of a constant what it is not, after a division that is not checked. -/
def contradiction : Script .mersenne31 where
  numInputs := 2
  numPublic := 0
  steps := [
    .act .inputs, .act (.divUnchecked (.stored 0) (.stored 1)), .act (.output [.stored 2]),
    .act (.assertZero (.form (.constant 1)))]

/-- Two is solved and zero is not; a contradiction means nothing. -/
theorem solve_means_reciprocal :
    (∃ b D solver, reciprocal.blueprint.record ∅ = .ok b ∧ b.build = .ok D ∧ Solver.new D .builtins = .ok solver ∧
      (∃ w, solver.solve [2] { } = .ok w ∧ w.outputs = [1073741824, 0]) ∧ ∀ w, solver.solve [0] { } ≠ .ok w) ∧
    ∃ b, contradiction.blueprint.record ∅ = .ok b ∧ b.build = .error (.unsatisfiable .zero 1) ∧
      ∀ x, x.length = 2 → contradiction.meaning x = none := by
  constructor
  · obtain ⟨D, built⟩ := reciprocal_built
    obtain ⟨b, recorded, built⟩ := bind_eq_ok.mp built
    have strict : StrictAll Action.Plain reciprocal.steps := by
      simp [reciprocal, StrictAll, Step.Strict, Action.Plain, Operand.Plain]
    obtain ⟨solver, made, means⟩ := (solve_means strict recorded).1 D built
    refine ⟨b, D, solver, recorded, built, made, (means _ _ _ rfl).mpr ⟨rfl, by decide +kernel⟩, fun w solved => ?_⟩
    obtain ⟨-, returned⟩ := (means _ _ _ rfl).mp ⟨w, solved, rfl⟩
    have fails : reciprocal.meaning [0] = none := by decide +kernel
    rw [fails] at returned
    cases returned
  · have strict : StrictAll Action.Plain contradiction.steps := by
      simp [contradiction, StrictAll, Step.Strict, Action.Plain, Operand.Plain]
    obtain ⟨b, recorded⟩ : ∃ b, contradiction.blueprint.record ∅ = .ok b := exists_of_isOk (by decide +kernel)
    have failed : contradiction.blueprint.build ∅ = .error (.unsatisfiable .zero 1) := by decide +kernel
    rw [Blueprint.build, recorded, ok_bind] at failed
    have room : b.nextWire ≤ 2 ^ 32 := by
      have wires : (contradiction.blueprint.record ∅).map (·.nextWire) = .ok 5 := by decide +kernel
      rw [recorded] at wires
      exact (Except.ok.inj wires).trans_le (by decide)
    exact ⟨b, recorded, failed, (solve_means strict recorded).2 room _ _ failed⟩

/-- A script that asserts that the square of an input is zero, after an earlier square was given the last number of
    a wire. -/
def exhausted : Script .mersenne31 where
  numInputs := 4294967294
  numPublic := 0
  steps := [
    .act (.input 0), .act (.mul (.stored 0) (.stored 0)), .act (.mul (.stored 0) (.stored 0)),
    .act (.assertZero (.stored 2))]

/-- The second square has the number of the constant one, so the script is rejected, although it means something
    where the input is zero. -/
theorem exhausted_rejected :
    (∃ b, exhausted.blueprint.record ∅ = .ok b ∧ b.build = .error (.unsatisfiable .zero 1)) ∧
      ∃ x, x.length = exhausted.numInputs ∧ exhausted.meaning x = some [] := by
  constructor
  · obtain ⟨b, recorded⟩ : ∃ b, exhausted.blueprint.record ∅ = .ok b := exists_of_isOk (by decide +kernel)
    have failed : exhausted.blueprint.build ∅ = .error (.unsatisfiable .zero 1) := by decide +kernel
    rw [Blueprint.build, recorded, ok_bind] at failed
    exact ⟨b, recorded, failed⟩
  · have means (rest : List (Scalar .mersenne31)) : exhausted.meaning (0 :: rest) = some [] := rfl
    exact ⟨0 :: List.replicate 4294967293 0, by rw [List.length_cons, List.length_replicate]; rfl, means _⟩

end Script
end ArithCircuit
