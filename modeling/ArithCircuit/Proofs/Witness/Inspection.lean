import ArithCircuit.Proofs.Execution.Inspection
import ArithCircuit.Proofs.Witness.Solver

/-!
Designs that are used without having been checked. Lowering and solving both run a design, so either of them
finds whatever the check would find in a circuit that the entry reaches, except for too many public inputs. A
violated constraint is found after the run, when this has been looked at already.
-/
namespace ArithCircuit
variable {F : ScalarField}

theorem HintRegistry.outputs_of_unknown {hints : HintRegistry F} {name : String}
    (unknown : ¬ Table.contains hints name = true) (mode : HintMode) (inputs : List (Scalar F)) (count : Nat) :
    hints.outputs mode name inputs count = .error (.unknownHint name) := by
  have missing : Table.get? hints name = none := by
    simpa [Table.contains_iff, Option.eq_none_iff_forall_ne_some] using unknown
  rw [HintRegistry.outputs, call, missing]

theorem HintRegistry.length_of_outputs {hints : HintRegistry F} {mode : HintMode} {name : String}
    {inputs outputs : List (Scalar F)} {count : Nat} (given : hints.outputs mode name inputs count = .ok outputs) :
    outputs.length = count := by
  by_cases known : Table.contains hints name = true
  · rcases outputs_cases known mode inputs count with ⟨_, given', length⟩ | ⟨-, _, _, failed⟩
    · cases given.symm.trans given'
      exact length
    · cases given.symm.trans failed
  · cases given.symm.trans (outputs_of_unknown known mode inputs count)

theorem Arena.length_pushInputs (count : Nat) (arena : Arena F) : (arena.pushInputs count).1.length = count := by
  induction count generalizing arena with
  | zero => rfl
  | succ count ih => exact congrArg (· + 1) (ih _)

namespace Interp

theorem emit_answers : (emit : Interp F (WireValue F) (Arena F)).Answers := by
  intro name inputs count values arena next vs given
  have pushed : arena.pushInputs count = (vs, next) := Except.ok.inj given
  rw [← Arena.length_pushInputs count arena, pushed]

theorem solve_answers (hints : HintRegistry F) (mode : HintMode) : (solve hints mode).Answers := by
  intro name inputs count values taken next vs given
  rw [solve_hint] at given
  obtain ⟨outputs, called, given⟩ := bind_eq_ok.mp given
  cases given
  exact HintRegistry.length_of_outputs called

/-- No operation of the solver reports a violated constraint: constraints are checked after the run. -/
theorem solve_blames (hints : HintRegistry F) (mode : HintMode) :
    (solve hints mode).Blames fun e => ∀ circuit index value, e ≠ .violated circuit index value where
  malformed fault circuit index value same := by cases same
  form _ _ _ _ := .ok _
  hint name inputs count values taken := by
    refine FailsBy.bind ?_ fun outputs => .ok _
    rintro _ failed circuit index value rfl
    by_cases known : Table.contains hints name = true
    · rcases HintRegistry.outputs_cases known mode _ count with ⟨_, given, -⟩ | ⟨-, _, _, failed'⟩
      · cases failed.symm.trans given
      · cases failed.symm.trans failed'
    · rw [HintRegistry.outputs_of_unknown known] at failed
      cases failed
  constrain _ _ _ _ := .ok _

end Interp

/-! ### Designs -/

namespace Solver

/-- Solving ends with a witness or with a violated constraint. -/
def Finishes (solver : Solver F) (inputs : List (Scalar F)) (config : SolverConfig) : Prop :=
  (∃ w, solver.solve inputs config = .ok w) ∨
    ∃ circuit index value, solver.solve inputs config = .error (.violated circuit index value)

theorem Finishes.exists_run {solver : Solver F} {inputs : List (Scalar F)} {config : SolverConfig}
    (finishes : solver.Finishes inputs config) :
    inputs.length = solver.numInputs ∧ ∃ result,
      (Interp.solve solver.hints config.hintMode).run solver.design (solver.design.size + 1) .entry inputs #[] = .ok result := by
  have length : inputs.length = solver.numInputs := by
    rcases finishes with ⟨w, solved⟩ | ⟨circuit, index, value, violated⟩
    · exact length_eq_of_solve solved (by simp)
    · exact length_eq_of_solve violated (by simp)
  refine ⟨length, ?_⟩
  rw [Finishes, solve_eq length] at finishes
  cases ran : (Interp.solve solver.hints config.hintMode).run solver.design (solver.design.size + 1) .entry inputs #[] with
  | ok result => exact ⟨result, rfl⟩
  | error e =>
    rw [ran] at finishes
    rcases finishes with ⟨w, solved⟩ | ⟨circuit, index, value, violated⟩
    · cases solved
    · have other := (Interp.solve_blames solver.hints config.hintMode).run _ _ _ _ _ e ran circuit index value
      exact absurd (Except.error.inj violated) other

end Solver

namespace Design

/-- A design was lowered, or it was solved on some inputs, whether or not they meet its constraints. -/
def WentThrough (D : Design F) : Prop :=
  (∃ removeDead L, D.emit removeDead = .ok L) ∨
    ∃ (hints : HintRegistry F) (solver : Solver F), Solver.new D hints = .ok solver ∧
      ∃ inputs config, solver.Finishes inputs config

theorem succeeds_of_emit {D : Design F} {removeDead : Bool} {L : LayeredCircuit F} (emitted : D.emit removeDead = .ok L) :
    Interp.emit.Succeeds D .entry := by
  obtain ⟨entry, found, emitted⟩ := bind_eq_ok.mp emitted
  obtain ⟨result, ran, -⟩ := bind_eq_ok.mp emitted
  have found := circuit_eq_ok_iff.mp (mapError_eq_ok.mp found)
  exact ⟨entry, _, _, _, result, found, (Arena.length_pushInputs entry.numInputs _).symm, ran⟩

theorem succeeds_of_solve {D : Design F} {hints : HintRegistry F} {solver : Solver F} (made : Solver.new D hints = .ok solver)
    {inputs : List (Scalar F)} {config : SolverConfig} (finishes : solver.Finishes inputs config) :
    (Interp.solve hints config.hintMode).Succeeds D .entry := by
  obtain ⟨-, entry, found, rfl⟩ := Solver.new_eq_ok_iff.mp made
  obtain ⟨length, result, ran⟩ := finishes.exists_run
  exact ⟨entry, _, inputs, #[], result, found, length.symm, ran⟩

/-- Once a design was lowered or solved, every circuit that its entry reaches is known to be there and to pass its
    check, but for the number of its public inputs. It then keeps the rules, if a machine word can count its wires. -/
theorem Draft.reached_checks {D : Design F} (draft : D.Draft) (through : D.WentThrough) (id : CircuitId)
    (reached : Relation.ReflTransGen D.Calls .entry id) :
    ∃ c, D.get? id = some c ∧ ({ c with numPublic := 0 } : Circuit F).check D id = .ok () ∧
      (c.wireCount < 2 ^ 64 → ({ c with numPublic := 0 } : Circuit F).Lawful D) := by
  rcases through with ⟨removeDead, L, emitted⟩ | ⟨hints, solver, made, inputs, config, finishes⟩
  · exact (succeeds_of_emit emitted).checks Interp.emit_answers draft reached
  · exact (succeeds_of_solve made finishes).checks (Interp.solve_answers hints config.hintMode) draft reached

/-- A design whose circuit 1 has more public inputs than inputs, and whose circuit 2, which nothing calls, reads a
    wire that is never defined. -/
def unchecked : Design .mersenne31 :=
  .ofList [(.entry, ⟨1, 0, [.call 1 [.wire 1] [2]], [.wire 2], [.wire 2]⟩),
    (1, ⟨1, 3, [.product (.wire 1) (.wire 1) 2], [], [.wire 2]⟩),
    (2, ⟨0, 0, [.linear (.wire 7) 1], [], []⟩)]

theorem unchecked_cases {id : CircuitId} {c : Circuit .mersenne31} (found : unchecked.get? id = some c) :
    (id = 0 ∧ c = ⟨1, 0, [.call 1 [.wire 1] [2]], [.wire 2], [.wire 2]⟩) ∨
      (id = 1 ∧ c = ⟨1, 3, [.product (.wire 1) (.wire 1) 2], [], [.wire 2]⟩) ∨
      (id = 2 ∧ c = ⟨0, 0, [.linear (.wire 7) 1], [], []⟩) := by
  have listed : (id, c) ∈ [(0, ⟨1, 0, [.call 1 [.wire 1] [2]], [.wire 2], [.wire 2]⟩),
      (1, ⟨1, 3, [.product (.wire 1) (.wire 1) 2], [], [.wire 2]⟩), (2, ⟨0, 0, [.linear (.wire 7) 1], [], []⟩)] :=
    Table.get?_eq_some_iff.mp found
  simpa using listed

theorem unchecked_draft : unchecked.Draft where
  entry := ⟨_, rfl⟩
  canonical found := by
    rcases unchecked_cases found with ⟨-, rfl⟩ | ⟨-, rfl⟩ | ⟨-, rfl⟩ <;> decide
  acyclic id cycle := by
    have rises {caller callee : CircuitId} (calls : unchecked.Calls caller callee) : caller < callee := by
      obtain ⟨c, found, inputs, outputs, member⟩ := calls
      rcases unchecked_cases found with ⟨rfl, rfl⟩ | ⟨rfl, rfl⟩ | ⟨rfl, rfl⟩ <;> simp_all
    have climbs {first last : CircuitId} (path : Relation.TransGen unchecked.Calls first last) : first < last := by
      induction path with
      | single calls => exact rises calls
      | tail _ calls below => exact Nat.lt_trans below (rises calls)
    exact Nat.lt_irrefl id (climbs cycle)

theorem unchecked_reached_checks :
    unchecked.Draft ∧ unchecked.validate ≠ .ok () ∧
      Solver.solve ⟨unchecked, ∅, 1, 0⟩ [3] {} = .error (.violated .entry 0 9) ∧
      Relation.ReflTransGen unchecked.Calls .entry 1 ∧
      ∃ c, unchecked.get? 1 = some c ∧ ({ c with numPublic := 0 } : Circuit .mersenne31).check unchecked 1 = .ok () ∧
        ({ c with numPublic := 0 } : Circuit .mersenne31).Lawful unchecked := by
  have violated : Solver.solve ⟨unchecked, ∅, 1, 0⟩ [3] {} = .error (.violated .entry 0 9) := by
    decide +kernel
  have reached : Relation.ReflTransGen unchecked.Calls .entry 1 :=
    .single ⟨_, rfl, [.wire 1], [2], List.mem_singleton_self _⟩
  obtain ⟨c, found, checked, lawful⟩ :=
    unchecked_draft.reached_checks (.inr ⟨∅, _, rfl, [3], {}, .inr ⟨.entry, 0, 9, violated⟩⟩) 1 reached
  obtain rfl : ⟨1, 3, [.product (.wire 1) (.wire 1) 2], [], [.wire 2]⟩ = c := Option.some.inj found
  exact ⟨unchecked_draft, by decide, violated, reached, _, found, checked, lawful (by decide)⟩

end Design
end ArithCircuit
