import ArithCircuit.Builder.Definition
import ArithCircuit.Proofs.Builder.Gadgets

/-!
Inputs, outputs and calls of a circuit that is being recorded, and the assignments that satisfy the
circuit it becomes.
-/
namespace ArithCircuit
variable {F : ScalarField}

namespace Builder
variable {W : World F} {b : Builder F}

theorem satisfying_circuit_iff (possible : b.unsatisfiable = none) {inputs : List (Scalar F)} {w : Wire → Scalar F} :
    b.circuit.Satisfying W inputs w ↔ b.Satisfied W w ∧ inputValues b.numInputs w = inputs := by
  constructor
  · exact fun satisfying =>
      ⟨⟨possible, satisfying.one, satisfying.instructions, satisfying.constraints⟩, satisfying.inputs⟩
  · exact fun ⟨satisfied, inputs⟩ => ⟨satisfied.one, inputs, satisfied.instructions, satisfied.constraints⟩

theorem add_one_lt_of_checkInputCount {numInputs : Nat} (few : checkInputCount numInputs = .ok ()) :
    numInputs + 1 < 2 ^ 32 := by
  rw [checkInputCount] at few
  split at few
  · rename_i below
    exact Nat.add_lt_of_lt_sub below
  · cases few

theorem good_blank (W : World F) {numInputs : Nat} (few : checkInputCount numInputs = .ok ()) (numPublic : Nat)
    (hints : HintRegistry F) (subs : SubCircuits F) : (blank numInputs numPublic hints subs).Good W where
  few := add_one_lt_of_checkInputCount few
  count := Nat.add_comm ..
  numbered := nofun
  inScope := nofun
  constraints := nofun
  outputs := nofun
  booleans _ member := absurd member Std.TreeSet.not_mem_emptyc
  hints := nofun
  calls := nofun

theorem start_eq_ok_iff {numInputs numPublic : Nat} {hints : HintRegistry F} :
    start numInputs numPublic hints = .ok b ↔
      checkInputCount numInputs = .ok () ∧ numPublic ≤ numInputs ∧ b = blank numInputs numPublic hints .empty := by
  constructor
  · intro started
    obtain ⟨⟨⟩, few, rest⟩ := ArithCircuit.bind_eq_ok.mp started
    split at rest
    · cases rest
    · rename_i within
      cases rest
      exact ⟨few, Nat.le_of_not_lt within, rfl⟩
  · rintro ⟨few, within, rfl⟩
    rw [start, few, ok_bind, if_neg (Nat.not_lt.mpr within)]
    rfl

/-- The assignment of a circuit in which only the inputs have values. -/
def inputWires (inputs : List (Scalar F)) : Wire → Scalar F
  | 0 => 1
  | i + 1 => inputs.getD i 0

theorem inputValues_inputWires (inputs : List (Scalar F)) : inputValues inputs.length (inputWires inputs) = inputs := by
  refine List.ext_getElem (by simp) fun i _ below => ?_
  simp [inputValues, inputWires, Wire.input, below]

theorem satisfied_blank {numInputs numPublic : Nat} {hints : HintRegistry F} {subs : SubCircuits F}
    {w : Wire → Scalar F} (one : w Wire.one = 1) : (blank numInputs numPublic hints subs).Satisfied W w :=
  ⟨rfl, one, nofun, nofun⟩

theorem Performs.get {α β : Type} [Readout F α β] {next : Builder F → Build F α} {R : (Wire → Scalar F) → β → Prop}
    (performs : Performs W b (next b) R) : Performs W b (MonadState.get >>= next) R :=
  performs

theorem input_performs (good : b.Good W) (index : Nat) :
    Performs W b (input index) fun w z => (inputValues b.numInputs w)[index]? = some z := by
  refine Performs.get ?_
  split
  · exact .failed _ nofun
  · rename_i inside
    have below : index < b.numInputs := Nat.lt_of_not_le inside
    have reads : (LinearForm.wire (Wire.input index) : LinearForm F).Reads b.nextWire :=
      LinearForm.reads_wire ((Nat.succ_le_of_lt below).trans_lt good.inputs)
    refine (Performs.form good reads).congr fun _ => ?_
    simp [inputValues, below, eq_comm]

theorem inputs_performs (good : b.Good W) :
    Performs W b inputs fun w ys => ys = inputValues b.numInputs w := by
  refine Performs.get (Performs.congr (Performs.pure good ?_) fun _ => ?_)
  · refine List.forall_mem_map.mpr fun i member => LinearForm.reads_wire ?_
    exact (Nat.succ_le_of_lt (List.mem_range.mp member)).trans_lt good.inputs
  · simp [inputValues, Function.comp_def]

/-- A call shows what the world allows, as many values as the callee has outputs. -/
theorem call_performs (good : b.Good W) (id : CircuitId) {args : List (LinearForm F)}
    (reads : ∀ e ∈ args, e.Reads b.nextWire) :
    Performs W b (call id args) fun w ys => ∃ c, b.subCircuits.get? id = some c ∧ c.numInputs = args.length ∧
      ys.length = c.outputs.length ∧ W.call id (args.map (·.eval w)) ys := by
  refine Performs.get ?_
  split
  · exact .failed _ nofun
  · rename_i callee found
    split
    · exact .failed _ nofun
    · rename_i arity
      refine (performs_wires good (fun outs => .call id args outs) (fun _ => rfl) callee.outputs.length (fun _ => reads)
        nofun fun _ other same => ?_).congr fun _ => ?_
      · cases Option.some.inj same
        exact ⟨callee, found⟩
      · simp [found, not_not.mp arity, Instruction.Produces]

theorem outputAll_eq (es : List (LinearForm F)) (b : Builder F) :
    outputAll es b = .ok () { b with outputs := b.outputs ++ es } := by
  induction es generalizing b with
  | nil => simp [outputAll, pure, EStateM.pure]
  | cons e rest ih =>
    refine bind_eq_ok.mpr ⟨(), _, rfl, ?_⟩
    rw [ih]
    simp

end Builder
end ArithCircuit
