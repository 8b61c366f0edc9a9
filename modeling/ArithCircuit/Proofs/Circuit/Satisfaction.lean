import ArithCircuit.Proofs.Circuit.Validity
import ArithCircuit.Proofs.Execution.Trace

/-!
Circuits as systems of equations. An assignment of values to all wires at once satisfies a circuit if
every instruction and every constraint holds under it; what calls give is left open. In a checked
design whose wires a machine word can count this is the same as running the circuit: the values of a
run are an assignment, and an assignment can be read off wire by wire.
-/
namespace ArithCircuit
variable {F : ScalarField}

/-- What hints may give and what calls give. -/
structure World (F : ScalarField) where
  rule : HintRule F
  call : CircuitId → List (Scalar F) → List (Scalar F) → Prop

/-- Hints keep to a rule and calls may give anything. -/
def World.free (rule : HintRule F) : World F := ⟨rule, fun _ _ _ => True⟩

namespace Instruction

/-- The values that an instruction may give to its outputs, if wires have these values. -/
def Produces (W : World F) (w : Wire → Scalar F) : Instruction F → List (Scalar F) → Prop
  | linear form _, ys => ys = [form.eval w]
  | product lhs rhs _, ys => ys = [lhs.eval w * rhs.eval w]
  | hint name inputs _, ys => W.rule name (inputs.map (·.eval w)) ys
  | call callee inputs _, ys => W.call callee (inputs.map (·.eval w)) ys

/-- An instruction agrees with the values of the wires. -/
def Holds (W : World F) (w : Wire → Scalar F) (i : Instruction F) : Prop := i.Produces W w (i.outputs.map w)

/-- An instruction reads and defines only the first wires. -/
structure Scoped (n : Nat) (i : Instruction F) : Prop where
  inputs : ∀ e ∈ i.inputs, e.Reads n
  outputs : ∀ out ∈ i.outputs, out < n

theorem produces_congr {W : World F} {n : Nat} {w w' : Wire → Scalar F} {i : Instruction F} {ys : List (Scalar F)}
    (reads : ∀ e ∈ i.inputs, e.Reads n) (agree : LinearForm.Agree n w w') :
    i.Produces W w ys ↔ i.Produces W w' ys := by
  have same (e : LinearForm F) (member : e ∈ i.inputs) : e.eval w = e.eval w' := LinearForm.eval_congr (reads e member) agree
  cases i with
  | linear form out => rw [Produces, Produces, same form (by simp [inputs])]
  | product lhs rhs out => rw [Produces, Produces, same lhs (by simp [inputs]), same rhs (by simp [inputs])]
  | hint name ins outs =>
    have args : ins.map (·.eval w) = ins.map (·.eval w') := List.map_congr_left same
    rw [Produces, Produces, args]
  | call callee ins outs =>
    have args : ins.map (·.eval w) = ins.map (·.eval w') := List.map_congr_left same
    rw [Produces, Produces, args]

theorem Scoped.holds_congr {W : World F} {n : Nat} {w w' : Wire → Scalar F} {i : Instruction F} (inScope : i.Scoped n)
    (agree : LinearForm.Agree n w w') : i.Holds W w ↔ i.Holds W w' := by
  have outputs : i.outputs.map w = i.outputs.map w' :=
    List.map_congr_left fun out member => agree out (inScope.outputs out member)
  rw [Holds, Holds, outputs, produces_congr inScope.inputs agree]

theorem Scoped.mono {m n : Nat} (le : m ≤ n) {i : Instruction F} (inScope : i.Scoped m) : i.Scoped n :=
  ⟨fun e member => LinearForm.reads_mono le (inScope.inputs e member),
    fun out member => (inScope.outputs out member).trans_le le⟩

end Instruction

/-- The values of the first wires after the constant one. -/
def inputValues (count : Nat) (w : Wire → Scalar F) : List (Scalar F) := (List.range count).map fun i => w (Wire.input i)

@[simp] theorem length_inputValues (count : Nat) (w : Wire → Scalar F) : (inputValues count w).length = count := by
  simp [inputValues]

theorem inputValues_congr {count n : Nat} (few : count < n) {w w' : Wire → Scalar F} (agree : LinearForm.Agree n w w') :
    inputValues count w = inputValues count w' := by
  refine List.map_congr_left fun i member => agree (Wire.input i) ?_
  exact (Nat.succ_le_of_lt (List.mem_range.mp member)).trans_lt few

/-- An assignment with the given inputs that satisfies a circuit. -/
structure Circuit.Satisfying (W : World F) (c : Circuit F) (inputs : List (Scalar F)) (w : Wire → Scalar F) : Prop where
  one : w Wire.one = 1
  inputs : inputValues c.numInputs w = inputs
  instructions : ∀ i ∈ c.instructions, i.Holds W w
  constraints : ∀ e ∈ c.constraints, e.eval w = 0

/-- Satisfaction depends on what the calls of the circuit give. -/
theorem Circuit.satisfying_congr {rule : HintRule F} {call call' : CircuitId → List (Scalar F) → List (Scalar F) → Prop}
    {c : Circuit F} (same : ∀ i ∈ c.instructions, ∀ id, i.callee? = some id → ∀ xs ys, call id xs ys ↔ call' id xs ys)
    {inputs : List (Scalar F)} {w : Wire → Scalar F} :
    c.Satisfying ⟨rule, call⟩ inputs w ↔ c.Satisfying ⟨rule, call'⟩ inputs w := by
  have holds (i : Instruction F) (member : i ∈ c.instructions) : i.Holds ⟨rule, call⟩ w ↔ i.Holds ⟨rule, call'⟩ w := by
    cases i with
    | linear => rfl
    | product => rfl
    | hint => rfl
    | call id inputs outs => exact same _ member id rfl _ _
  constructor
  · exact fun s => ⟨s.one, s.inputs, fun i member => (holds i member).mp (s.instructions i member), s.constraints⟩
  · exact fun s => ⟨s.one, s.inputs, fun i member => (holds i member).mpr (s.instructions i member), s.constraints⟩

/-- A circuit of a design runs on inputs with every constraint satisfied and returns outputs. -/
def Design.Computes (D : Design F) (rule : HintRule F) (id : CircuitId) (inputs outputs : List (Scalar F)) : Prop :=
  ∃ hints R, Executes D rule id inputs hints R ∧ R.Satisfied D ∧ R.outputs = outputs

/-! ### From a run to an assignment -/

theorem agree_of_append {values new final : List (Scalar F)} (early : values ++ new <+: final) :
    LinearForm.Agree values.length (values.getD · 0) (final.getD · 0) := by
  obtain ⟨rest, rfl⟩ := early
  intro v below
  simp [List.getElem?_append_left below]

theorem map_range'_of_append {values new final : List (Scalar F)} (early : values ++ new <+: final) :
    (List.range' values.length new.length).map (final.getD · 0) = new := by
  obtain ⟨rest, rfl⟩ := early
  refine List.ext_getElem (by simp) fun i _ below => ?_
  simp [List.getElem?_append_right, List.getElem?_append_left below, below]

/-- An instruction that gave the next values holds under all values, if those after it do. -/
theorem holds_cons {D : Design F} {W : World F} {i : Instruction F} {rest : List (Instruction F)}
    {values new final : List (Scalar F)} (small : final.length ≤ 2 ^ 64) (sequenced : Sequenced D values.length (i :: rest))
    (outputs : i.outputs = nextWires values.length new.length) (produces : i.Produces W (values.getD · 0) new)
    (later : Sequenced D (values ++ new).length rest →
      values ++ new <+: final ∧ ∀ j ∈ rest, j.Holds W (final.getD · 0)) :
    values <+: final ∧ ∀ j ∈ i :: rest, j.Holds W (final.getD · 0) := by
  obtain ⟨readable, _, _, following⟩ := sequenced
  obtain ⟨early, holds⟩ := later (by rwa [outputs, length_nextWires, ← List.length_append] at following)
  refine ⟨(List.prefix_append _ _).trans early, List.forall_mem_cons.mpr ⟨?_, holds⟩⟩
  have within : values.length + new.length ≤ 2 ^ 64 := by
    rw [← List.length_append]
    exact early.length_le.trans small
  rw [Instruction.Holds, outputs, nextWires_eq_range' within, map_range'_of_append early]
  exact (Instruction.produces_congr (fun e member => (readable e member).reads_of_word) (agree_of_append early)).mp produces

/-- The values of a trace satisfy its instructions. -/
theorem Trace.holds {D : Design F} {rule : HintRule F} {instructions : List (Instruction F)}
    {values hints final : List (Scalar F)} {instances : List (Instance F)}
    (trace : Trace D rule instructions values hints final instances) (small : final.length ≤ 2 ^ 64)
    (sequenced : Sequenced D values.length instructions) (satisfied : ∀ inst ∈ instances, inst.Satisfied D) :
    values <+: final ∧ ∀ i ∈ instructions, i.Holds ⟨rule, D.Computes rule⟩ (final.getD · 0) := by
  induction trace with
  | done values => exact ⟨List.prefix_rfl, nofun⟩
  | linear next later ih =>
    exact holds_cons small sequenced (by rw [next]; rfl) rfl fun following => ih small following satisfied
  | product next later ih =>
    exact holds_cons small sequenced (by rw [next]; rfl) rfl fun following => ih small following satisfied
  | hint next answered later ih =>
    exact holds_cons small sequenced next answered fun following => ih small following satisfied
  | @call callee c inputs outs rest values inner innerHints hints final innerInstances instances found fits next called
      later _ ih =>
    obtain ⟨own, others⟩ := List.forall_mem_append.mp satisfied
    refine holds_cons small sequenced (by rw [List.length_map]; exact next) ?_ fun following => ih small following others
    exact ⟨innerHints, ⟨⟨callee, inner.toArray⟩ :: innerInstances, c.outputs.map (·.on inner)⟩,
      ⟨c, inner, innerInstances, found, by rw [fits, List.length_map], called, rfl⟩, own, rfl⟩

/-! ### From an assignment to a run -/

theorem LinearForm.on_map_range {n : Nat} {e : LinearForm F} (reads : e.Reads n) (w : Wire → Scalar F) :
    e.on ((List.range n).map w) = e.eval w := by
  refine eval_congr reads fun v below => ?_
  simp [below]

theorem map_range_add (n count : Nat) (w : Wire → Scalar F) :
    (List.range (n + count)).map w = (List.range n).map w ++ (List.range' n count).map w := by
  rw [List.range_add, List.map_append, List.range'_eq_map_range]

/-- The first values of an assignment are the constant one and the inputs. -/
theorem map_range_inputs {w : Wire → Scalar F} (one : w Wire.one = 1) (count : Nat) :
    (List.range (1 + count)).map w = 1 :: inputValues count w := by
  rw [← one, Nat.add_comm, List.range_succ_eq_map, List.map_cons, List.map_map]
  rfl

/-- An assignment that satisfies instructions is read off by a trace. -/
theorem Trace.of_holds {D : Design F} {rule : HintRule F} {w : Wire → Scalar F} {instructions : List (Instruction F)}
    {n : Nat} (small : n + sumOver (·.outputs.length) instructions ≤ 2 ^ 64) (sequenced : Sequenced D n instructions)
    (holds : ∀ i ∈ instructions, i.Holds ⟨rule, D.Computes rule⟩ w) :
    ∃ hints instances, Trace D rule instructions ((List.range n).map w) hints
      ((List.range (n + sumOver (·.outputs.length) instructions)).map w) instances ∧
      ∀ inst ∈ instances, inst.Satisfied D := by
  induction instructions generalizing n with
  | nil => exact ⟨[], [], .done _, nofun⟩
  | cons i rest ih =>
    obtain ⟨readable, fits, outputs, following⟩ := sequenced
    obtain ⟨here, others⟩ := List.forall_mem_cons.mp holds
    rw [sumOver_cons, ← Nat.add_assoc] at small ⊢
    obtain ⟨hints, instances, later, satisfied⟩ := ih small following others
    have wires : List.range' n i.outputs.length = i.outputs :=
      (nextWires_eq_range' ((Nat.le_add_right ..).trans small)).symm.trans outputs.symm
    rw [map_range_add, wires] at later
    have on (e : LinearForm F) (member : e ∈ i.inputs) : e.on ((List.range n).map w) = e.eval w :=
      LinearForm.on_map_range (readable e member).reads_of_word w
    rw [Instruction.Holds] at here
    generalize n + i.outputs.length + sumOver (·.outputs.length) rest = total at later ⊢
    cases i with
    | linear form out =>
      rw [here] at later
      refine ⟨hints, instances, .linear (by simpa [Instruction.outputs] using outputs) ?_, satisfied⟩
      rwa [on form (by simp [Instruction.inputs])]
    | product lhs rhs out =>
      rw [here] at later
      refine ⟨hints, instances, .product (by simpa [Instruction.outputs] using outputs) ?_, satisfied⟩
      rwa [on lhs (by simp [Instruction.inputs]), on rhs (by simp [Instruction.inputs])]
    | hint name inputs outs =>
      have args : inputs.map (·.on ((List.range n).map w)) = inputs.map (·.eval w) := List.map_congr_left on
      refine ⟨outs.map w ++ hints, instances, .hint (by simpa [Instruction.outputs] using outputs) ?_ later, satisfied⟩
      rw [args]
      exact here
    | call callee inputs outs =>
      obtain ⟨innerHints, R, ⟨c, inner, innerInstances, found, arity, called, rfl⟩, own, returned⟩ := here
      have args : inputs.map (·.on ((List.range n).map w)) = inputs.map (·.eval w) := List.map_congr_left on
      have returned : c.outputs.map (·.on inner) = outs.map w := returned
      have count : c.outputs.length = outs.length := by simpa using congrArg List.length returned
      rw [← args] at called
      refine ⟨innerHints ++ hints, ⟨callee, inner.toArray⟩ :: innerInstances ++ instances, ?_,
        List.forall_mem_append.mpr ⟨own, satisfied⟩⟩
      refine .call found (by simpa using arity) (by simpa [count, Instruction.outputs] using outputs) called ?_
      rw [returned]
      exact later

/-- In a checked design, running a circuit is finding an assignment that satisfies it, calls being runs. -/
theorem Design.computes_iff {D : Design F} (valid : D.Valid) (small : D.Addressable) {rule : HintRule F} {id : CircuitId}
    {inputs outputs : List (Scalar F)} :
    D.Computes rule id inputs outputs ↔ ∃ c w, D.get? id = some c ∧ c.Satisfying ⟨rule, D.Computes rule⟩ inputs w ∧
      c.outputs.map (·.eval w) = outputs := by
  constructor
  · rintro ⟨hints, R, ⟨c, final, instances, found, arity, trace, rfl⟩, satisfied, returned⟩
    have wellFormed := valid.wellFormed found
    obtain ⟨own, others⟩ := List.forall_mem_cons.mp satisfied
    have within : final.length ≤ 2 ^ 64 := (trace.length_eq_wireCount arity).le.trans (small found).le
    obtain ⟨⟨rest, rfl⟩, holds⟩ :=
      trace.holds within (by simpa [arity, Nat.add_comm] using wellFormed.instructions) others
    refine ⟨c, _, found, ⟨rfl, ?_, holds, own c found⟩, returned⟩
    refine List.ext_getElem (by simp [arity]) fun i _ below => ?_
    simp [inputValues, Wire.input, List.getElem?_append_left below, List.getElem?_eq_getElem below]
  · rintro ⟨c, w, found, satisfying, rfl⟩
    have wellFormed := valid.wellFormed found
    obtain ⟨hints, instances, trace, satisfied⟩ :=
      Trace.of_holds (small found).le wellFormed.instructions satisfying.instructions
    rw [map_range_inputs satisfying.one, satisfying.inputs] at trace
    have arity : c.numInputs = inputs.length := by rw [← satisfying.inputs, length_inputValues]
    have on (e : LinearForm F) (readable : e.Readable (machineWord c.wireCount)) :
        e.on ((List.range c.wireCount).map w) = e.eval w :=
      LinearForm.on_map_range readable.reads_of_word w
    refine ⟨hints, _, ⟨c, _, instances, found, arity, trace, rfl⟩, List.forall_mem_cons.mpr ⟨?_, satisfied⟩, ?_⟩
    · intro c' found' e member
      cases found.symm.trans found'
      exact (on e (wellFormed.constraints e member)).trans (satisfying.constraints e member)
    · exact List.map_congr_left fun e member => on e (wellFormed.outputs e member)

end ArithCircuit
