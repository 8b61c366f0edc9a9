import Mathlib.Logic.Relation
import ArithCircuit.Proofs.Layered.Emission

/-!
Removing dead gates shows in no evaluation and leaves no dead gate. A sweep from the last gate to the
first marks inputs and, beyond these, only gates that a root is computed from. The layout keeps the
marked gates with all their operands, so each path from a root to a gate is a path between their new
numbers, and the roots are the outputs and the constraint gates of the circuit.
-/
namespace ArithCircuit
variable {F : ScalarField}

namespace Layout
variable {nodes : Array (Node F)} {roots : List Nat}

/-- A gate is an input, or a root is computed from it through any number of gates. -/
def Required (nodes : Array (Node F)) (roots : List Nat) (gate : Nat) : Prop :=
  InputAt nodes gate ∨ ∃ root ∈ roots, Relation.ReflTransGen (Reads nodes) root gate

theorem Required.operand {user operand : Nat} (required : Required nodes roots user)
    (reads : Reads nodes user operand) : Required nodes roots operand := by
  rcases required with input | ⟨root, member, path⟩
  · exact absurd reads input.reads_nothing
  · exact .inr ⟨root, member, path.tail reads⟩

/-- A sweep that starts from marks of required gates marks required gates only. -/
theorem required_of_sweep (ordered : Ordered nodes) (count : Nat) {live : Array Bool} (size : live.size = nodes.size)
    (start : ∀ gate, Marked live gate → Required nodes roots gate) :
    ∀ gate, Marked (sweep nodes count live) gate → Required nodes roots gate := by
  induction count generalizing live with
  | zero => exact start
  | succ count ih =>
    obtain ⟨next, swept, size, marks⟩ := sweep_succ ordered count size
    rw [swept]
    refine ih size fun gate marked => ?_
    rcases (marks gate).mp marked with old | ⟨rfl, input⟩ | ⟨user, reads⟩
    · exact start gate old
    · exact .inl input
    · exact (start count user).operand reads

theorem not_marked_replicate (count gate : Nat) : ¬ Marked (Array.replicate count false) gate := by
  rw [Marked, Array.getD_eq_getD_getElem?, Array.getElem?_replicate]
  split <;> exact Bool.false_ne_true

/-- Without dead gates, a kept gate is required. -/
theorem required_of_kept (ordered : Ordered nodes) {gate : Nat} (marked : Marked (kept nodes roots true) gate) :
    Required nodes roots gate := by
  refine required_of_sweep ordered nodes.size (by simp) (fun gate marked => ?_) gate marked
  rcases marked_mark.mp marked with unmarked | ⟨member, -⟩
  · exact absurd unmarked (not_marked_replicate nodes.size gate)
  · exact .inr ⟨gate, member, .refl⟩

end Layout

namespace LayeredCircuit

/-- One gate of a circuit has another as an operand. -/
def Operand (c : LayeredCircuit F) (user operand : Nat) : Prop :=
  ∃ gate a b, c.gates[user]? = some gate ∧ gate.operands? = some (a, b) ∧ (operand = a ∨ operand = b)

/-- A gate is an output or a constraint gate, or an operand, through one or more steps, of one. -/
def Needed (c : LayeredCircuit F) (gate : Nat) : Prop :=
  ∃ root ∈ c.outputs ++ c.constraints, Relation.ReflTransGen c.Operand root gate

end LayeredCircuit

namespace Arena
variable {arena : Arena F} {live : Array Bool} {outputs : List Nat} {numExternal numPublic : Nat}

/-- The operands of a kept gate are operands of the gate at its new number. -/
theorem operand_position {i j : Nat} (marked : Layout.Marked live i) (reads : Layout.Reads arena.nodes i j) :
    (arena.laidOut live outputs numExternal numPublic).Operand (Layout.position arena.nodes live i)
      (Layout.position arena.nodes live j) := by
  obtain ⟨node, a, b, found, operands, same⟩ := reads
  obtain ⟨here, -⟩ := Layout.position_spec found marked
  refine ⟨arena.placed live i, _, _, ?_, ?_, same.imp (congrArg _) (congrArg _)⟩
  · rw [gates_laidOut, List.getElem?_map, here, Option.map_some]
  · rw [placed_eq found, Gate.operands?_renumber, operands, Option.map_some, Prod.map_apply]

/-- A path from a kept gate runs through kept gates, and there is one between the new numbers. -/
theorem path_position (needs : ∀ i, Layout.Needs arena.nodes live i) {i j : Nat} (marked : Layout.Marked live i)
    (path : Relation.ReflTransGen (Layout.Reads arena.nodes) i j) :
    Layout.Marked live j ∧ Relation.ReflTransGen (arena.laidOut live outputs numExternal numPublic).Operand
      (Layout.position arena.nodes live i) (Layout.position arena.nodes live j) := by
  induction path with
  | refl => exact ⟨marked, .refl⟩
  | tail _ reads ih =>
    obtain ⟨alive, walked⟩ := ih
    refine ⟨?_, walked.tail (operand_position alive reads)⟩
    obtain ⟨node, a, b, found, operands, same⟩ := reads
    obtain ⟨markedA, markedB⟩ := (needs _).operands found alive a b operands
    rcases same with rfl | rfl
    · exact markedA
    · exact markedB

/-- Every gate of a laid out circuit stands for a kept gate, at its new number. -/
theorem exists_of_gate {p : Nat} {gate : Gate F}
    (found : (arena.laidOut live outputs numExternal numPublic).gates[p]? = some gate) :
    ∃ i node, arena.nodes[i]? = some node ∧ Layout.Marked live i ∧ p = Layout.position arena.nodes live i ∧
      gate = node.gate.renumber (Layout.position arena.nodes live) := by
  rw [gates_laidOut, List.getElem?_map] at found
  obtain ⟨i, here, rfl⟩ := Option.map_eq_some_iff.mp found
  obtain ⟨node, old, marked⟩ := Layout.mem_order (List.mem_of_getElem? here)
  obtain ⟨inside, -⟩ := Array.getElem?_eq_some_iff.mp old
  exact ⟨i, node, old, marked, (Layout.positions_getD (Layout.nodup_order _ _) inside here).symm, placed_eq old⟩

/-- In a layout without dead gates, the gates other than inputs are all needed. -/
theorem needed_of_removeDead (wellFormed : arena.WellFormed) (inside : ∀ gate ∈ outputs, gate < arena.nodes.size)
    {p : Nat} {gate : Gate F}
    (found : (arena.laidOut (Layout.kept arena.nodes (outputs ++ arena.constraints.toList) true) outputs numExternal
      numPublic).gates[p]? = some gate) (other : gate.kind ≠ .input) :
    (arena.laidOut (Layout.kept arena.nodes (outputs ++ arena.constraints.toList) true) outputs numExternal
      numPublic).Needed p := by
  obtain ⟨roots, needs⟩ := Layout.kept_spec wellFormed.operands (outputs ++ arena.constraints.toList) true
  obtain ⟨i, node, old, marked, rfl, rfl⟩ := exists_of_gate found
  rcases Layout.required_of_kept wellFormed.operands marked with ⟨node', old', isIn⟩ | ⟨root, member, path⟩
  · cases old.symm.trans old'
    rw [Gate.kind_renumber] at other
    exact absurd (beq_iff_eq.mp isIn) other
  · have rootInside : root < arena.nodes.size :=
      (List.mem_append.mp member).elim (inside root) (wellFormed.constraints root)
    refine ⟨_, ?_, (path_position needs (roots root member rootInside) path).2⟩
    rw [laidOut, ← List.map_append]
    exact List.mem_map_of_mem member

end Arena

/-- Removing dead gates from the circuit of a checked design shows in no evaluation, be its result
    outputs, a violated constraint or a wrong number of inputs. It keeps the numbers of inputs, outputs
    and constraints, and all the gates it leaves but the inputs are needed. -/
theorem Design.emit_removeDead {D : Design F} (checked : D.validate = .ok ()) :
    ∃ P Q, D.emit true = .ok P ∧ D.emit false = .ok Q ∧ (∀ v, P.evaluate v = Q.evaluate v) ∧
      (P.numInputs = Q.numInputs ∧ P.numExternal = Q.numExternal ∧ P.numPublic = Q.numPublic) ∧
      (P.outputs.length = Q.outputs.length ∧ P.constraints.length = Q.constraints.length) ∧
      ∀ i gate, P.gates[i]? = some gate → gate.kind ≠ .input → P.Needed i := by
  have valid := D.valid_of_validate checked
  obtain ⟨entry, arena, outputs, found, wellFormed, inside, external, emits, -⟩ := Design.lowers valid []
  have numPublic := (valid.wellFormed found).numPublic
  obtain ⟨P, sameP, acceptedP, valuesP⟩ := Arena.layout_spec wellFormed inside true numPublic external
  obtain ⟨Q, sameQ, acceptedQ, valuesQ⟩ := Arena.layout_spec wellFormed inside false numPublic external
  refine ⟨P, Q, (emits true P).mpr ⟨sameP, acceptedP⟩, (emits false Q).mpr ⟨sameQ, acceptedQ⟩, fun v => ?_, ?_, ?_, ?_⟩
  · exact LayeredCircuit.evaluate_congr (by rw [sameP, sameQ]) ((valuesP v).1.trans (valuesQ v).1.symm)
      ((valuesP v).2.trans (valuesQ v).2.symm)
  · rw [sameP, sameQ]
    exact ⟨rfl, rfl, rfl⟩
  · have outputs := congrArg List.length ((valuesP []).1.trans (valuesQ []).1.symm)
    have constraints := congrArg List.length ((valuesP []).2.trans (valuesQ []).2.symm)
    simp only [List.length_map] at outputs constraints
    exact ⟨outputs, constraints⟩
  · rw [Arena.layout_eq] at sameP
    rw [sameP]
    exact fun i gate => Arena.needed_of_removeDead wellFormed inside

/-- A design that computes a square and a cube, and demands and returns the square only. -/
def Design.squareOnly : Design .mersenne31 :=
  .ofList [(.entry, ⟨1, 0, [.product (.wire 1) (.wire 1) 2, .product (.wire 1) (.wire 2) 3],
    [⟨[⟨-4, .one⟩, ⟨1, 2⟩]⟩], [.wire 2]⟩)]

theorem Design.squareOnly_emit_removeDead :
    Design.squareOnly.validate = .ok () ∧
      (Design.squareOnly.emit true).toOption.map (·.gates.length) = some 4 ∧
      (Design.squareOnly.emit false).toOption.map (·.gates.length) = some 5 ∧
      ∃ P Q, Design.squareOnly.emit true = .ok P ∧ Design.squareOnly.emit false = .ok Q ∧
        (∀ v, P.evaluate v = Q.evaluate v) ∧
        (P.numInputs = Q.numInputs ∧ P.numExternal = Q.numExternal ∧ P.numPublic = Q.numPublic) ∧
        (P.outputs.length = Q.outputs.length ∧ P.constraints.length = Q.constraints.length) ∧
        ∀ i gate, P.gates[i]? = some gate → gate.kind ≠ .input → P.Needed i :=
  ⟨by decide, by decide +kernel, by decide +kernel, Design.emit_removeDead (by decide)⟩

end ArithCircuit
