import ArithCircuit.Circuit.Counts
import ArithCircuit.Circuit.Execution
import ArithCircuit.Proofs.Circuit.Exactness

/-!
Walks along calls come to an end by themselves. Running a design and expanding its counts carry a
bound on how deep calls may nest. In a valid design calls nest no deeper than there are circuits, so
every bound from there on gives the same answer, under every interpretation, and counting never meets
the bound.
-/
namespace ArithCircuit
variable {F : ScalarField} {D : Design F}

/-! ### Running -/

namespace Interp
variable {V S : Type} (I : Interp F V S) {run other : CircuitId → List V → S → Except Error (Run V S)}

/-- Running instructions depends on how the circuits that they call are run, and on no other circuit. -/
theorem execute_congr {instructions : List (Instruction F)}
    (same : Design.CallsIn (fun callee => run callee = other callee) instructions) (circuit : CircuitId) (i : Nat)
    (values : Array V) (calls : Array (CallTree V)) (s : S) :
    I.execute D run circuit i instructions values calls s = I.execute D other circuit i instructions values calls s := by
  induction instructions generalizing i values calls s with
  | nil => rfl
  | cons instruction rest ih =>
    obtain ⟨first, later⟩ := List.forall_mem_cons.mp same
    cases instruction with
    | linear form out =>
      simp only [execute]
      exact bind_congr fun read => bind_congr fun values => ih later (i + 1) values calls read.2
    | product lhs rhs out =>
      simp only [execute]
      exact bind_congr fun read => bind_congr fun values => ih later (i + 1) values calls _
    | hint name inputs outputs =>
      simp only [execute]
      exact bind_congr fun _ => bind_congr fun given => bind_congr fun values => ih later (i + 1) values calls given.2
    | call callee inputs outputs =>
      simp only [execute]
      refine bind_congr fun args => bind_congr fun c => ?_
      split
      · rw [first callee rfl]
        exact bind_congr fun result => bind_congr fun values => ih later (i + 1) values _ result.state
      · rfl

theorem runCircuit_congr {c : Circuit F} (same : Design.CallsIn (fun callee => run callee = other callee) c.instructions)
    (id : CircuitId) (inputs : List V) (s : S) : I.runCircuit D run id c inputs s = I.runCircuit D other id c inputs s := by
  rw [runCircuit, runCircuit, I.execute_congr same]

/-- One more nested call than there are circuits is never made. -/
theorem run_succ (valid : D.Valid) {depth : Nat} (deep : D.size ≤ depth) (id : CircuitId) :
    I.run D (depth + 1) id = I.run D depth id := by
  refine valid.depth_induction (P := fun depth id => I.run D (depth + 1) id = I.run D depth id) ?_ deep id
  intro depth id callees
  funext inputs s
  rw [run, run]
  cases found : D.circuit id with
  | error fault => rfl
  | ok c => exact I.runCircuit_congr (callees (Design.circuit_eq_ok_iff.mp found)) id inputs s

/-- How deep calls may nest makes no difference, once it is as deep as there are circuits. -/
theorem run_eq_of_depth (valid : D.Valid) {depth : Nat} (deep : D.size ≤ depth) (id : CircuitId) :
    I.run D depth id = I.run D D.size id := by
  induction depth, deep using Nat.le_induction with
  | base => rfl
  | succ depth deep ih => rw [I.run_succ valid deep, ih]

end Interp

/-! ### Counting -/

namespace Design

/-- Counting instructions depends on the totals of the circuits that they call alone. -/
theorem countInstructions_congr {expand other : CircuitId → CountTable → Except Fault (ExpandedCounts × CountTable)}
    {instructions : List (Instruction F)} (same : CallsIn (fun callee => expand callee = other callee) instructions)
    (counts : ExpandedCounts) (known : CountTable) :
    countInstructions expand instructions counts known = countInstructions other instructions counts known := by
  induction instructions generalizing counts known with
  | nil => rfl
  | cons instruction rest ih =>
    obtain ⟨first, later⟩ := List.forall_mem_cons.mp same
    cases instruction with
    | linear form out => exact ih later counts known
    | product lhs rhs out => exact ih later _ known
    | hint name inputs outputs => exact ih later _ known
    | call callee inputs outputs =>
      simp only [countInstructions]
      rw [first callee rfl]
      exact bind_congr fun sub => ih later _ sub.2

/-- Instructions can be counted if the circuits that they call can. -/
theorem countInstructions_succeeds {expand : CircuitId → CountTable → Except Fault (ExpandedCounts × CountTable)}
    {instructions : List (Instruction F)}
    (succeeds : CallsIn (fun callee => ∀ known, ∃ result, expand callee known = .ok result) instructions)
    (counts : ExpandedCounts) (known : CountTable) :
    ∃ result, countInstructions expand instructions counts known = .ok result := by
  induction instructions generalizing counts known with
  | nil => exact ⟨_, rfl⟩
  | cons instruction rest ih =>
    obtain ⟨first, later⟩ := List.forall_mem_cons.mp succeeds
    cases instruction with
    | linear form out => exact ih later counts known
    | product lhs rhs out => exact ih later _ known
    | hint name inputs outputs => exact ih later _ known
    | call callee inputs outputs =>
      obtain ⟨sub, expanded⟩ := first callee rfl known
      rw [countInstructions, expanded, ok_bind]
      exact ih later _ sub.2

theorem expand_succ (valid : D.Valid) {depth : Nat} (deep : D.size ≤ depth) (id : CircuitId) :
    D.expand (depth + 1) id = D.expand depth id := by
  refine valid.depth_induction (P := fun depth id => D.expand (depth + 1) id = D.expand depth id) ?_ deep id
  intro depth id callees
  funext known
  rw [expand, expand]
  cases known.get? id with
  | some counts => rfl
  | none =>
    cases found : D.circuit id with
    | error fault => rfl
    | ok c =>
      simp only [ok_bind]
      rw [countInstructions_congr (callees (circuit_eq_ok_iff.mp found))]

theorem expand_eq_of_depth (valid : D.Valid) {depth : Nat} (deep : D.size ≤ depth) (id : CircuitId) :
    D.expand depth id = D.expand D.size id := by
  induction depth, deep using Nat.le_induction with
  | base => rfl
  | succ depth deep ih => rw [expand_succ valid deep, ih]

/-- Every circuit of a valid design has totals. -/
theorem expand_succeeds (valid : D.Valid) {depth : Nat} (deep : D.size ≤ depth) {id : CircuitId} {c : Circuit F}
    (found : D.get? id = some c) (known : CountTable) : ∃ result, D.expand depth id known = .ok result := by
  refine valid.depth_induction
    (P := fun depth id => ∀ {c}, D.get? id = some c → ∀ known, ∃ result, D.expand depth id known = .ok result)
    ?_ deep id found known
  intro depth id callees c found known
  have fits := (valid.wellFormed found).instructions.fits
  rw [expand]
  cases known.get? id with
  | some counts => exact ⟨_, rfl⟩
  | none =>
    have succeeds : CallsIn (fun callee => ∀ known, ∃ result, D.expand depth callee known = .ok result) c.instructions := by
      intro instruction member callee calling
      obtain ⟨c', present⟩ := (fits instruction member).present calling
      exact callees found instruction member callee calling present
    obtain ⟨result, counted⟩ := countInstructions_succeeds succeeds (.start c) known
    rw [circuit_eq_ok_iff.mpr found]
    simp only [ok_bind, counted]
    exact ⟨_, rfl⟩

theorem expandAll_succeeds (valid : D.Valid) {ids : List CircuitId} (present : ∀ id ∈ ids, ∃ c, D.get? id = some c)
    (known : CountTable) : ∃ table, D.expandAll ids known = .ok table := by
  induction ids generalizing known with
  | nil => exact ⟨known, rfl⟩
  | cons id rest ih =>
    obtain ⟨⟨c, found⟩, later⟩ := List.forall_mem_cons.mp present
    obtain ⟨result, expanded⟩ := expand_succeeds valid (Nat.le_succ D.size) found known
    rw [expandAll, expanded, ok_bind]
    exact ih later result.2

/-- The totals of a valid design can be computed. -/
theorem expandedCounts_succeeds (valid : D.Valid) : ∃ table, D.expandedCounts = .ok table :=
  expandAll_succeeds valid (fun _ member => Table.mem_keys_iff.mp member) ∅

end Design
end ArithCircuit
