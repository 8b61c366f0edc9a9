import ArithCircuit.Proofs.Execution.Lookups
import ArithCircuit.Proofs.Layered.Emission

/-!
What lowering looks up is there. Wire values point to gates that have been added, so folding, multiplying
and giving outputs a gate find every gate they ask for; joining summands ends in one of them and never
divides by zero. The gates that are kept are kept with their operands, so laying out an arena finds a new
number for every gate that an output, a constraint or another kept gate points to.
-/
namespace ArithCircuit
variable {F : ScalarField}

/-! ### Adding gates -/

namespace Summand

/-- Joining a queue ends in one summand. On the way every coefficient that is divided by has an inverse,
    and every gate that is looked up is there. -/
inductive Joins : List (Summand F) → Arena F → Prop
  | last (s : Summand F) (arena : Arena F) : Joins [s] arena
  | next {s t : Summand F} {rest : List (Summand F)} {arena after : Arena F} {inverse : Scalar F} {gate : Nat} :
    s.coef.inv? = some inverse → arena.Admits (.add s.gate t.gate (t.coef * inverse)) →
    arena.push (.add s.gate t.gate (t.coef * inverse)) = (gate, after) → gate < after.nodes.size →
    Joins (enqueue ⟨after.depth gate, gate, s.coef⟩ rest) after → Joins (s :: t :: rest) arena

/-- Gates that are there, with coefficients other than zero, can be joined. -/
theorem joins {queue : List (Summand F)} {arena : Arena F} (nonempty : queue ≠ [])
    (summands : ∀ s ∈ queue, s.gate < arena.nodes.size ∧ s.coef ≠ 0) : Joins queue arena := by
  -- Each step makes the queue one shorter.
  induction length : queue.length using Nat.strong_induction_on generalizing queue arena with
  | _ n ih =>
    cases queue with
    | nil => exact absurd rfl nonempty
    | cons s others =>
      cases others with
      | nil => exact .last s arena
      | cons t rest =>
        obtain ⟨⟨insideS, nonzero⟩, ⟨insideT, -⟩, others⟩ :
            (s.gate < arena.nodes.size ∧ s.coef ≠ 0) ∧ (t.gate < arena.nodes.size ∧ t.coef ≠ 0) ∧
              ∀ u ∈ rest, u.gate < arena.nodes.size ∧ u.coef ≠ 0 := by simpa using summands
        have size := Arena.size_push (.add s.gate t.gate (t.coef * s.coef⁻¹)) arena
        have pushed : arena.push (.add s.gate t.gate (t.coef * s.coef⁻¹)) =
            (arena.nodes.size, (arena.push (.add s.gate t.gate (t.coef * s.coef⁻¹))).2) := rfl
        generalize (arena.push (.add s.gate t.gate (t.coef * s.coef⁻¹))).2 = after at size pushed
        refine .next (Scalar.inv?_of_ne_zero nonzero) ?_ pushed (by omega) ?_
        · rintro a b ⟨⟩
          exact ⟨insideS, insideT⟩
        · refine ih _ (by rw [length_enqueue, ← length]; simp) (List.ne_nil_of_length_pos (by simp [length_enqueue])) ?_ rfl
          intro u member
          rw [size]
          rcases List.mem_cons.mp ((enqueue_perm _ _).mem_iff.mp member) with rfl | old
          · exact ⟨Nat.lt_succ_self _, nonzero⟩
          · exact ⟨Nat.lt_succ_of_lt (others u old).1, (others u old).2⟩

/-- Joining that stays in range meets neither an empty queue nor a coefficient without an inverse. -/
theorem Joins.succeeds {queue : List (Summand F)} {arena : Arena F} (joins : Joins queue arena) (site : Site)
    (form : LinearForm F) : ∃ result, join site form queue arena = .ok result := by
  induction joins with
  | last s arena => exact ⟨_, by rw [join]⟩
  | next inverts _ pushed _ _ ih =>
    obtain ⟨result, joined⟩ := ih
    refine ⟨result, ?_⟩
    rw [join, inverts]
    dsimp only
    rw [pushed]
    exact joined

end Summand

/-- The terms that folding joins, with the arena that has their gates: a constant other than zero is a
    multiple of the gate one. -/
def GateSum.addends (sum : GateSum F) (arena : Arena F) : List (Term F) × Arena F :=
  if sum.constant.isZero then (sum.terms, arena)
  else (sum.terms ++ [⟨sum.constant, (arena.constant 1).1⟩], (arena.constant 1).2)

theorem GateSum.addends_inside {sum : GateSum F} {arena : Arena F} (wellFormed : arena.WellFormed)
    (inside : ∀ t ∈ sum.terms, t.wire < arena.nodes.size) :
    ∀ t ∈ (sum.addends arena).1, t.wire < (sum.addends arena).2.nodes.size := by
  rw [addends]
  split
  · exact inside
  · obtain ⟨advances, there, -⟩ := Arena.constant_places #[] 1 wellFormed
    refine List.forall_mem_append.mpr ⟨fun t member => advances.inside (inside t member), ?_⟩
    exact List.forall_mem_singleton.mpr there

namespace Arena

/-- Everything that folding a form looks up is there: the wires that it reads, and the gates that it
    joins if wires depend on any. -/
structure FoldsInRange (form : LinearForm F) (values : Array (WireValue F)) (arena : Arena F) : Prop where
  wires : form.Reads values.size
  gates : (GateSum.ofForm form values).terms ≠ [] →
    ∀ t ∈ ((GateSum.ofForm form values).addends arena).1,
      t.wire < ((GateSum.ofForm form values).addends arena).2.nodes.size
  joins : (GateSum.ofForm form values).terms ≠ [] →
    ¬ (LinearForm.ofTerms ((GateSum.ofForm form values).addends arena).1).isEmpty = true →
    Summand.Joins
      (Summand.queue ((GateSum.ofForm form values).addends arena).2
        (LinearForm.ofTerms ((GateSum.ofForm form values).addends arena).1))
      ((GateSum.ofForm form values).addends arena).2

theorem fold_eq (site : Site) (form : LinearForm F) (values : Array (WireValue F)) (arena : Arena F) :
    arena.fold site form values =
      if (GateSum.ofForm form values).terms.isEmpty then .ok (.constant (GateSum.ofForm form values).constant, arena)
      else if (LinearForm.ofTerms ((GateSum.ofForm form values).addends arena).1).isEmpty then
        .ok (.constant 0, ((GateSum.ofForm form values).addends arena).2)
      else
        Summand.join site form
          (Summand.queue ((GateSum.ofForm form values).addends arena).2
            (LinearForm.ofTerms ((GateSum.ofForm form values).addends arena).1))
          ((GateSum.ofForm form values).addends arena).2 := by
  rw [fold, GateSum.addends]

/-- Folding that stays in range does not fail. -/
theorem FoldsInRange.succeeds {form : LinearForm F} {values : Array (WireValue F)} {arena : Arena F}
    (inRange : FoldsInRange form values arena) (site : Site) : ∃ result, arena.fold site form values = .ok result := by
  rw [fold_eq]
  split
  · exact ⟨_, rfl⟩
  · rename_i some
    split
    · exact ⟨_, rfl⟩
    · rename_i nonempty
      exact (inRange.joins (mt List.isEmpty_iff.mpr some) nonempty).succeeds site form

theorem foldsInRange {inputs : Array (Scalar F)} {form : LinearForm F} {values : Array (WireValue F)}
    {xs : List (Scalar F)} {arena : Arena F} (wellFormed : arena.WellFormed)
    (mean : List.Forall₂ (WireValue.Means inputs arena) values.toList xs) (readable : form.Readable (machineWord values.size)) :
    FoldsInRange form values arena := by
  obtain ⟨-, inside⟩ := GateSum.ofForm_value mean form
  have added := GateSum.addends_inside wellFormed inside
  refine ⟨readable.reads_of_word, fun _ => added, fun _ nonempty => ?_⟩
  exact Summand.joins (Summand.queue_ne_nil _ nonempty) (Summand.queue_ofTerms _ added)

/-- The factors of a product that needs a gate are there. -/
def MultipliesInRange (lhs rhs : WireValue F) (arena : Arena F) : Prop :=
  ∀ a b ca cb, lhs = .scaled a ca → rhs = .scaled b cb → arena.Admits (.mul a b (ca * cb))

/-- Everything that giving wire values a gate looks up is there. -/
def MaterializesInRange : List (WireValue F) → Arena F → Prop
  | [], _ => True
  | value :: rest, arena =>
    (∀ gate coef, value = .scaled gate coef → coef ≠ 1 →
      (arena.constant 1).2.Admits (.mul gate (arena.constant 1).1 coef)) ∧
    MaterializesInRange rest (arena.materialize value).2

theorem materializesInRange {inputs : Array (Scalar F)} {values : List (WireValue F)} {xs : List (Scalar F)}
    {arena : Arena F} (wellFormed : arena.WellFormed)
    (means : List.Forall₂ (WireValue.Means inputs arena) values xs) : MaterializesInRange values arena := by
  induction values generalizing arena xs with
  | nil => trivial
  | cons value rest ih =>
    cases means with
    | cons first others =>
      obtain ⟨advances, -, -⟩ := materialize_places inputs wellFormed first
      refine ⟨?_, ih advances.wellFormed (advances.forall₂_means others)⟩
      rintro gate coef rfl -
      obtain ⟨inside, -, -⟩ := first
      obtain ⟨added, there, -⟩ := constant_places inputs 1 wellFormed
      rintro a b ⟨⟩
      exact ⟨added.inside inside, there⟩

end Arena

/-- When everything that an operation on gates looks up is there. -/
def Lookups.emit : Lookups F (WireValue F) (Arena F) where
  form := Arena.FoldsInRange
  product := Arena.MultipliesInRange
  hint _ _ _ := True
  constrain := Arena.FoldsInRange

theorem Reading.emit_finds (inputs : Array (Scalar F)) : (Reading.emit inputs).Finds .emit where
  form wellFormed mean readable := Arena.foldsInRange wellFormed mean readable
  product := by
    rintro lhs rhs x y arena - left right a b ca cb rfl rfl _ _ ⟨⟩
    exact ⟨left.1, right.1⟩
  hint _ _ _ := trivial
  constrain wellFormed mean readable := Arena.foldsInRange wellFormed mean readable

/-! ### Laying out -/

/-- In the order of layers, a gate stands at its new number. -/
def Layout.Numbered (nodes : Array (Node F)) (live : Array Bool) (gate : Nat) : Prop :=
  gate < nodes.size ∧
    (((byDepth nodes live).toList.map Array.toList).flatten)[
      (positions nodes.size ((byDepth nodes live).toList.map Array.toList).flatten).getD gate nodes.size]? = some gate

theorem Layout.numbered_of_marked {nodes : Array (Node F)} {live : Array Bool} {i : Nat} (inside : i < nodes.size)
    (marked : Marked live i) : Numbered nodes live i := by
  rw [Numbered, toList_byDepth]
  exact ⟨inside, (position_spec (Array.getElem?_eq_getElem inside) marked).1⟩

namespace Arena

/-- The gates that laying out an arena keeps. -/
def live (arena : Arena F) (outputs : List Nat) (removeDead : Bool) : Array Bool :=
  Layout.kept arena.nodes (outputs ++ arena.constraints.toList) removeDead

/-- Everything that laying out an arena looks up is there. -/
structure LaysOutInRange (arena : Arena F) (outputs : List Nat) (removeDead : Bool) : Prop where
  /-- Every gate can be marked, the operands of gates too. -/
  marks : (arena.live outputs removeDead).size = arena.nodes.size
  operands : ∀ {i : Nat} {node : Node F}, arena.nodes[i]? = some node → ∀ a b, node.gate.operands? = some (a, b) →
    a < arena.nodes.size ∧ b < arena.nodes.size
  /-- Outputs and constraints get new numbers. -/
  roots : ∀ gate ∈ outputs ++ arena.constraints.toList,
    Layout.Numbered arena.nodes (arena.live outputs removeDead) gate
  /-- Kept gates have a layer. -/
  layers : ∀ {i : Nat} {node : Node F}, arena.nodes[i]? = some node → Layout.Marked (arena.live outputs removeDead) i →
    node.depth < Layout.numLayers arena.nodes (arena.live outputs removeDead)
  /-- The gates in layers are there, and their operands get new numbers. -/
  placed : ∀ layer ∈ (Layout.byDepth arena.nodes (arena.live outputs removeDead)).toList.map Array.toList,
    ∀ i ∈ layer, ∃ node, arena.nodes[i]? = some node ∧ ∀ a b, node.gate.operands? = some (a, b) →
      Layout.Numbered arena.nodes (arena.live outputs removeDead) a ∧
      Layout.Numbered arena.nodes (arena.live outputs removeDead) b

theorem laysOutInRange {arena : Arena F} (wellFormed : arena.WellFormed) {outputs : List Nat}
    (inside : ∀ gate ∈ outputs, gate < arena.nodes.size) (removeDead : Bool) :
    arena.LaysOutInRange outputs removeDead := by
  obtain ⟨roots, needs⟩ := Layout.kept_spec wellFormed.operands (outputs ++ arena.constraints.toList) removeDead
  have there : ∀ gate ∈ outputs ++ arena.constraints.toList, gate < arena.nodes.size :=
    List.forall_mem_append.mpr ⟨inside, wellFormed.constraints⟩
  have operands {i : Nat} {node : Node F} (found : arena.nodes[i]? = some node) (a b : Nat)
      (read : node.gate.operands? = some (a, b)) : a < arena.nodes.size ∧ b < arena.nodes.size := by
    obtain ⟨left, right⟩ := wellFormed.operands found a b read
    obtain ⟨here, -⟩ := Array.getElem?_eq_some_iff.mp found
    exact ⟨left.trans here, right.trans here⟩
  refine ⟨Layout.size_kept wellFormed.operands _ _, operands, ?_, Layout.depth_lt_numLayers, ?_⟩
  · intro gate member
    exact Layout.numbered_of_marked (there gate member) (roots gate member (there gate member))
  · rw [Layout.toList_byDepth]
    intro layer member i listed
    obtain ⟨d, -, rfl⟩ := List.mem_map.mp member
    obtain ⟨node, found, marked, -⟩ := Layout.mem_layerAt.mp listed
    refine ⟨node, found, fun a b read => ?_⟩
    obtain ⟨left, right⟩ := operands found a b read
    obtain ⟨markedA, markedB⟩ := (needs i).operands found marked a b read
    exact ⟨Layout.numbered_of_marked left markedA, Layout.numbered_of_marked right markedB⟩

end Arena

/-! ### Lowering -/

/-- Everything that lowering a design looks up is there: while its circuits are run, when its outputs
    get gates and when the gates are laid out. Folding forms, as far as it stays in range, does not fail. -/
def Design.EmitsInRange (D : Design F) (removeDead : Bool) : Prop :=
  (∀ (site : Site) (form : LinearForm F) values arena, Arena.FoldsInRange form values arena →
    ∃ result, arena.fold site form values = .ok result) ∧
  ∃ entry result, D.get? .entry = some entry ∧
    Interp.emit.InRange .emit D .entry (Arena.empty.pushInputs entry.numInputs).1
      (Arena.empty.pushInputs entry.numInputs).2 ∧
    Interp.emit.run D (D.size + 1) .entry (Arena.empty.pushInputs entry.numInputs).1
      (Arena.empty.pushInputs entry.numInputs).2 = .ok result ∧
    result.state.MaterializesInRange result.outputs ∧
    (result.state.materializeAll result.outputs).2.LaysOutInRange
      (result.state.materializeAll result.outputs).1 removeDead

theorem Design.emitsInRange {D : Design F} (valid : D.Valid) (removeDead : Bool) : D.EmitsInRange removeDead := by
  refine ⟨fun site _ _ _ inRange => inRange.succeeds site, ?_⟩
  obtain ⟨entry, found⟩ := valid.entry
  obtain ⟨taken, count, first, means⟩ := Arena.pushInputs_spec #[] entry.numInputs Arena.wellFormed_empty
  rcases Reading.run_follows (Reading.emit #[]) valid (fun _ _ _ _ _ => trivial) (Nat.le_succ D.size) .entry found
      first.wellFormed means count.symm with ⟨result, hints, R, ran, -, second, outputs, -⟩ | ⟨e, -, impossible, -⟩
  · obtain ⟨third, inside, -⟩ := Arena.materializeAll_spec #[] second.wellFormed outputs
    exact ⟨entry, result, found,
      (Reading.emit_finds #[]).inRange valid (fun _ _ _ _ _ => trivial) found first.wellFormed means count.symm, ran,
      Arena.materializesInRange second.wellFormed outputs, Arena.laysOutInRange third.wellFormed inside removeDead⟩
  · exact impossible.elim

end ArithCircuit
