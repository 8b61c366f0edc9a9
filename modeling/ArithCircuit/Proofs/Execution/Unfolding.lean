import ArithCircuit.Proofs.Circuit.Satisfaction
import ArithCircuit.Proofs.Execution.Reading

/-!
The calls of a design written out as a tree, and when the wires of such a tree agree. Each circuit of
the tree has its own values; they agree with the inputs that the caller hands over, with the
instructions, and with what the calls return. In a checked design a tree whose wires agree is an
execution, and every execution is such a tree, as long as a machine word can count the values of
each circuit.
-/
namespace ArithCircuit
variable {F : ScalarField}

/-- A call as its caller makes it. -/
structure CallSite (F : ScalarField) where
  callee : CircuitId
  inputs : List (LinearForm F)
  outputs : List Wire

def Instruction.callSite? : Instruction F → Option (CallSite F)
  | .call callee inputs outputs => some ⟨callee, inputs, outputs⟩
  | _ => none

/-- The calls of a circuit, in order. -/
def Circuit.callSites (c : Circuit F) : List (CallSite F) := c.instructions.filterMap Instruction.callSite?

namespace CallTree

/-- The circuit at the root. -/
def circuit {V : Type} : CallTree V → CircuitId
  | node circuit _ _ => circuit

/-- The runs of the calls that the circuit at the root makes. -/
def calls {V : Type} : CallTree V → List (CallTree V)
  | node _ _ calls => calls

/-- Below each circuit stands one tree per call that it makes, in order. -/
inductive Unfolds {V : Type} (D : Design F) : CallTree V → Prop
  | node {id : CircuitId} {c : Circuit F} {values : Array V} {calls : List (CallTree V)} (found : D.get? id = some c)
      (callees : c.callSites.map (·.callee) = calls.map circuit) (inside : ∀ tree ∈ calls, Unfolds D tree) :
      Unfolds D (node id values calls)

mutual

/-- What a function tells of the circuits of a tree and their values, each before those that it calls. -/
def listing {V α : Type} (tell : CircuitId → Array V → α) : CallTree V → List α
  | node id values calls => tell id values :: listingAll tell calls

/-- What a function tells of the circuits of trees, one tree after the other. -/
def listingAll {V α : Type} (tell : CircuitId → Array V → α) : List (CallTree V) → List α
  | [] => []
  | tree :: rest => listing tell tree ++ listingAll tell rest

end

/-- All circuits of the tree with their values, each before those that it calls. -/
def instances (tree : CallTree (Scalar F)) : List (Instance F) := tree.listing .mk

/-- The circuits of a tree, each before those that it calls. -/
def circuits {V : Type} (tree : CallTree V) : List CircuitId := tree.listing fun id _ => id

/-- What the circuit at the root returns. -/
def outputs (D : Design F) (tree : CallTree (Scalar F)) : List (Scalar F) :=
  (D.get? tree.circuit).elim [] fun c => c.outputs.map (·.on tree.values.toList)

/-- The hint outputs of instructions in order, those of each call in the place of the call. -/
def hintOutputsOf (w : Wire → Scalar F) : List (Instruction F) → (called : List (List (Scalar F))) → List (Scalar F)
  | [], _ => []
  | .hint _ _ outs :: rest, called => outs.map w ++ hintOutputsOf w rest called
  | .call _ _ _ :: rest, called => called.headD [] ++ hintOutputsOf w rest called.tail
  | .linear _ _ :: rest, called => hintOutputsOf w rest called
  | .product _ _ _ :: rest, called => hintOutputsOf w rest called

mutual

/-- All hint outputs of a tree, in the order in which a walk through the instructions that follows
    each call at once meets them. -/
def hintOutputs (D : Design F) : CallTree (Scalar F) → List (Scalar F)
  | node id values calls =>
    (D.get? id).elim [] fun c => hintOutputsOf (values.toList.getD · 0) c.instructions (hintOutputsAll D calls)

/-- The hint outputs of each tree of a list. -/
def hintOutputsAll (D : Design F) : List (CallTree (Scalar F)) → List (List (Scalar F))
  | [] => []
  | tree :: rest => hintOutputs D tree :: hintOutputsAll D rest

end

theorem hintOutputsAll_eq (D : Design F) (trees : List (CallTree (Scalar F))) :
    hintOutputsAll D trees = trees.map (hintOutputs D) := by
  induction trees with
  | nil => rfl
  | cons tree rest ih => rw [hintOutputsAll, ih, List.map_cons]

theorem listing_node {V α : Type} (tell : CircuitId → Array V → α) (id : CircuitId) (values : Array V)
    (calls : List (CallTree V)) : (node id values calls).listing tell = tell id values :: calls.flatMap (listing tell) := by
  have all : listingAll tell calls = calls.flatMap (listing tell) := by
    induction calls with
    | nil => rfl
    | cons tree rest ih => rw [listingAll, ih, List.flatMap_cons]
  rw [listing, all]

theorem instances_node (id : CircuitId) (values : Array (Scalar F)) (calls : List (CallTree (Scalar F))) :
    (node id values calls).instances = ⟨id, values⟩ :: calls.flatMap instances :=
  listing_node ..

mutual

private theorem listing_eq {V α : Type} (tell : CircuitId → Array V → α) :
    (tree : CallTree V) → tree.listing tell = tree.preorder.map fun run => tell run.1 run.2
  | node id values calls => by
    rw [listing, preorder_node, List.map_cons, List.map_flatMap, listingAll_eq tell calls]

private theorem listingAll_eq {V α : Type} (tell : CircuitId → Array V → α) :
    (trees : List (CallTree V)) →
      listingAll tell trees = trees.flatMap fun tree => tree.preorder.map fun run => tell run.1 run.2
  | [] => rfl
  | tree :: rest => by rw [listingAll, List.flatMap_cons, listing_eq tell tree, listingAll_eq tell rest]

end

/-- Going through a tree with the rest of the list at hand meets the same circuits. -/
theorem instances_eq_preorder (tree : CallTree (Scalar F)) :
    tree.instances = tree.preorder.map fun run => ⟨run.1, run.2⟩ :=
  listing_eq ..

theorem circuits_eq (tree : CallTree (Scalar F)) : tree.circuits = tree.instances.map (·.circuit) := by
  rw [instances_eq_preorder, List.map_map]
  exact listing_eq ..

theorem circuits_node {V : Type} (id : CircuitId) (values : Array V) (calls : List (CallTree V)) :
    (node id values calls).circuits = id :: calls.flatMap circuits :=
  listing_node ..

section
variable {V W : Type} {D : Design F}

/-- Trees of the same circuits, one by one, have the same circuits below them. -/
private theorem flatMap_circuits_eq {trees : List (CallTree V)} {others : List (CallTree W)}
    (same : trees.map circuit = others.map circuit)
    (unique : ∀ tree ∈ trees, ∀ other ∈ others, tree.circuit = other.circuit → tree.circuits = other.circuits) :
    trees.flatMap circuits = others.flatMap circuits := by
  induction trees generalizing others with
  | nil =>
    obtain rfl : others = [] := List.map_eq_nil_iff.mp same.symm
    rfl
  | cons tree rest ih =>
    obtain ⟨other, further, rfl, sameFirst, sameRest⟩ := List.map_eq_cons_iff.mp same.symm
    rw [List.flatMap_cons, List.flatMap_cons,
      unique tree (List.mem_cons_self ..) other (List.mem_cons_self ..) sameFirst.symm, ih sameRest.symm]
    exact fun t member u listed => unique t (List.mem_cons_of_mem _ member) u (List.mem_cons_of_mem _ listed)

/-- The calls of a circuit can be written out in one way only. -/
theorem Unfolds.circuits_eq {tree : CallTree V} (unfolds : tree.Unfolds D) :
    ∀ {other : CallTree W}, other.Unfolds D → tree.circuit = other.circuit → tree.circuits = other.circuits := by
  induction unfolds with
  | @node id c values calls found callees inside ih =>
    rintro _ @⟨_, c', values', calls', found', callees', inside'⟩ rfl
    cases found.symm.trans found'
    rw [circuits_node, circuits_node, flatMap_circuits_eq (callees.symm.trans callees')]
    · rfl
    · exact fun tree member other listed same => ih tree member (inside' other listed) same

end

theorem outputs_eq {D : Design F} {tree : CallTree (Scalar F)} {c : Circuit F} (found : D.get? tree.circuit = some c) :
    tree.outputs D = c.outputs.map (·.on tree.values.toList) := by
  rw [outputs, found, Option.elim_some]

end CallTree

/-- The values of the wires of one circuit agree with its inputs, with its instructions, and with what
    its calls return. -/
structure Circuit.Wired (D : Design F) (rule : HintRule F) (c : Circuit F) (inputs values : List (Scalar F))
    (calls : List (CallTree (Scalar F))) : Prop where
  length : values.length = c.wireCount
  one : values.getD Wire.one 0 = 1
  inputs : inputValues c.numInputs (values.getD · 0) = inputs
  /-- Forms and products are what they say, and hints give what the rule allows. -/
  instructions : ∀ i ∈ c.instructions, i.Holds (.free rule) (values.getD · 0)
  calls : ∀ pair ∈ c.callSites.zip calls, pair.1.outputs.map (values.getD · 0) = pair.2.outputs D

/-- The wires of a tree agree, the circuit at the root being given inputs and each call being given
    what its caller hands over. -/
inductive CallTree.Wired (D : Design F) (rule : HintRule F) : CallTree (Scalar F) → (inputs : List (Scalar F)) → Prop
  | node {id : CircuitId} {c : Circuit F} {values : Array (Scalar F)} {calls : List (CallTree (Scalar F))}
      {inputs : List (Scalar F)} (found : D.get? id = some c) (own : c.Wired D rule inputs values.toList calls)
      (inside : ∀ pair ∈ c.callSites.zip calls, Wired D rule pair.2 (pair.1.inputs.map (·.on values.toList))) :
      Wired D rule (.node id values calls) inputs

/-! ### From a tree to an execution -/

theorem map_range_getD (values : List (Scalar F)) : (List.range values.length).map (values.getD · 0) = values := by
  refine List.ext_getElem (by simp) fun v _ below => ?_
  simp [List.getElem?_eq_getElem below]

/-- The tree is a trace of the circuit at its root. -/
private def CallTree.Traced (D : Design F) (rule : HintRule F) (tree : CallTree (Scalar F))
    (inputs : List (Scalar F)) : Prop :=
  ∃ c, D.get? tree.circuit = some c ∧ c.numInputs = inputs.length ∧
    Trace D rule c.instructions (1 :: inputs) (tree.hintOutputs D) tree.values.toList (tree.calls.flatMap CallTree.instances)

/-- Instructions that hold, with their calls written out, are a trace. -/
private theorem Trace.of_calls {D : Design F} {rule : HintRule F} {w : Wire → Scalar F}
    {instructions : List (Instruction F)} {calls : List (CallTree (Scalar F))} {n : Nat}
    (small : n + sumOver (·.outputs.length) instructions ≤ 2 ^ 64) (sequenced : Sequenced D n instructions)
    (holds : ∀ i ∈ instructions, i.Holds (.free rule) w)
    (called : List.Forall₂ (fun site tree => site.callee = tree.circuit ∧
      tree.Traced D rule (site.inputs.map (·.eval w)) ∧ site.outputs.map w = tree.outputs D)
      (instructions.filterMap Instruction.callSite?) calls) :
    Trace D rule instructions ((List.range n).map w) (CallTree.hintOutputsOf w instructions (calls.map (·.hintOutputs D)))
      ((List.range (n + sumOver (·.outputs.length) instructions)).map w) (calls.flatMap CallTree.instances) := by
  induction instructions generalizing n calls with
  | nil =>
    cases called
    exact .done _
  | cons i rest ih =>
    obtain ⟨readable, fits, outputs, following⟩ := sequenced
    obtain ⟨here, others⟩ := List.forall_mem_cons.mp holds
    rw [sumOver_cons, ← Nat.add_assoc] at small ⊢
    have later {calls : List (CallTree (Scalar F))} := @ih calls _ small following others
    have wires : List.range' n i.outputs.length = i.outputs :=
      (nextWires_eq_range' ((Nat.le_add_right ..).trans small)).symm.trans outputs.symm
    rw [map_range_add, wires] at later
    have on (e : LinearForm F) (member : e ∈ i.inputs) : e.on ((List.range n).map w) = e.eval w :=
      LinearForm.on_map_range (readable e member).reads_of_word w
    rw [Instruction.Holds] at here
    generalize n + i.outputs.length + sumOver (·.outputs.length) rest = total at later ⊢
    cases i with
    | linear form out =>
      rw [here] at later
      refine .linear (by simpa [Instruction.outputs] using outputs) ?_
      rw [on form (by simp [Instruction.inputs])]
      exact later called
    | product lhs rhs out =>
      rw [here] at later
      refine .product (by simpa [Instruction.outputs] using outputs) ?_
      rw [on lhs (by simp [Instruction.inputs]), on rhs (by simp [Instruction.inputs])]
      exact later called
    | hint name inputs outs =>
      have args : inputs.map (·.on ((List.range n).map w)) = inputs.map (·.eval w) := List.map_congr_left on
      refine .hint (by simpa [Instruction.outputs] using outputs) ?_ (later called)
      rw [args]
      exact here
    | call callee inputs outs =>
      obtain _ | ⟨⟨same, ⟨c, found, arity, inner⟩, returned⟩, calledLater⟩ := called
      rename_i tree calls
      have args : inputs.map (·.on ((List.range n).map w)) = inputs.map (·.eval w) := List.map_congr_left on
      have returned : outs.map w = c.outputs.map (·.on tree.values.toList) := returned.trans (CallTree.outputs_eq found)
      have count : c.outputs.length = outs.length := by simpa using (congrArg List.length returned).symm
      have whole : tree.instances = ⟨callee, tree.values.toList.toArray⟩ :: tree.calls.flatMap CallTree.instances := by
        obtain ⟨id, values, inside⟩ := tree
        cases same
        exact CallTree.instances_node ..
      rw [List.flatMap_cons, whole]
      rw [← same] at found
      refine .call found (by simpa using arity) (by simpa [count, Instruction.outputs] using outputs) (args ▸ inner) ?_
      rw [← returned]
      exact later calledLater

namespace CallTree
variable {D : Design F} {rule : HintRule F} {tree : CallTree (Scalar F)} {inputs : List (Scalar F)}

private theorem Wired.traced (valid : D.Valid) (wired : tree.Wired D rule inputs) (unfolds : tree.Unfolds D)
    (small : ∀ inst ∈ tree.instances, inst.values.size < 2 ^ 64) : tree.Traced D rule inputs := by
  induction wired with
  | @node id c values calls inputs found own inside ih =>
    obtain ⟨found', callees, below⟩ := unfolds
    cases found.symm.trans found'
    rw [instances_node] at small
    obtain ⟨here, others⟩ := List.forall_mem_cons.mp small
    have smaller : ∀ tree ∈ calls, ∀ inst ∈ tree.instances, inst.values.size < 2 ^ 64 := fun tree member inst listed =>
      others inst (List.mem_flatMap.mpr ⟨tree, member, listed⟩)
    have pairs : List.Forall₂ (· = ·) (c.callSites.map (·.callee)) (calls.map circuit) := by
      rw [callees]
      exact List.forall₂_same.mpr fun _ _ => rfl
    rw [List.forall₂_map_left_iff, List.forall₂_map_right_iff, List.forall₂_iff_zip] at pairs
    have called : List.Forall₂ (fun site tree => site.callee = tree.circuit ∧
        tree.Traced D rule (site.inputs.map (·.on values.toList)) ∧
        site.outputs.map (values.toList.getD · 0) = tree.outputs D) c.callSites calls :=
      List.forall₂_iff_zip.mpr ⟨pairs.1, fun member =>
        have inside := (List.of_mem_zip member).2
        ⟨pairs.2 member, ih _ member (below _ inside) (smaller _ inside), own.calls _ member⟩⟩
    have trace := Trace.of_calls (own.length.ge.trans here.le) (valid.wellFormed found).instructions own.instructions called
    have all := map_range_getD values.toList
    rw [own.length] at all
    have hints : (CallTree.node id values calls).hintOutputs D =
        hintOutputsOf (values.toList.getD · 0) c.instructions (calls.map (·.hintOutputs D)) := by
      rw [hintOutputs, found, Option.elim_some, hintOutputsAll_eq]
    rw [map_range_inputs own.one, own.inputs, ← Circuit.wireCount, all, ← hints] at trace
    exact ⟨c, found, by rw [← own.inputs, length_inputValues], trace⟩

/-- In a tree whose wires agree, every wire of every circuit has a value. -/
theorem Wired.sizes (wired : tree.Wired D rule inputs) (unfolds : tree.Unfolds D) :
    ∀ inst ∈ tree.instances, ∃ c, D.get? inst.circuit = some c ∧ inst.values.size = c.wireCount := by
  induction wired with
  | @node id c values calls inputs found own inside ih =>
    obtain ⟨found', callees, below⟩ := unfolds
    cases found.symm.trans found'
    rw [instances_node]
    refine List.forall_mem_cons.mpr ⟨⟨c, found, own.length⟩, fun inst member => ?_⟩
    obtain ⟨tree, called, listed⟩ := List.mem_flatMap.mp member
    -- There is a call for every tree, since there are as many.
    have count : c.callSites.length = calls.length := by simpa using congrArg List.length callees
    obtain ⟨i, bound, rfl⟩ := List.getElem_of_mem called
    have paired : (c.callSites[i], calls[i]) ∈ c.callSites.zip calls :=
      List.mem_iff_getElem.mpr ⟨i, by simp [count, bound], List.getElem_zip⟩
    exact ih _ paired (below _ called) inst listed

/-- Trees of the same calls whose wires agree have equally many values. -/
theorem Wired.small (wired : tree.Wired D rule inputs) (unfolds : tree.Unfolds D) {other : CallTree (Scalar F)}
    (wired' : other.Wired D rule inputs) (unfolds' : other.Unfolds D) (same : tree.circuit = other.circuit)
    (small : ∀ inst ∈ tree.instances, inst.values.size < 2 ^ 64) : ∀ inst ∈ other.instances, inst.values.size < 2 ^ 64 := by
  intro inst member
  obtain ⟨c, found, size⟩ := wired'.sizes unfolds' inst member
  have listed : inst.circuit ∈ tree.instances.map (·.circuit) := by
    rw [← CallTree.circuits_eq, unfolds.circuits_eq unfolds' same, CallTree.circuits_eq]
    exact List.mem_map_of_mem member
  obtain ⟨twin, member', sameCircuit⟩ := List.mem_map.mp listed
  obtain ⟨c', found', size'⟩ := wired.sizes unfolds twin member'
  rw [sameCircuit] at found'
  cases found.symm.trans found'
  rw [size, ← size']
  exact small twin member'

/-- A tree whose wires agree is an execution. -/
theorem Wired.executes (valid : D.Valid) (wired : tree.Wired D rule inputs) (unfolds : tree.Unfolds D)
    (small : ∀ inst ∈ tree.instances, inst.values.size < 2 ^ 64) :
    Executes D rule tree.circuit inputs (tree.hintOutputs D) ⟨tree.instances, tree.outputs D⟩ := by
  obtain ⟨c, found, arity, trace⟩ := wired.traced valid unfolds small
  refine ⟨c, _, _, found, arity, trace, ?_⟩
  rw [outputs_eq found]
  obtain ⟨id, values, calls⟩ := tree
  rw [instances_node]
  rfl

end CallTree

/-! ### From an execution to a tree -/

/-- A circuit returns outputs in some tree whose wires agree. -/
private def Design.Unfolded (D : Design F) (rule : HintRule F) (id : CircuitId) (inputs outputs : List (Scalar F)) : Prop :=
  ∃ tree : CallTree (Scalar F), tree.circuit = id ∧ tree.Unfolds D ∧ (∀ inst ∈ tree.instances, inst.values.size < 2 ^ 64) ∧
    tree.Wired D rule inputs ∧ outputs = tree.outputs D

theorem forall₂_of_exists {α β : Type} {R : α → β → Prop} {xs : List α} (exist : ∀ x ∈ xs, ∃ y, R x y) :
    ∃ ys, List.Forall₂ R xs ys := by
  induction xs with
  | nil => exact ⟨[], .nil⟩
  | cons x rest ih =>
    obtain ⟨⟨y, related⟩, others⟩ := List.forall_mem_cons.mp exist
    obtain ⟨ys, later⟩ := ih others
    exact ⟨y :: ys, .cons related later⟩

/-- The values of a circuit under which its instructions hold, calls being trees, are the root of a tree. -/
private theorem exists_tree {D : Design F} {rule : HintRule F} {id : CircuitId} {c : Circuit F}
    {inputs final : List (Scalar F)} (found : D.get? id = some c) (arity : c.numInputs = inputs.length)
    (length : final.length = c.wireCount) (small : final.length < 2 ^ 64) (early : 1 :: inputs <+: final)
    (holds : ∀ i ∈ c.instructions, i.Holds ⟨rule, D.Unfolded rule⟩ (final.getD · 0)) :
    D.Unfolded rule id inputs (c.outputs.map (·.on final)) := by
  have trees : ∀ site ∈ c.callSites, ∃ tree : CallTree (Scalar F), site.callee = tree.circuit ∧
      (tree.Unfolds D ∧ ∀ inst ∈ tree.instances, inst.values.size < 2 ^ 64) ∧
      tree.Wired D rule (site.inputs.map (·.on final)) ∧ site.outputs.map (final.getD · 0) = tree.outputs D := by
    intro site member
    obtain ⟨i, present, calls⟩ := List.mem_filterMap.mp member
    cases i with
    | linear => cases calls
    | product => cases calls
    | hint => cases calls
    | call callee ins outs =>
      cases calls
      obtain ⟨tree, same, unfolds, sizes, rest⟩ := holds _ present
      exact ⟨tree, same.symm, ⟨unfolds, sizes⟩, rest⟩
  obtain ⟨calls, pairs⟩ := forall₂_of_exists trees
  obtain ⟨-, each⟩ := List.forall₂_iff_zip.mp pairs
  have callees : c.callSites.map (·.callee) = calls.map CallTree.circuit := by
    rw [← List.forall₂_eq_eq_eq, List.forall₂_map_left_iff, List.forall₂_map_right_iff]
    exact pairs.imp fun _ _ related => related.1
  have inside : ∀ tree ∈ calls, tree.Unfolds D ∧ ∀ inst ∈ tree.instances, inst.values.size < 2 ^ 64 := by
    have both : List.Forall₂ (fun (tree : CallTree (Scalar F)) (site : CallSite F) =>
        (tree.Unfolds D ∧ ∀ inst ∈ tree.instances, inst.values.size < 2 ^ 64) ∧ site.callee = tree.circuit)
        calls c.callSites :=
      pairs.flip.imp fun _ _ related => ⟨related.2.1, related.1⟩
    exact ((List.forall₂_and_left _ _).mp both).1
  have plain : ∀ i ∈ c.instructions, i.Holds (.free rule) (final.getD · 0) := by
    intro i member
    have here := holds i member
    cases i with
    | linear => exact here
    | product => exact here
    | hint => exact here
    | call => trivial
  refine ⟨.node id final.toArray calls, rfl, .node found callees fun tree member => (inside tree member).1, ?_,
    .node found ⟨length, ?_, ?_, plain, ?_⟩ ?_, ?_⟩
  · rw [CallTree.instances_node]
    refine List.forall_mem_cons.mpr ⟨small, fun inst member => ?_⟩
    obtain ⟨tree, called, listed⟩ := List.mem_flatMap.mp member
    exact (inside tree called).2 inst listed
  · obtain ⟨rest, rfl⟩ := early
    rfl
  · obtain ⟨rest, rfl⟩ := early
    refine List.ext_getElem (by simp [arity]) fun i _ below => ?_
    simp [inputValues, Wire.input, List.getElem?_append_left below, List.getElem?_eq_getElem below]
  · intro pair member
    exact (each (a := pair.1) (b := pair.2) member).2.2.2
  · intro pair member
    exact (each (a := pair.1) (b := pair.2) member).2.2.1
  · rw [CallTree.outputs_eq (c := c) found]
    rfl

private theorem Trace.unfolded {D : Design F} (valid : D.Valid) {rule : HintRule F} {instructions : List (Instruction F)}
    {values hints final : List (Scalar F)} {instances : List (Instance F)}
    (trace : Trace D rule instructions values hints final instances) (sequenced : Sequenced D values.length instructions)
    (small : final.length < 2 ^ 64) (smaller : ∀ inst ∈ instances, inst.values.size < 2 ^ 64) :
    values <+: final ∧ ∀ i ∈ instructions, i.Holds ⟨rule, D.Unfolded rule⟩ (final.getD · 0) := by
  induction trace with
  | done values => exact ⟨List.prefix_rfl, List.forall_mem_nil _⟩
  | linear next later ih =>
    exact holds_cons small.le sequenced (by rw [next]; rfl) rfl fun following => ih following small smaller
  | product next later ih =>
    exact holds_cons small.le sequenced (by rw [next]; rfl) rfl fun following => ih following small smaller
  | hint next answered later ih =>
    exact holds_cons small.le sequenced next answered fun following => ih following small smaller
  | call found fits next called later calledIh ih =>
    obtain ⟨inner, others⟩ := List.forall_mem_append.mp smaller
    obtain ⟨here, below⟩ := List.forall_mem_cons.mp inner
    refine holds_cons small.le sequenced (by rw [List.length_map]; exact next) ?_ fun following => ih following small others
    have wellFormed := valid.wellFormed found
    obtain ⟨early, holds⟩ := calledIh (by simpa [fits, Nat.add_comm] using wellFormed.instructions) here below
    refine exists_tree found (by rw [fits, List.length_map]) ?_ here early holds
    exact called.length_eq_wireCount (by rw [List.length_map, fits])

/-- An execution is a tree whose wires agree. -/
theorem Executes.exists_tree {D : Design F} (valid : D.Valid) {rule : HintRule F} {id : CircuitId}
    {inputs hints : List (Scalar F)} {R : Execution F} (executes : Executes D rule id inputs hints R)
    (small : ∀ inst ∈ R.instances, inst.values.size < 2 ^ 64) :
    ∃ tree : CallTree (Scalar F), tree.circuit = id ∧ tree.Unfolds D ∧ tree.Wired D rule inputs ∧
      ∀ inst ∈ tree.instances, inst.values.size < 2 ^ 64 := by
  obtain ⟨c, final, instances, found, arity, trace, rfl⟩ := executes
  obtain ⟨here, others⟩ := List.forall_mem_cons.mp small
  obtain ⟨early, holds⟩ := trace.unfolded valid
    (by simpa [arity, Nat.add_comm] using (valid.wellFormed found).instructions) here others
  obtain ⟨tree, same, unfolds, sizes, wired, -⟩ :=
    ArithCircuit.exists_tree found arity (trace.length_eq_wireCount arity) here early holds
  exact ⟨tree, same, unfolds, wired, sizes⟩

end ArithCircuit
