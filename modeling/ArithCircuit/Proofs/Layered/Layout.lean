import ArithCircuit.Layered.Layout
import ArithCircuit.Proofs.Layered.Circuit

/-!
Laying out an arena keeps the values of its gates. Kept gates come with their operands, and operands
are less deep than their users, so in the order of layers every operand again stands before its
users. The layers therefore pass every check of a layered circuit, and the gate at the new number of
a kept gate has the value of that gate.
-/
namespace ArithCircuit
variable {F : ScalarField}

namespace Layout

/-! ### Which gates are kept -/

/-- A gate is marked. -/
def Marked (live : Array Bool) (gate : Nat) : Prop := live.getD gate false = true

theorem getD_setIfInBounds (live : Array Bool) (i j : Nat) :
    (live.setIfInBounds i true).getD j false = if i = j ∧ j < live.size then true else live.getD j false := by
  simp only [Array.getD_eq_getD_getElem?, Array.getElem?_setIfInBounds]
  by_cases same : i = j
  · subst same
    by_cases inside : i < live.size <;> simp [inside]
  · simp [same]

@[simp] theorem size_mark (gates : List Nat) (live : Array Bool) : (mark gates live).size = live.size := by
  rw [mark]
  induction gates generalizing live with
  | nil => rfl
  | cons gate rest ih => rw [List.foldl_cons, ih, Array.size_setIfInBounds]

/-- Marking gates marks these and no others. -/
theorem marked_mark {gates : List Nat} {live : Array Bool} {gate : Nat} :
    Marked (mark gates live) gate ↔ Marked live gate ∨ gate ∈ gates ∧ gate < live.size := by
  rw [mark]
  induction gates generalizing live with
  | nil => simp
  | cons first rest ih =>
    rw [List.foldl_cons, ih, Array.size_setIfInBounds, Marked, getD_setIfInBounds, List.mem_cons]
    split
    · rename_i here
      exact ⟨fun _ => .inr ⟨.inl here.1.symm, here.2⟩, fun _ => .inl rfl⟩
    · rename_i elsewhere
      constructor
      · rintro (marked | ⟨listed, inside⟩)
        · exact .inl marked
        · exact .inr ⟨.inr listed, inside⟩
      · rintro (marked | ⟨rfl | listed, inside⟩)
        · exact .inl marked
        · exact absurd ⟨rfl, inside⟩ elsewhere
        · exact .inr ⟨listed, inside⟩

/-- Operands stand before their users. -/
def Ordered (nodes : Array (Node F)) : Prop :=
  ∀ {i : Nat} {node : Node F}, nodes[i]? = some node → ∀ a b, node.gate.operands? = some (a, b) → a < i ∧ b < i

/-- What the marks of a gate ask for: inputs are marked, and with a gate its operands. -/
structure Needs (nodes : Array (Node F)) (live : Array Bool) (i : Nat) : Prop where
  input : ∀ {node : Node F}, nodes[i]? = some node → isInput node = true → Marked live i
  operands : ∀ {node : Node F}, nodes[i]? = some node → Marked live i →
    ∀ a b, node.gate.operands? = some (a, b) → Marked live a ∧ Marked live b

/-- One gate reads another. -/
def Reads (nodes : Array (Node F)) (user operand : Nat) : Prop :=
  ∃ node a b, nodes[user]? = some node ∧ node.gate.operands? = some (a, b) ∧ (operand = a ∨ operand = b)

/-- An input stands at a number. -/
def InputAt (nodes : Array (Node F)) (i : Nat) : Prop := ∃ node, nodes[i]? = some node ∧ isInput node = true

theorem Ordered.lt_of_reads {nodes : Array (Node F)} (ordered : Ordered nodes) {i j : Nat} (reads : Reads nodes i j) :
    j < i := by
  obtain ⟨node, a, b, found, operands, same⟩ := reads
  obtain ⟨left, right⟩ := ordered found a b operands
  rcases same with rfl | rfl
  · exact left
  · exact right

theorem InputAt.reads_nothing {nodes : Array (Node F)} {user operand : Nat} (input : InputAt nodes user) :
    ¬ Reads nodes user operand := by
  obtain ⟨node, found, isIn⟩ := input
  rintro ⟨node', a, b, found', operands, -⟩
  cases found.symm.trans found'
  cases gate : node.gate <;> simp_all [isInput, Gate.kind, Gate.operands?]

/-- One step of a sweep marks an input gate, or the operands of a marked gate, and nothing else. -/
theorem sweep_succ {nodes : Array (Node F)} (ordered : Ordered nodes) (i : Nat) {live : Array Bool}
    (size : live.size = nodes.size) :
    ∃ next, sweep nodes (i + 1) live = sweep nodes i next ∧ next.size = nodes.size ∧
      ∀ j, Marked next j ↔ Marked live j ∨ j = i ∧ InputAt nodes i ∨ Marked live i ∧ Reads nodes i j := by
  rw [sweep]
  cases found : nodes[i]? with
  | none => exact ⟨live, rfl, size, fun j => by simp [InputAt, Reads, found]⟩
  | some node =>
    obtain ⟨inside, -⟩ := Array.getElem?_eq_some_iff.mp found
    have input : InputAt nodes i ↔ isInput node = true := by simp [InputAt, found]
    have reads (j : Nat) :
        Reads nodes i j ↔ ∃ a b, node.gate.operands? = some (a, b) ∧ (j = a ∨ j = b) := by simp [Reads, found]
    dsimp only
    split
    · rename_i index gate
      refine ⟨_, rfl, by rw [Array.size_setIfInBounds, size], fun j => ?_⟩
      have alone : Marked (mark [i] live) j ↔ Marked live j ∨ j ∈ [i] ∧ j < live.size := marked_mark
      refine alone.trans (or_congr_right ?_)
      simp only [List.mem_singleton, input, reads, isInput, gate, Gate.kind, Gate.operands?]
      constructor
      · rintro ⟨same, -⟩
        exact .inl ⟨same, rfl⟩
      · rintro (⟨same, -⟩ | ⟨-, _, _, ⟨⟩, -⟩)
        exact ⟨same, by omega⟩
    · rename_i notInput
      have noInput : ¬ InputAt nodes i := by
        rw [input]
        cases gate : node.gate <;> simp_all [isInput, Gate.kind]
      split
      · rename_i a b alive operands
        obtain ⟨left, right⟩ := ordered found a b operands
        refine ⟨_, rfl, by rw [size_mark, size], fun j => ?_⟩
        have alive : Marked live i := alive
        simp only [marked_mark, List.mem_cons, List.not_mem_nil, or_false, noInput, and_false, false_or, alive,
          true_and, reads, operands]
        refine or_congr_right ⟨fun ⟨same, _⟩ => ⟨a, b, rfl, same⟩, ?_⟩
        rintro ⟨_, _, ⟨⟩, same⟩
        exact ⟨same, by omega⟩
      · rename_i dead
        refine ⟨live, rfl, size, fun j => (or_iff_left ?_).symm⟩
        rintro (⟨-, isIn⟩ | ⟨alive, read⟩)
        · exact noInput isIn
        · obtain ⟨a, b, operands, -⟩ := (reads j).mp read
          exact dead a b alive operands

/-- A sweep grants what the gates it passes need. -/
private theorem sweep_spec {nodes : Array (Node F)} (ordered : Ordered nodes) (count : Nat) {live : Array Bool}
    (size : live.size = nodes.size) :
    (sweep nodes count live).size = nodes.size ∧ (∀ j, Marked live j → Marked (sweep nodes count live) j) ∧
      (∀ j, count ≤ j → Marked (sweep nodes count live) j → Marked live j) ∧
      ∀ i < count, Needs nodes (sweep nodes count live) i := by
  induction count generalizing live with
  | zero => exact ⟨size, fun _ => id, fun _ _ => id, fun _ none => absurd none (Nat.not_lt_zero _)⟩
  | succ count ih =>
    obtain ⟨next, swept, size', marks⟩ := sweep_succ ordered count size
    obtain ⟨sizeEnd, keptEnd, laterEnd, needsEnd⟩ := ih size'
    rw [swept]
    refine ⟨sizeEnd, fun j old => keptEnd j ((marks j).mpr (.inl old)), ?_, ?_⟩
    · intro j beyond marked
      rcases (marks j).mp (laterEnd j (Nat.le_of_succ_le beyond) marked) with old | ⟨same, -⟩ | ⟨-, reads⟩
      · exact old
      · omega
      · have := ordered.lt_of_reads reads
        omega
    · intro i below
      rcases Nat.lt_succ_iff_lt_or_eq.mp below with earlier | rfl
      · exact needsEnd i earlier
      · refine ⟨fun found input => keptEnd i ((marks i).mpr (.inr (.inl ⟨rfl, _, found, input⟩))), ?_⟩
        intro node found marked a b operands
        have reads {j : Nat} (same : j = a ∨ j = b) : Reads nodes i j := ⟨node, a, b, found, operands, same⟩
        -- The mark of the gate itself is final: only smaller numbers are marked from here on.
        rcases (marks i).mp (laterEnd i le_rfl marked) with old | ⟨-, input⟩ | ⟨-, loop⟩
        · exact ⟨keptEnd a ((marks a).mpr (.inr (.inr ⟨old, reads (.inl rfl)⟩))),
            keptEnd b ((marks b).mpr (.inr (.inr ⟨old, reads (.inr rfl)⟩)))⟩
        · exact absurd (reads (.inl rfl)) input.reads_nothing
        · exact absurd (ordered.lt_of_reads loop) (lt_irrefl i)

theorem size_kept {nodes : Array (Node F)} (ordered : Ordered nodes) (roots : List Nat) (removeDead : Bool) :
    (kept nodes roots removeDead).size = nodes.size :=
  (sweep_spec ordered nodes.size (by simp)).1

/-- Kept gates: the roots, all inputs, and with each gate its operands. -/
theorem kept_spec {nodes : Array (Node F)} (ordered : Ordered nodes) (roots : List Nat) (removeDead : Bool) :
    (∀ gate ∈ roots, gate < nodes.size → Marked (kept nodes roots removeDead) gate) ∧
      ∀ i, Needs nodes (kept nodes roots removeDead) i := by
  have size : (mark roots (Array.replicate nodes.size !removeDead)).size = nodes.size := by simp
  obtain ⟨sizeEnd, keeps, -, needs⟩ := sweep_spec ordered nodes.size size
  refine ⟨fun gate member inside => keeps gate (marked_mark.mpr (.inr ⟨member, by simpa using inside⟩)), fun i => ?_⟩
  by_cases inside : i < nodes.size
  · exact needs i inside
  · have none : nodes[i]? = none := Array.getElem?_eq_none (not_lt.mp inside)
    exact ⟨by simp [none], by simp [none]⟩

/-! ### Gates by depth -/

/-- Whether a gate is kept, satisfies a test and lies at a depth. -/
def lies (nodes : Array (Node F)) (live : Array Bool) (choose : Node F → Bool) (depth i : Nat) : Bool :=
  match nodes[i]? with
  | none => false
  | some node => live.getD i false && choose node && node.depth == depth

/-- The kept gates of a depth, inputs first. -/
def layerAt (nodes : Array (Node F)) (live : Array Bool) (depth : Nat) : List Nat :=
  (List.range nodes.size).filter (lies nodes live isInput depth) ++
    (List.range nodes.size).filter (lies nodes live (fun node => !isInput node) depth)

/-- Placing gates adds to each layer those that lie there, in order. -/
private theorem place_getElem? (nodes : Array (Node F)) (live : Array Bool) (choose : Node F → Bool)
    (layers : Array (Array Nat)) (d : Nat) :
    ((place nodes live choose layers)[d]?).map Array.toList =
      (layers[d]?).map fun layer => layer.toList ++ (List.range nodes.size).filter (lies nodes live choose d) := by
  rw [place]
  induction List.range nodes.size generalizing layers with
  | nil => simp
  | cons i rest ih =>
    rw [List.foldl_cons, ih, List.filter_cons]
    cases found : nodes[i]? with
    | none => simp [lies, found]
    | some node =>
      have here : lies nodes live choose d i = (live.getD i false && choose node && node.depth == d) := by
        rw [lies, found]
      rw [here]
      dsimp only
      generalize (live.getD i false && choose node) = chosen
      cases chosen with
      | false => simp
      | true =>
        rw [if_pos rfl, Array.getElem?_modify]
        by_cases same : node.depth = d
        · cases layers[d]? <;> simp [same]
        · simp [same]

private theorem size_place (nodes : Array (Node F)) (live : Array Bool) (choose : Node F → Bool)
    (layers : Array (Array Nat)) : (place nodes live choose layers).size = layers.size := by
  rw [place]
  induction List.range nodes.size generalizing layers with
  | nil => rfl
  | cons i rest ih =>
    rw [List.foldl_cons, ih]
    split
    · rfl
    · split
      · exact Array.size_modify
      · rfl

/-- The kept gates by layer. -/
def layerList (nodes : Array (Node F)) (live : Array Bool) : List (List Nat) :=
  (List.range (numLayers nodes live)).map (layerAt nodes live)

theorem toList_byDepth (nodes : Array (Node F)) (live : Array Bool) :
    (byDepth nodes live).toList.map Array.toList = layerList nodes live := by
  apply List.ext_getElem?
  intro d
  rw [List.getElem?_map, Array.getElem?_toList, byDepth, place_getElem?, layerList, List.getElem?_map]
  by_cases inside : d < numLayers nodes live
  · have placed := place_getElem? nodes live isInput (Array.replicate (numLayers nodes live) #[]) d
    rw [Array.getElem?_replicate, if_pos inside] at placed
    obtain ⟨layer, found, same⟩ := Option.map_eq_some_iff.mp placed
    rw [found, List.getElem?_range inside, Option.map_some, same]
    rfl
  · rw [Array.getElem?_eq_none (by rw [size_place, Array.size_replicate]; omega),
      List.getElem?_eq_none (by rw [List.length_range]; omega)]
    rfl

theorem mem_layerAt {nodes : Array (Node F)} {live : Array Bool} {d i : Nat} :
    i ∈ layerAt nodes live d ↔ ∃ node, nodes[i]? = some node ∧ Marked live i ∧ node.depth = d := by
  simp only [layerAt, List.mem_append, List.mem_filter, List.mem_range, lies]
  cases found : nodes[i]? with
  | none => simp
  | some node =>
    obtain ⟨inside, -⟩ := Array.getElem?_eq_some_iff.mp found
    cases input : isInput node <;> simp [inside, input, Marked]

theorem nodup_layerAt (nodes : Array (Node F)) (live : Array Bool) (d : Nat) : (layerAt nodes live d).Nodup := by
  refine List.Nodup.append (List.nodup_range.filter _) (List.nodup_range.filter _) ?_
  intro i input other
  have isIn := (List.mem_filter.mp input).2
  have isOther := (List.mem_filter.mp other).2
  rw [lies] at isIn isOther
  cases found : nodes[i]? with
  | none => simp [found] at isIn
  | some node => simp_all

/-- Kept gates lie in layers that are there. -/
theorem depth_lt_numLayers {nodes : Array (Node F)} {live : Array Bool} {i : Nat} {node : Node F}
    (found : nodes[i]? = some node) (marked : Marked live i) : node.depth < numLayers nodes live := by
  have grows (entries : List (Node F × Bool)) (n : Nat) :
      n ≤ entries.foldl (fun n entry => if entry.2 then max n (entry.1.depth + 1) else n) n ∧
        ∀ entry ∈ entries, entry.2 = true →
          entry.1.depth < entries.foldl (fun n entry => if entry.2 then max n (entry.1.depth + 1) else n) n := by
    induction entries generalizing n with
    | nil => exact ⟨le_rfl, List.forall_mem_nil _⟩
    | cons first rest ih =>
      obtain ⟨least, all⟩ := ih (if first.2 then max n (first.1.depth + 1) else n)
      rw [List.foldl_cons]
      refine ⟨le_trans ?_ least, List.forall_mem_cons.mpr ⟨fun alive => lt_of_lt_of_le ?_ least, all⟩⟩
      · split
        · exact le_max_left ..
        · rfl
      · rw [if_pos alive]
        exact le_max_right n (first.1.depth + 1)
  refine (grows _ 0).2 (node, true) ?_ rfl
  rw [Marked, Array.getD_eq_getD_getElem?] at marked
  cases alive : live[i]? with
  | none => simp [alive] at marked
  | some flag =>
    obtain rfl : flag = true := by simpa [alive] using marked
    rw [List.mem_iff_getElem?]
    exact ⟨i, by simp [List.getElem?_zip_eq_some, found, alive]⟩

/-- The kept gates in the order of their new numbers. -/
def order (nodes : Array (Node F)) (live : Array Bool) : List Nat := (layerList nodes live).flatten

theorem mem_order {nodes : Array (Node F)} {live : Array Bool} {i : Nat} (member : i ∈ order nodes live) :
    ∃ node, nodes[i]? = some node ∧ Marked live i := by
  obtain ⟨layer, there, member⟩ := List.mem_flatten.mp member
  obtain ⟨d, -, rfl⟩ := List.mem_map.mp there
  obtain ⟨node, found, marked, -⟩ := mem_layerAt.mp member
  exact ⟨node, found, marked⟩

theorem nodup_order (nodes : Array (Node F)) (live : Array Bool) : (order nodes live).Nodup := by
  rw [order, layerList, List.nodup_flatten]
  refine ⟨?_, List.pairwise_map.mpr (List.pairwise_lt_range.imp ?_)⟩
  · rintro layer member
    obtain ⟨d, -, rfl⟩ := List.mem_map.mp member
    exact nodup_layerAt nodes live d
  · intro d e shallower i here there
    obtain ⟨node, found, -, rfl⟩ := mem_layerAt.mp here
    obtain ⟨node', found', -, rfl⟩ := mem_layerAt.mp there
    cases found.symm.trans found'
    exact shallower.false

/-! ### New numbers -/

/-- In a list without repetition, each gate is numbered by its place. -/
theorem positions_getD {numNodes p gate : Nat} {order : List Nat} (distinct : order.Nodup) (inside : gate < numNodes)
    (found : order[p]? = some gate) : (positions numNodes order).getD gate numNodes = p := by
  have untouched (rest : List Nat) (k : Nat) (numbers : Array Nat) (absent : gate ∉ rest) :
      ((rest.zipIdx k).foldl (fun numbers entry => numbers.setIfInBounds entry.1 entry.2) numbers).getD gate numNodes =
        numbers.getD gate numNodes := by
    induction rest generalizing k numbers with
    | nil => rfl
    | cons first rest ih =>
      have differs : first ≠ gate := (List.ne_of_not_mem_cons absent).symm
      rw [List.zipIdx_cons, List.foldl_cons, ih _ _ (List.not_mem_of_not_mem_cons absent)]
      simp [Array.getD_eq_getD_getElem?, differs]
  have numbered (k : Nat) (numbers : Array Nat) (size : numbers.size = numNodes) :
      ((order.zipIdx k).foldl (fun numbers entry => numbers.setIfInBounds entry.1 entry.2) numbers).getD gate numNodes =
        k + p := by
    induction order generalizing k p numbers with
    | nil => cases found
    | cons first rest ih =>
      obtain ⟨absent, distinct⟩ := List.nodup_cons.mp distinct
      rw [List.zipIdx_cons, List.foldl_cons]
      cases p with
      | zero =>
        cases found
        rw [untouched _ _ _ absent]
        simp [Array.getD_eq_getD_getElem?, size, inside]
      | succ p =>
        rw [ih distinct found _ _ (by rw [Array.size_setIfInBounds, size])]
        omega
  exact (numbered 0 _ Array.size_replicate).trans (Nat.zero_add p)

/-- The new number of a kept gate. -/
def position (nodes : Array (Node F)) (live : Array Bool) (gate : Nat) : Nat :=
  (positions nodes.size (order nodes live)).getD gate nodes.size

/-- A kept gate stands at its new number, within the layer of its depth. -/
theorem position_spec {nodes : Array (Node F)} {live : Array Bool} {i : Nat} {node : Node F}
    (found : nodes[i]? = some node) (marked : Marked live i) :
    (order nodes live)[position nodes live i]? = some i ∧
      LayeredCircuit.start (layerList nodes live) node.depth ≤ position nodes live i ∧
      position nodes live i < LayeredCircuit.start (layerList nodes live) (node.depth + 1) := by
  have layer : (layerList nodes live)[node.depth]? = some (layerAt nodes live node.depth) := by
    rw [layerList, List.getElem?_map, List.getElem?_range (depth_lt_numLayers found marked), Option.map_some]
  obtain ⟨k, there⟩ := List.mem_iff_getElem?.mp (mem_layerAt.mpr ⟨node, found, marked, rfl⟩)
  obtain ⟨placed, below⟩ := LayeredCircuit.getElem?_flatten layer there
  obtain ⟨inside, -⟩ := Array.getElem?_eq_some_iff.mp found
  have number : position nodes live i = LayeredCircuit.start (layerList nodes live) node.depth + k :=
    positions_getD (nodup_order nodes live) inside placed
  rw [number]
  exact ⟨placed, Nat.le_add_right .., below⟩

end Layout

namespace Arena

variable {arena : Arena F} {live : Array Bool}

/-- An operand of a kept gate is kept and gets a number before the layer of its user. -/
theorem position_operand (wellFormed : arena.WellFormed) (needs : ∀ i, Layout.Needs arena.nodes live i)
    {i a b : Nat} {node : Node F} (found : arena.nodes[i]? = some node) (marked : Layout.Marked live i)
    (operands : node.gate.operands? = some (a, b)) :
    Layout.position arena.nodes live a < LayeredCircuit.start (Layout.layerList arena.nodes live) node.depth ∧
      Layout.position arena.nodes live b < LayeredCircuit.start (Layout.layerList arena.nodes live) node.depth := by
  obtain ⟨markedA, markedB⟩ := (needs i).operands found marked a b operands
  obtain ⟨beforeA, beforeB⟩ := wellFormed.operands found a b operands
  obtain ⟨inside, -⟩ := Array.getElem?_eq_some_iff.mp found
  have depth : node.depth = 1 + max (arena.depth a) (arena.depth b) := by
    rw [wellFormed.depths found, depthOver, operands]
  have before {g : Nat} (earlier : g < i) (markedG : Layout.Marked live g) (shallow : arena.depth g < node.depth) :
      Layout.position arena.nodes live g < LayeredCircuit.start (Layout.layerList arena.nodes live) node.depth := by
    have foundG : arena.nodes[g]? = some arena.nodes[g] := Array.getElem?_eq_getElem (earlier.trans inside)
    have depthG : arena.depth g = arena.nodes[g].depth := by rw [Arena.depth, foundG]
    obtain ⟨-, -, below⟩ := Layout.position_spec foundG markedG
    exact below.trans_le (LayeredCircuit.start_mono (by omega))
  exact ⟨before beforeA markedA (by omega), before beforeB markedB (by omega)⟩

/-- The gate that stands for a kept gate, over new numbers. -/
def placed (arena : Arena F) (live : Array Bool) (i : Nat) : Gate F :=
  (arena.gates.getD i (.input 0)).renumber (Layout.position arena.nodes live)

theorem placed_eq {i : Nat} {node : Node F} (found : arena.nodes[i]? = some node) :
    arena.placed live i = node.gate.renumber (Layout.position arena.nodes live) := by
  rw [placed, gates, List.getD_eq_getElem?_getD, List.getElem?_map, Array.getElem?_toList, found]
  rfl

/-- The circuit of the kept gates. -/
def laidOut (arena : Arena F) (live : Array Bool) (outputs : List Nat) (numExternal numPublic : Nat) :
    LayeredCircuit F where
  numInputs := arena.numInputs
  numExternal := numExternal
  numPublic := numPublic
  layers := (Layout.layerList arena.nodes live).map (·.map (arena.placed live))
  outputs := outputs.map (Layout.position arena.nodes live)
  constraints := arena.constraints.toList.map (Layout.position arena.nodes live)

theorem layout_eq (arena : Arena F) (outputs : List Nat) (removeDead : Bool) (numExternal numPublic : Nat) :
    (⟨arena.numInputs, numExternal, numPublic, (arena.layout outputs removeDead).layers,
      (arena.layout outputs removeDead).outputs, (arena.layout outputs removeDead).constraints⟩ : LayeredCircuit F) =
      arena.laidOut (Layout.kept arena.nodes (outputs ++ arena.constraints.toList) removeDead) outputs
        numExternal numPublic := by
  rw [layout, Layout.toList_byDepth, laidOut]
  generalize Layout.kept arena.nodes (outputs ++ arena.constraints.toList) removeDead = live
  congr 1
  refine List.map_congr_left fun layer member => ?_
  obtain ⟨d, -, rfl⟩ := List.mem_map.mp member
  rw [← List.filterMap_eq_map]
  refine List.filterMap_congr fun i member => ?_
  obtain ⟨node, found, -⟩ := Layout.mem_layerAt.mp member
  rw [found, Option.map_some, Function.comp_apply, placed_eq found]
  rfl

/-- The gate at the new number of a kept gate has the value of that gate. -/
private theorem run_placed (inputs : Array (Scalar F)) (wellFormed : arena.WellFormed)
    (needs : ∀ i, Layout.Needs arena.nodes live i) {i : Nat} {node : Node F} (found : arena.nodes[i]? = some node)
    (marked : Layout.Marked live i) :
    (Gate.run inputs ((Layout.order arena.nodes live).map (arena.placed live))).getD
      (Layout.position arena.nodes live i) 0 = arena.value inputs i := by
  induction i using Nat.strong_induction_on generalizing node with
  | _ i ih =>
    obtain ⟨here, above, -⟩ := Layout.position_spec found marked
    have gate : ((Layout.order arena.nodes live).map (arena.placed live))[Layout.position arena.nodes live i]? =
        some (node.gate.renumber (Layout.position arena.nodes live)) := by
      rw [List.getElem?_map, here, Option.map_some, placed_eq found]
    have old : arena.gates[i]? = some node.gate := by
      rw [gates, List.getElem?_map, Array.getElem?_toList, found, Option.map_some]
    rw [value, Gate.run_getD old (wellFormed.operands found), Gate.run_getD gate]
    · -- Operands have the same values by induction, since they stand before the gate.
      refine Gate.renumber_value fun a b operands => ?_
      obtain ⟨markedA, markedB⟩ := (needs i).operands found marked a b operands
      obtain ⟨beforeA, beforeB⟩ := wellFormed.operands found a b operands
      obtain ⟨inside, -⟩ := Array.getElem?_eq_some_iff.mp found
      exact ⟨ih a beforeA (Array.getElem?_eq_getElem (beforeA.trans inside)) markedA,
        ih b beforeB (Array.getElem?_eq_getElem (beforeB.trans inside)) markedB⟩
    · intro p q operands
      rw [Gate.operands?_renumber, Option.map_eq_some_iff] at operands
      obtain ⟨⟨a, b⟩, operands, ⟨⟩⟩ := operands
      obtain ⟨left, right⟩ := position_operand wellFormed needs found marked operands
      exact ⟨left.trans_le above, right.trans_le above⟩

private theorem isInput_iff {node : Node F} : Layout.isInput node = true ↔ ∃ j, node.gate = .input j := by
  cases gate : node.gate <;> simp [Layout.isInput, gate, Gate.kind]

private theorem depth_input (wellFormed : arena.WellFormed) {i j : Nat} {node : Node F}
    (found : arena.nodes[i]? = some node) (input : node.gate = .input j) : node.depth = 0 := by
  rw [wellFormed.depths found, input]
  rfl

private theorem filterMap_range {α : Type} (entries : List α) :
    (List.range entries.length).filterMap (entries[·]?) = entries := by
  induction entries using List.reverseRecOn with
  | nil => rfl
  | append_singleton entries last ih =>
    have earlier : (List.range entries.length).filterMap ((entries ++ [last])[·]?) = entries := by
      refine (List.filterMap_congr fun i member => ?_).trans ih
      rw [List.getElem?_append_left (List.mem_range.mp member)]
    rw [List.length_append, List.length_singleton, List.range_succ, List.filterMap_append, earlier]
    simp

/-- The first gates of the first layer are the inputs, in order. -/
theorem inputs_placed (wellFormed : arena.WellFormed) (needs : ∀ i, Layout.Needs arena.nodes live i) :
    ((List.range arena.nodes.size).filter (Layout.lies arena.nodes live Layout.isInput 0)).map (arena.placed live) =
      (List.range arena.numInputs).map .input := by
  have listed : (List.range arena.nodes.size).filterMap (fun i => arena.nodes[i]?.map Node.gate) = arena.gates := by
    refine Eq.trans (List.filterMap_congr fun i _ => ?_) (length_gates arena ▸ filterMap_range arena.gates)
    rw [gates, List.getElem?_map, Array.getElem?_toList]
  have chosen (indices : List Nat) (inside : ∀ i ∈ indices, i < arena.nodes.size) :
      (indices.filter (Layout.lies arena.nodes live Layout.isInput 0)).map (arena.placed live) =
        ((indices.filterMap fun i => arena.nodes[i]?.map Node.gate).filterMap Gate.input?).map .input := by
    induction indices with
    | nil => rfl
    | cons i rest ih =>
      obtain ⟨here, later⟩ := List.forall_mem_cons.mp inside
      have found : arena.nodes[i]? = some arena.nodes[i] := Array.getElem?_eq_getElem here
      rw [List.filter_cons, List.filterMap_cons, found, Option.map_some]
      dsimp only
      rw [List.filterMap_cons]
      by_cases input : Layout.isInput arena.nodes[i] = true
      · obtain ⟨j, gate⟩ := isInput_iff.mp input
        have lies : Layout.lies arena.nodes live Layout.isInput 0 i = true := by
          have marked : live.getD i false = true := (needs i).input found input
          rw [Layout.lies, found]
          simp only [marked, input, depth_input wellFormed found gate, beq_self_eq_true, Bool.and_self]
        rw [if_pos lies, List.map_cons, ih later, placed_eq found, gate]
        rfl
      · have lies : ¬ Layout.lies arena.nodes live Layout.isInput 0 i = true := by
          rw [Layout.lies, found]
          simp [input]
        have none : arena.nodes[i].gate.input? = none := by
          cases gate : arena.nodes[i].gate <;> simp_all [isInput_iff, Gate.input?]
        rw [if_neg lies, ih later, none]
  rw [chosen _ fun i member => List.mem_range.mp member, listed, wellFormed.inputs]

/-- The first layer holds the inputs and then no further ones. -/
private theorem layerAt_zero_placed (wellFormed : arena.WellFormed) (needs : ∀ i, Layout.Needs arena.nodes live i) :
    ∃ others : List (Gate F), (∀ gate ∈ others, gate.input? = none) ∧
      (Layout.layerAt arena.nodes live 0).map (arena.placed live) = (List.range arena.numInputs).map .input ++ others := by
  refine ⟨_, ?_, by rw [Layout.layerAt, List.map_append, inputs_placed wellFormed needs]⟩
  intro gate member
  obtain ⟨i, lies, rfl⟩ := List.mem_map.mp member
  have lies := (List.mem_filter.mp lies).2
  rw [Layout.lies] at lies
  cases found : arena.nodes[i]? with
  | none => simp [found] at lies
  | some node =>
    rw [placed_eq found]
    cases shape : node.gate <;> simp_all [Layout.isInput, Gate.kind, Gate.renumber, Gate.input?]

private theorem first_layer_cases (wellFormed : arena.WellFormed) (needs : ∀ i, Layout.Needs arena.nodes live i)
    {index : Nat} {gate : Gate F}
    (found : ((Layout.layerAt arena.nodes live 0).map (arena.placed live))[index]? = some gate) :
    index < arena.numInputs ∧ gate = .input index ∨ arena.numInputs ≤ index ∧ gate.input? = none := by
  obtain ⟨others, noInput, layer⟩ := layerAt_zero_placed wellFormed needs
  have length : ((List.range arena.numInputs).map (Gate.input (F := F))).length = arena.numInputs := by simp
  rw [layer] at found
  by_cases below : index < arena.numInputs
  · rw [List.getElem?_append_left (by rwa [length]), List.getElem?_map, List.getElem?_range below] at found
    exact .inl ⟨below, (Option.some.inj found).symm⟩
  · rw [List.getElem?_append_right (by rw [length]; omega)] at found
    exact .inr ⟨not_lt.mp below, noInput gate (List.mem_of_getElem? found)⟩

/-- Every gate of a layout keeps the rules of its kind. -/
private theorem placed_fits (wellFormed : arena.WellFormed) (needs : ∀ i, Layout.Needs arena.nodes live i)
    {d index : Nat} {gate : Gate F}
    (found : ((Layout.layerAt arena.nodes live d).map (arena.placed live))[index]? = some gate) :
    gate.Fits arena.numInputs d index (LayeredCircuit.start (Layout.layerList arena.nodes live) d) := by
  obtain ⟨i, here, rfl⟩ := Option.map_eq_some_iff.mp (List.getElem?_map ▸ found)
  obtain ⟨node, old, marked, rfl⟩ := Layout.mem_layerAt.mp (List.mem_of_getElem? here)
  have operands := @position_operand F arena live wellFormed needs i
  rw [placed_eq old] at found ⊢
  have depth := wellFormed.depths old
  cases shape : node.gate with
  | add a b coef =>
    rw [shape] at depth
    exact ⟨by simp [depth, depthOver, Gate.operands?], operands old marked (by rw [shape]; rfl)⟩
  | mul a b coef =>
    rw [shape] at depth
    exact ⟨by simp [depth, depthOver, Gate.operands?], operands old marked (by rw [shape]; rfl)⟩
  | input j =>
    have bottom : node.depth = 0 := depth_input wellFormed old shape
    rw [bottom, shape] at found
    rcases first_layer_cases wellFormed needs found with ⟨below, same⟩ | ⟨-, none⟩
    · cases same
      exact ⟨bottom, rfl, below⟩
    · cases none
  | constant k =>
    have bottom : node.depth = 0 := by rw [depth, shape]; rfl
    rw [bottom, shape] at found
    rcases first_layer_cases wellFormed needs found with ⟨-, same⟩ | ⟨above, -⟩
    · cases same
    · exact ⟨bottom, above⟩

section
variable {outputs : List Nat} {numExternal numPublic : Nat}

theorem gates_laidOut : (arena.laidOut live outputs numExternal numPublic).gates =
    (Layout.order arena.nodes live).map (arena.placed live) := by
  rw [laidOut, LayeredCircuit.gates, Layout.order, List.map_flatten]

theorem layer_laidOut {d : Nat} {layer : List (Gate F)}
    (here : (arena.laidOut live outputs numExternal numPublic).layers[d]? = some layer) :
    layer = (Layout.layerAt arena.nodes live d).map (arena.placed live) := by
  rw [laidOut, Layout.layerList, List.map_map, List.getElem?_map] at here
  obtain ⟨e, there, rfl⟩ := Option.map_eq_some_iff.mp here
  obtain ⟨short, rfl⟩ := List.getElem?_eq_some_iff.mp there
  rw [List.getElem_range, Function.comp_apply]

theorem layers_laidOut_nonempty (wellFormed : arena.WellFormed) (needs : ∀ i, Layout.Needs arena.nodes live i)
    (empty : (arena.laidOut live outputs numExternal numPublic).layers = []) : arena.numInputs = 0 := by
  have none : Layout.numLayers arena.nodes live = 0 := by simpa [laidOut, Layout.layerList] using empty
  have bottom : Layout.layerAt arena.nodes live 0 = [] := by
    refine List.eq_nil_iff_forall_not_mem.mpr fun i member => ?_
    obtain ⟨node, found, marked, -⟩ := Layout.mem_layerAt.mp member
    exact absurd (Layout.depth_lt_numLayers found marked) (by rw [none]; exact Nat.not_lt_zero _)
  obtain ⟨others, -, first⟩ := layerAt_zero_placed wellFormed needs
  rw [bottom, List.map_nil] at first
  simpa using (List.append_eq_nil_iff.mp first.symm).1

private theorem position_laidOut (outputs : List Nat) (numExternal numPublic : Nat) (wellFormed : arena.WellFormed)
    (needs : ∀ i, Layout.Needs arena.nodes live i) {gate : Nat} (inside : gate < arena.nodes.size)
    (marked : Layout.Marked live gate) :
    Layout.position arena.nodes live gate < (arena.laidOut live outputs numExternal numPublic).gates.length ∧
      ∀ inputs, (arena.laidOut live outputs numExternal numPublic).valueAt inputs
        (Layout.position arena.nodes live gate) = arena.value inputs.toArray gate := by
  have found : arena.nodes[gate]? = some arena.nodes[gate] := Array.getElem?_eq_getElem inside
  constructor
  · obtain ⟨here, -⟩ := List.getElem?_eq_some_iff.mp (Layout.position_spec found marked).1
    rwa [gates_laidOut, List.length_map]
  · intro inputs
    rw [LayeredCircuit.valueAt, gates_laidOut]
    exact run_placed inputs.toArray wellFormed needs found marked

/-- A laid out arena passes every check, and its outputs and constraint gates have their values. -/
theorem layout_spec (wellFormed : arena.WellFormed) (inside : ∀ gate ∈ outputs, gate < arena.nodes.size)
    (removeDead : Bool) (publicFirst : numPublic ≤ numExternal) (external : numExternal ≤ arena.numInputs) :
    ∃ c : LayeredCircuit F,
      c = ⟨arena.numInputs, numExternal, numPublic, (arena.layout outputs removeDead).layers,
        (arena.layout outputs removeDead).outputs, (arena.layout outputs removeDead).constraints⟩ ∧ c.WellFormed ∧
      ∀ inputs, c.outputs.map (c.valueAt inputs) = outputs.map (arena.value inputs.toArray) ∧
        c.constraints.map (c.valueAt inputs) = arena.constraints.toList.map (arena.value inputs.toArray) := by
  refine ⟨_, rfl, ?_⟩
  rw [layout_eq]
  obtain ⟨roots, needs⟩ := Layout.kept_spec wellFormed.operands (outputs ++ arena.constraints.toList) removeDead
  generalize Layout.kept arena.nodes (outputs ++ arena.constraints.toList) removeDead = live at roots needs
  obtain ⟨rootOutputs, rootConstraints⟩ := List.forall_mem_append.mp roots
  have output (gate : Nat) (member : gate ∈ outputs) :=
    position_laidOut outputs numExternal numPublic wellFormed needs
      (inside gate member) (rootOutputs gate member (inside gate member))
  have constraint (gate : Nat) (member : gate ∈ arena.constraints.toList) :=
    position_laidOut outputs numExternal numPublic wellFormed needs
      (wellFormed.constraints gate member) (rootConstraints gate member (wellFormed.constraints gate member))
  refine ⟨⟨publicFirst, external, layers_laidOut_nonempty wellFormed needs, ?_, ?_, ?_, ?_⟩, fun inputs => ⟨?_, ?_⟩⟩
  · intro d index layer gate here there
    obtain rfl := layer_laidOut here
    rw [laidOut, LayeredCircuit.start_map _ (fun layer => List.length_map _)]
    exact placed_fits wellFormed needs there
  · intro layer here
    obtain ⟨others, -, first⟩ := layerAt_zero_placed wellFormed needs
    rw [layer_laidOut here, first, laidOut]
    simp
  · exact List.forall_mem_map.mpr fun gate member => (output gate member).1
  · exact List.forall_mem_map.mpr fun gate member => (constraint gate member).1
  · rw [laidOut, List.map_map]
    exact List.map_congr_left fun gate member => (output gate member).2 inputs
  · rw [laidOut, List.map_map]
    exact List.map_congr_left fun gate member => (constraint gate member).2 inputs

end

end Arena
end ArithCircuit
