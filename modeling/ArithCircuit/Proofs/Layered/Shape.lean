import Mathlib.Order.Bounds.Defs
import ArithCircuit.Proofs.Layered.Liveness
import ArithCircuit.Proofs.Layered.Tidiness

/-!
The shape of layered circuits that come from designs. The first layer holds the inputs in order and then
constants, each once; no layer is empty; and every gate of a later layer is a sum or a product with a
coefficient other than zero that has an operand in the layer right before its own. The layer of a gate is
therefore the length of the longest path from it down to an input or a constant.
-/
namespace ArithCircuit
variable {F : ScalarField}

namespace LayeredCircuit

theorem start_succ {α : Type} (layers : List (List α)) (d : Nat) :
    start layers (d + 1) = start layers d + (layers[d]?).elim 0 List.length := by
  rw [start, List.take_add_one, List.map_append, List.sum_append, start]
  cases layers[d]? <;> rfl

/-- A number within the bounds of a layer is the number of an entry of this layer. -/
theorem exists_of_start_le {α : Type} {layers : List (List α)} {d p : Nat} (above : start layers d ≤ p)
    (below : p < start layers (d + 1)) :
    ∃ layer k x, layers[d]? = some layer ∧ layer[k]? = some x ∧ p = start layers d + k := by
  rw [start_succ] at below
  cases found : layers[d]? with
  | none =>
    rw [found, Option.elim_none] at below
    omega
  | some layer =>
    rw [found, Option.elim_some] at below
    refine ⟨layer, p - start layers d, _, rfl, List.getElem?_eq_getElem (by omega), by omega⟩

/-- A number below the start of a layer is the number of an entry of an earlier layer. -/
theorem exists_of_lt_start {α : Type} {layers : List (List α)} {n p : Nat} (below : p < start layers n) :
    ∃ d < n, ∃ layer k x, layers[d]? = some layer ∧ layer[k]? = some x ∧ p = start layers d + k := by
  induction n with
  | zero => exact absurd below (Nat.not_lt_zero _)
  | succ n ih =>
    rcases lt_or_ge p (start layers n) with earlier | here
    · obtain ⟨d, before, found⟩ := ih earlier
      exact ⟨d, before.trans n.lt_succ_self, found⟩
    · exact ⟨n, n.lt_succ_self, exists_of_start_le here below⟩

/-- From a gate, operands can be followed for a number of steps. -/
inductive Descends (c : LayeredCircuit F) : (steps gate : Nat) → Prop
  | stay (gate : Nat) : Descends c 0 gate
  | follow {steps user operand : Nat} : c.Operand user operand → Descends c steps operand → Descends c (steps + 1) user

/-- A gate of a layer is a sum or a product, not of zero, of gates of earlier layers, at least one of them
    in the layer right before. -/
def Rests (c : LayeredCircuit F) (d : Nat) (gate : Gate F) : Prop :=
  ∃ a b coef, (gate = .add a b coef ∨ gate = .mul a b coef) ∧ coef ≠ 0 ∧
    (a < start c.layers (d + 1) ∧ b < start c.layers (d + 1)) ∧ (start c.layers d ≤ a ∨ start c.layers d ≤ b)

/-- Gates lie in layers by depth. -/
structure Stratified (c : LayeredCircuit F) : Prop where
  /-- The first layer holds the inputs in order and then constants, all different. -/
  first : ∃ constants : List (Scalar F), constants.Nodup ∧
    c.layers.headD [] = (List.range c.numInputs).map .input ++ constants.map .constant
  nonempty : [] ∉ c.layers
  later : ∀ {d : Nat} {layer : List (Gate F)}, c.layers[d + 1]? = some layer → ∀ gate ∈ layer, c.Rests d gate
  /-- The layer of a gate is the length of the longest path down from it. -/
  depth : ∀ {d k : Nat} {layer : List (Gate F)} {gate : Gate F}, c.layers[d]? = some layer → layer[k]? = some gate →
    IsGreatest {steps | c.Descends steps (start c.layers d + k)} d

section
variable {c : LayeredCircuit F}

theorem Rests.operands {d : Nat} {gate : Gate F} (rests : c.Rests d gate) :
    ∃ a b, gate.operands? = some (a, b) ∧ (a < start c.layers (d + 1) ∧ b < start c.layers (d + 1)) ∧
      (start c.layers d ≤ a ∨ start c.layers d ≤ b) := by
  obtain ⟨a, b, coef, rfl | rfl, -, below, above⟩ := rests
  · exact ⟨a, b, rfl, below, above⟩
  · exact ⟨a, b, rfl, below, above⟩

variable (later : ∀ {d : Nat} {layer : List (Gate F)}, c.layers[d + 1]? = some layer → ∀ gate ∈ layer, c.Rests d gate)
include later

/-- From a gate of a layer, operands can be followed down to the first layer, one layer at a time. -/
theorem descends_of_layer {d k : Nat} {layer : List (Gate F)} {gate : Gate F} (here : c.layers[d]? = some layer)
    (found : layer[k]? = some gate) : c.Descends d (start c.layers d + k) := by
  induction d generalizing k layer gate with
  | zero => exact .stay _
  | succ d ih =>
    obtain ⟨a, b, operands, ⟨belowA, belowB⟩, above⟩ := (later here gate (List.mem_of_getElem? found)).operands
    have follow {operand : Nat} (same : operand = a ∨ operand = b) (below : operand < start c.layers (d + 1))
        (above : start c.layers d ≤ operand) : c.Descends (d + 1) (start c.layers (d + 1) + k) := by
      obtain ⟨layer', k', gate', here', found', rfl⟩ := exists_of_start_le above below
      exact .follow ⟨gate, a, b, (getElem?_flatten here found).1, operands, same⟩ (ih here' found')
    rcases above with left | right
    · exact follow (.inl rfl) belowA left
    · exact follow (.inr rfl) belowB right

/-- Operands cannot be followed for longer, since each lies in an earlier layer. -/
theorem Descends.le_layer (first : ∀ layer, c.layers[0]? = some layer → ∀ gate ∈ layer, gate.operands? = none)
    {steps p : Nat} (descends : c.Descends steps p) {d k : Nat} {layer : List (Gate F)} {gate : Gate F}
    (here : c.layers[d]? = some layer) (found : layer[k]? = some gate) (same : p = start c.layers d + k) : steps ≤ d := by
  induction descends generalizing d k layer gate with
  | stay => exact Nat.zero_le _
  | follow operand _ ih =>
    obtain ⟨gate', a, b, there, operands, which⟩ := operand
    rw [same] at there
    cases (getElem?_flatten here found).1.symm.trans there
    cases d with
    | zero =>
      rw [first layer here gate (List.mem_of_getElem? found)] at operands
      cases operands
    | succ d =>
      obtain ⟨a', b', operands', ⟨belowA, belowB⟩, -⟩ := (later here gate (List.mem_of_getElem? found)).operands
      cases operands.symm.trans operands'
      have below := which.elim (· ▸ belowA) (· ▸ belowB)
      obtain ⟨e, before, layer', k', gate', here', found', same'⟩ := exists_of_lt_start below
      exact Nat.succ_le_of_lt (lt_of_le_of_lt (ih here' found' same') before)

end
end LayeredCircuit

/-! ### Laid out arenas -/

namespace Layout
variable {nodes : Array (Node F)} {live : Array Bool}

theorem Needs.marked_of_reads {i j : Nat} (needs : Needs nodes live i) (marked : Marked live i) (reads : Reads nodes i j) :
    Marked live j := by
  obtain ⟨node, a, b, found, operands, same⟩ := reads
  obtain ⟨markedA, markedB⟩ := needs.operands found marked a b operands
  rcases same with rfl | rfl
  · exact markedA
  · exact markedB

/-- Counting layers on from a number gives this number or one more than the depth of a kept gate. -/
private theorem foldl_deepest (entries : List (Node F × Bool)) (n : Nat) :
    entries.foldl (fun n entry => if entry.2 then max n (entry.1.depth + 1) else n) n = n ∨
      ∃ entry ∈ entries, entry.2 = true ∧
        entries.foldl (fun n entry => if entry.2 then max n (entry.1.depth + 1) else n) n = entry.1.depth + 1 := by
  induction entries generalizing n with
  | nil => exact .inl rfl
  | cons first rest ih =>
    rw [List.foldl_cons]
    rcases ih (if first.2 then max n (first.1.depth + 1) else n) with same | ⟨entry, member, alive, same⟩
    · rw [same]
      by_cases alive : first.2 = true
      · rw [if_pos alive]
        rcases max_choice n (first.1.depth + 1) with before | here
        · exact .inl before
        · exact .inr ⟨first, List.mem_cons_self .., alive, here⟩
      · exact .inl (if_neg alive)
    · exact .inr ⟨entry, List.mem_cons_of_mem _ member, alive, same⟩

/-- If there are layers, a kept gate lies in the last. -/
theorem exists_deepest (layered : numLayers nodes live ≠ 0) :
    ∃ i node, nodes[i]? = some node ∧ Marked live i ∧ numLayers nodes live = node.depth + 1 := by
  rcases foldl_deepest (nodes.toList.zip live.toList) 0 with none | ⟨⟨node, flag⟩, member, alive, same⟩
  · exact absurd none layered
  · obtain ⟨i, here⟩ := List.mem_iff_getElem?.mp member
    obtain ⟨found, flagged⟩ := List.getElem?_zip_eq_some.mp here
    refine ⟨i, node, by simpa using found, ?_, same⟩
    have flagged : live[i]? = some flag := by simpa using flagged
    rwa [Marked, Array.getD_eq_getD_getElem?, flagged, Option.getD_some]

end Layout

namespace Arena
variable {arena : Arena F} {live : Array Bool} {outputs : List Nat} {numExternal numPublic : Nat}

/-- A gate below the first layer reads a gate one layer up. -/
theorem exists_reads (wellFormed : arena.WellFormed) {i d : Nat} {node : Node F} (found : arena.nodes[i]? = some node)
    (deep : node.depth = d + 1) :
    ∃ j other, Layout.Reads arena.nodes i j ∧ arena.nodes[j]? = some other ∧ other.depth = d := by
  obtain ⟨inside, -⟩ := Array.getElem?_eq_some_iff.mp found
  have depth := wellFormed.depths found
  rw [deep, depthOver] at depth
  cases operands : node.gate.operands? with
  | none =>
    rw [operands] at depth
    cases depth
  | some pair =>
    obtain ⟨a, b⟩ := pair
    rw [operands] at depth
    obtain ⟨beforeA, beforeB⟩ := wellFormed.operands found a b operands
    have reads {j : Nat} (same : j = a ∨ j = b) (before : j < i) (deepest : arena.depth j = d) :
        ∃ j other, Layout.Reads arena.nodes i j ∧ arena.nodes[j]? = some other ∧ other.depth = d := by
      have there : arena.nodes[j]? = some arena.nodes[j] := Array.getElem?_eq_getElem (before.trans inside)
      refine ⟨j, arena.nodes[j], ⟨node, a, b, found, operands, same⟩, there, ?_⟩
      rw [Arena.depth, there] at deepest
      exact deepest
    rcases max_choice (arena.depth a) (arena.depth b) with left | right
    · exact reads (.inl rfl) beforeA (by dsimp only at depth; omega)
    · exact reads (.inr rfl) beforeB (by dsimp only at depth; omega)

section
variable (wellFormed : arena.WellFormed) (needs : ∀ i, Layout.Needs arena.nodes live i)
include wellFormed needs

/-- Above a kept gate, every layer has a kept gate. -/
theorem exists_kept_above {i d : Nat} {node : Node F} (found : arena.nodes[i]? = some node) (marked : Layout.Marked live i)
    (above : d ≤ node.depth) : ∃ j, j ∈ Layout.layerAt arena.nodes live d := by
  obtain ⟨e, deep⟩ := Nat.exists_eq_add_of_le above
  induction e generalizing i node with
  | zero => exact ⟨i, Layout.mem_layerAt.mpr ⟨node, found, marked, deep⟩⟩
  | succ e ih =>
    obtain ⟨j, other, reads, there, depth⟩ := exists_reads wellFormed found (deep.trans (Nat.add_assoc d e 1).symm)
    exact ih there ((needs i).marked_of_reads marked reads) (depth ▸ Nat.le_add_right ..) depth

theorem nil_not_mem_layers : [] ∉ (arena.laidOut live outputs numExternal numPublic).layers := by
  intro empty
  obtain ⟨d, here⟩ := List.mem_iff_getElem?.mp empty
  have below : d < Layout.numLayers arena.nodes live := by
    obtain ⟨inside, -⟩ := List.getElem?_eq_some_iff.mp here
    simpa [laidOut, Layout.layerList] using inside
  obtain ⟨i, node, found, marked, last⟩ := Layout.exists_deepest (Nat.ne_zero_of_lt below)
  obtain ⟨j, member⟩ := exists_kept_above wellFormed needs found marked (d := d) (by omega)
  rw [List.map_eq_nil_iff.mp (layer_laidOut here).symm] at member
  cases member

end

/-- A gate of the first layer is an input or a constant. -/
theorem exists_constant (wellFormed : arena.WellFormed) {i : Nat} {node : Node F} (found : arena.nodes[i]? = some node)
    (bottom : node.depth = 0) (notInput : ¬ Layout.isInput node = true) : ∃ value, node.gate = .constant value := by
  have depth := wellFormed.depths found
  rw [bottom] at depth
  cases shape : node.gate with
  | input index => exact absurd (by rw [Layout.isInput, shape]; rfl) notInput
  | constant value => exact ⟨value, rfl⟩
  | add a b coef =>
    rw [shape] at depth
    have depth : 0 = 1 + max (arena.depth a) (arena.depth b) := depth
    omega
  | mul a b coef =>
    rw [shape] at depth
    have depth : 0 = 1 + max (arena.depth a) (arena.depth b) := depth
    omega

section
variable (tidy : arena.Tidy) (needs : ∀ i, Layout.Needs arena.nodes live i)
include tidy needs

/-- The first layer holds the inputs in order and then constants, all different. -/
theorem first_layer :
    ∃ constants : List (Scalar F), constants.Nodup ∧
      (Layout.layerAt arena.nodes live 0).map (arena.placed live) =
        (List.range arena.numInputs).map .input ++ constants.map .constant := by
  rw [Layout.layerAt, List.map_append, inputs_placed tidy.wellFormed needs]
  have exist : ∀ i ∈ (List.range arena.nodes.size).filter
      (Layout.lies arena.nodes live (fun node => !Layout.isInput node) 0),
      ∃ value : Scalar F, arena.gates[i]? = some (.constant value) := by
    intro i member
    have lies := (List.mem_filter.mp member).2
    rw [Layout.lies] at lies
    cases found : arena.nodes[i]? with
    | none => simp [found] at lies
    | some node =>
      obtain ⟨⟨-, notInput⟩, bottom⟩ : (live.getD i false = true ∧ Layout.isInput node = false) ∧ node.depth = 0 := by
        simpa [found] using lies
      obtain ⟨value, constant⟩ := exists_constant tidy.wellFormed found bottom (by rw [notInput]; exact Bool.false_ne_true)
      exact ⟨value, by rw [gates, List.getElem?_map, Array.getElem?_toList, found, Option.map_some, constant]⟩
  obtain ⟨constants, pairs⟩ := forall₂_of_exists exist
  refine ⟨constants, ?_, congrArg _ ?_⟩
  · have unique : Relator.BiUnique fun (i : Nat) (value : Scalar F) => arena.gates[i]? = some (.constant value) := by
      refine ⟨fun i value j left right => ?_, fun i value other left right => ?_⟩
      · exact Option.some.inj ((tidy.constants left).symm.trans (tidy.constants right))
      · cases left.symm.trans right
        rfl
    exact (List.rel_nodup unique pairs).mp (List.nodup_range.filter _)
  · rw [← List.forall₂_eq_eq_eq, List.forall₂_map_left_iff, List.forall₂_map_right_iff]
    refine pairs.imp fun i value found => ?_
    rw [placed, List.getD_eq_getElem?_getD, found]
    rfl

/-- The gates of a later layer are sums and products that rest on the layer before. -/
theorem rests_of_layer {d : Nat} {gate : Gate F}
    (member : gate ∈ (Layout.layerAt arena.nodes live (d + 1)).map (arena.placed live)) :
    (arena.laidOut live outputs numExternal numPublic).Rests d gate := by
  obtain ⟨i, listed, rfl⟩ := List.mem_map.mp member
  obtain ⟨node, found, marked, deep⟩ := Layout.mem_layerAt.mp listed
  have starts (e : Nat) : LayeredCircuit.start (arena.laidOut live outputs numExternal numPublic).layers e =
      LayeredCircuit.start (Layout.layerList arena.nodes live) e :=
    LayeredCircuit.start_map _ (fun layer => List.length_map _) _ e
  obtain ⟨j, other, reads, there, depth⟩ := exists_reads tidy.wellFormed found deep
  obtain ⟨-, above, -⟩ := Layout.position_spec there ((needs i).marked_of_reads marked reads)
  rw [depth] at above
  obtain ⟨_, a, b, found', operands, same⟩ := reads
  cases found.symm.trans found'
  have below := position_operand tidy.wellFormed needs found marked operands
  rw [deep] at below
  have old : arena.gates[i]? = some node.gate := by
    rw [gates, List.getElem?_map, Array.getElem?_toList, found, Option.map_some]
  rw [placed_eq found, LayeredCircuit.Rests, starts, starts]
  have higher := same.imp (fun same => same ▸ above) (fun same => same ▸ above)
  cases shape : node.gate with
  | input index => simp [shape, Gate.operands?] at operands
  | constant value => simp [shape, Gate.operands?] at operands
  | add a' b' coef =>
    rw [shape] at operands old
    cases operands
    exact ⟨_, _, coef, .inl rfl, tidy.coefs old coef rfl, below, higher⟩
  | mul a' b' coef =>
    rw [shape] at operands old
    cases operands
    exact ⟨_, _, coef, .inr rfl, tidy.coefs old coef rfl, below, higher⟩

/-- A tidy arena is laid out by depth. -/
theorem stratified_laidOut : (arena.laidOut live outputs numExternal numPublic).Stratified := by
  obtain ⟨constants, distinct, first⟩ := first_layer tidy needs
  have later {d : Nat} {layer : List (Gate F)}
      (here : (arena.laidOut live outputs numExternal numPublic).layers[d + 1]? = some layer) :
      ∀ gate ∈ layer, (arena.laidOut live outputs numExternal numPublic).Rests d gate := by
    rw [layer_laidOut here]
    exact fun gate member => rests_of_layer tidy needs member
  refine ⟨?_, nil_not_mem_layers tidy.wellFormed needs, later, fun here found => ⟨?_, ?_⟩⟩
  · cases layers : (arena.laidOut live outputs numExternal numPublic).layers with
    | nil =>
      refine ⟨[], List.nodup_nil, ?_⟩
      have none : (arena.laidOut live outputs numExternal numPublic).numInputs = 0 :=
        layers_laidOut_nonempty tidy.wellFormed needs layers
      rw [none]
      rfl
    | cons layer rest =>
      have here : (arena.laidOut live outputs numExternal numPublic).layers[0]? = some layer := by rw [layers]; rfl
      exact ⟨constants, distinct, (layer_laidOut here).trans first⟩
  · exact LayeredCircuit.descends_of_layer later here found
  · refine fun steps descends => LayeredCircuit.Descends.le_layer later (fun layer bottom gate member => ?_) descends here
      found rfl
    rw [layer_laidOut bottom, first] at member
    rcases List.mem_append.mp member with input | constant
    · obtain ⟨index, -, rfl⟩ := List.mem_map.mp input
      rfl
    · obtain ⟨value, -, rfl⟩ := List.mem_map.mp constant
      rfl

end

end Arena

/-- Lowering a checked design succeeds, with dead gates or without them, in a circuit that passes all checks
    and whose gates lie in layers by depth. -/
theorem Design.emit_stratified {D : Design F} (checked : D.validate = .ok ()) (removeDead : Bool) :
    ∃ L, D.emit removeDead = .ok L ∧
      LayeredCircuit.ofParts L.numInputs L.numExternal L.numPublic L.layers L.outputs L.constraints = .ok L ∧
      L.Stratified := by
  obtain ⟨L, entry, emitted, -, -, accepted, -⟩ := Design.emit_spec (D.valid_of_validate checked) removeDead []
  refine ⟨L, emitted, LayeredCircuit.ofParts_eq_ok_iff.mpr ⟨rfl, accepted⟩, ?_⟩
  obtain ⟨_, _, arena, outputs, -, -, -, tidy, -, rfl⟩ := Design.exists_arena_of_emit emitted
  exact Arena.stratified_laidOut tidy (Layout.kept_spec tidy.wellFormed.operands _ _).2

/-- A design whose callee takes a hint after the first product; nothing reads that product or the last. -/
def Design.lateHint : Design .mersenne31 :=
  .ofList [(.entry, ⟨1, 0, [.product (.wire 1) (.wire 1) 2, .call 1 [.wire 2] [3], .product (.wire 3) (.wire 3) 4,
      .product (.wire 4) (.wire 4) 5], [⟨[⟨-1, .one⟩, ⟨1, 4⟩]⟩], [.wire 3]⟩),
    (1, ⟨1, 0, [.hint "half" [⟨[⟨1, 1⟩]⟩] [2], .linear ⟨[⟨.ofNat 5, .one⟩, ⟨1, 2⟩]⟩ 3], [], [.wire 3]⟩)]

theorem Design.lateHint_emit_stratified :
    Design.lateHint.validate = .ok () ∧
      (Design.lateHint.emit false).toOption.map (·.layers.map List.length) = some [3, 2, 1, 2] ∧
      (Design.lateHint.emit true).toOption.map (·.layers.map List.length) = some [3, 1, 1, 1] ∧
      ∀ removeDead, ∃ L, Design.lateHint.emit removeDead = .ok L ∧
        LayeredCircuit.ofParts L.numInputs L.numExternal L.numPublic L.layers L.outputs L.constraints = .ok L ∧
        L.Stratified :=
  ⟨by decide, by decide +kernel, by decide +kernel, Design.emit_stratified (by decide)⟩

end ArithCircuit
