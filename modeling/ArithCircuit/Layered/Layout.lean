import ArithCircuit.Layered.Arena

/-!
Laying out gates in layers by depth. Gates that no output and no constraint depends on can be left
out, input gates excepted; the rest are renumbered layer by layer.
-/
namespace ArithCircuit
namespace Layout
variable {F : ScalarField}

/-- Marks gates. -/
def mark (gates : List Nat) (live : Array Bool) : Array Bool :=
  gates.foldl (fun live gate => live.setIfInBounds gate true) live

/-- Marks what the first `count` gates need, from the last to the first: input gates, and the
    operands of marked gates. Operands stand before their users, so one sweep is enough. -/
def sweep (nodes : Array (Node F)) : (count : Nat) → Array Bool → Array Bool
  | 0, live => live
  | i + 1, live =>
    match nodes[i]? with
    | none => sweep nodes i live
    | some node =>
      match node.gate with
      | .input _ => sweep nodes i (live.setIfInBounds i true)
      | gate =>
        match live.getD i false, gate.operands? with
        | true, some (a, b) => sweep nodes i (mark [a, b] live)
        | _, _ => sweep nodes i live

/-- Which gates are kept: all, or those that the given gates depend on and the inputs. -/
def kept (nodes : Array (Node F)) (roots : List Nat) (removeDead : Bool) : Array Bool :=
  sweep nodes nodes.size (mark roots (Array.replicate nodes.size !removeDead))

/-- The number of layers: one more than the depth of the deepest kept gate. -/
def numLayers (nodes : Array (Node F)) (live : Array Bool) : Nat :=
  (nodes.toList.zip live.toList).foldl (fun n (node, alive) => if alive then max n (node.depth + 1) else n) 0

/-- Whether a gate is an input. -/
def isInput (node : Node F) : Bool := node.gate.kind == .input

/-- Adds the kept gates that satisfy a test to the layers of their depths. -/
def place (nodes : Array (Node F)) (live : Array Bool) (choose : Node F → Bool)
    (layers : Array (Array Nat)) : Array (Array Nat) :=
  (List.range nodes.size).foldl (fun layers i =>
    match nodes[i]? with
    | none => layers
    | some node =>
      if live.getD i false && choose node then layers.modify node.depth (·.push i) else layers) layers

/-- The kept gates by depth, in the order they were added; inputs come before constants. -/
def byDepth (nodes : Array (Node F)) (live : Array Bool) : Array (Array Nat) :=
  place nodes live (fun node => !isInput node) <|
    place nodes live isInput (Array.replicate (numLayers nodes live) #[])

/-- The new number of each gate. A gate that is left out gets a number past all gates. -/
def positions (numNodes : Nat) (order : List Nat) : Array Nat :=
  order.zipIdx.foldl (fun positions (gate, position) => positions.setIfInBounds gate position)
    (Array.replicate numNodes numNodes)

end Layout

/-- The layers of an arena, and its outputs and constraints by their new numbers. -/
structure Layout (F : ScalarField) where
  layers : List (List (Gate F))
  outputs : List Nat
  constraints : List Nat

/-- Lays out an arena. -/
def Arena.layout {F : ScalarField} (arena : Arena F) (outputs : List Nat) (removeDead : Bool) :
    Layout F :=
  let nodes := arena.nodes
  let constraints := arena.constraints.toList
  let live := Layout.kept nodes (outputs ++ constraints) removeDead
  let layers := (Layout.byDepth nodes live).toList.map Array.toList
  let positions := Layout.positions nodes.size layers.flatten
  let position := fun gate => positions.getD gate nodes.size
  let gate := fun i => (nodes[i]?).map fun node => node.gate.renumber position
  { layers := layers.map fun layer => layer.filterMap gate
    outputs := outputs.map position
    constraints := constraints.map position }

end ArithCircuit
