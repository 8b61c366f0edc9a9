import ArithCircuit.Proofs.Basic
import ArithCircuit.Proofs.Layered.Arena

/-!
What the checks of a layered circuit accept, and when evaluating one succeeds.
-/
namespace ArithCircuit
variable {F : ScalarField}

/-- A gate at a position of a layer, with `start` gates in earlier layers, keeps the rules of its kind. -/
def Gate.Fits (numInputs layer index start : Nat) : Gate F → Prop
  | .input i => layer = 0 ∧ i = index ∧ i < numInputs
  | .constant _ => layer = 0 ∧ numInputs ≤ index
  | .add a b _ | .mul a b _ => layer ≠ 0 ∧ a < start ∧ b < start

namespace LayeredCircuit

/-- The number of entries before a layer. -/
def start {α : Type} (layers : List (List α)) (layer : Nat) : Nat := ((layers.take layer).map List.length).sum

@[simp] theorem start_zero {α : Type} (layers : List (List α)) : start layers 0 = 0 := rfl

@[simp] theorem start_cons_succ {α : Type} (first : List α) (rest : List (List α)) (layer : Nat) :
    start (first :: rest) (layer + 1) = first.length + start rest layer := by
  rw [start, List.take_succ_cons, List.map_cons, List.sum_cons, start]

theorem start_mono {α : Type} {layers : List (List α)} {d e : Nat} (le : d ≤ e) : start layers d ≤ start layers e := by
  induction layers generalizing d e with
  | nil => simp [start]
  | cons first rest ih =>
    cases d with
    | zero => exact Nat.zero_le _
    | succ d =>
      obtain ⟨e, rfl⟩ : ∃ less, e = less + 1 := ⟨e - 1, by omega⟩
      rw [start_cons_succ, start_cons_succ]
      exact Nat.add_le_add_left (ih (Nat.le_of_succ_le_succ le)) _

theorem start_map {α β : Type} (f : List α → List β) (same : ∀ layer, (f layer).length = layer.length)
    (layers : List (List α)) (d : Nat) : start (layers.map f) d = start layers d := by
  rw [start, ← List.map_take, List.map_map, start]
  exact congrArg List.sum (List.map_congr_left fun layer _ => same layer)

/-- The entries of a layer follow those of the layers before it. -/
theorem getElem?_flatten {α : Type} {layers : List (List α)} {d k : Nat} {layer : List α} {x : α}
    (found : layers[d]? = some layer) (inside : layer[k]? = some x) :
    layers.flatten[start layers d + k]? = some x ∧ start layers d + k < start layers (d + 1) := by
  obtain ⟨short, -⟩ := List.getElem?_eq_some_iff.mp inside
  induction layers generalizing d with
  | nil => cases found
  | cons first rest ih =>
    cases d with
    | zero =>
      cases found
      rw [start_zero, Nat.zero_add, List.flatten_cons, List.getElem?_append_left short, start_cons_succ]
      exact ⟨inside, by omega⟩
    | succ d =>
      obtain ⟨here, below⟩ := ih found
      rw [start_cons_succ, start_cons_succ, List.flatten_cons, Nat.add_assoc,
        List.getElem?_append_right (Nat.le_add_right ..), Nat.add_sub_cancel_left]
      exact ⟨here, Nat.add_lt_add_left below _⟩

/-- What holds of every layered circuit that the checks accept. -/
structure WellFormed (c : LayeredCircuit F) : Prop where
  numPublic : c.numPublic ≤ c.numExternal
  numExternal : c.numExternal ≤ c.numInputs
  nonempty : c.layers = [] → c.numInputs = 0
  gates : ∀ {layer index : Nat} {gates : List (Gate F)} {gate : Gate F}, c.layers[layer]? = some gates →
    gates[index]? = some gate → gate.Fits c.numInputs layer index (start c.layers layer)
  inputs : ∀ {gates : List (Gate F)}, c.layers[0]? = some gates → c.numInputs ≤ gates.length
  outputs : ∀ gate ∈ c.outputs, gate < c.gates.length
  constraints : ∀ gate ∈ c.constraints, gate < c.gates.length

theorem checkGate_eq_ok_iff {numInputs layer index start : Nat} {gate : Gate F} :
    checkGate numInputs layer index start gate = .ok () ↔ gate.Fits numInputs layer index start := by
  cases gate <;> simp only [checkGate, Gate.Fits, fault] <;> split <;> simp <;> omega

theorem checkGates_eq_ok_iff {numInputs layer index start : Nat} {gates : List (Gate F)} :
    checkGates numInputs layer start index gates = .ok () ↔
      ∀ {k : Nat} {gate : Gate F}, gates[k]? = some gate → gate.Fits numInputs layer (index + k) start := by
  induction gates generalizing index with
  | nil => simp [checkGates]
  | cons first rest ih =>
    rw [checkGates]
    constructor
    · intro checked k gate found
      obtain ⟨⟨⟩, here, later⟩ := bind_eq_ok.mp checked
      cases k with
      | zero =>
        cases found
        exact checkGate_eq_ok_iff.mp here
      | succ k => exact Nat.add_right_comm index 1 k ▸ ih.mp later found
    · intro fits
      have here : first.Fits numInputs layer index start := fits (k := 0) rfl
      rw [checkGate_eq_ok_iff.mpr here, ok_bind]
      exact ih.mpr fun {k} {gate} found => Nat.add_right_comm index k 1 ▸ fits (k := k + 1) found

/-- What the checks ask of one layer. -/
private def LayerFits (numInputs layer begin : Nat) (gates : List (Gate F)) : Prop :=
  (layer = 0 → numInputs ≤ gates.length) ∧
    ∀ {k : Nat} {gate : Gate F}, gates[k]? = some gate → gate.Fits numInputs layer k begin

private theorem checkLayers_cons_eq_ok_iff {numInputs layer begin numGates : Nat} {first : List (Gate F)}
    {rest : List (List (Gate F))} :
    checkLayers numInputs layer begin (first :: rest) = .ok numGates ↔ LayerFits numInputs layer begin first ∧
      checkLayers numInputs (layer + 1) (begin + first.length) rest = .ok numGates := by
  have gates : checkGates numInputs layer begin 0 first = .ok () ↔
      ∀ {k : Nat} {gate : Gate F}, first[k]? = some gate → gate.Fits numInputs layer k begin := by
    simpa only [Nat.zero_add] using @checkGates_eq_ok_iff F numInputs layer 0 begin first
  rw [checkLayers, bind_eq_ok, LayerFits, ← gates]
  by_cases short : layer = 0 ∧ first.length < numInputs
  · simp only [if_pos short, fault]
    constructor
    · rintro ⟨_, _, ⟨⟩⟩
    · rintro ⟨⟨long, _⟩, _⟩
      exact absurd (long short.1) (not_le.mpr short.2)
  · simp only [if_neg short]
    exact ⟨fun ⟨_, here, later⟩ => ⟨⟨by omega, here⟩, later⟩, fun ⟨⟨_, here⟩, later⟩ => ⟨(), here, later⟩⟩

theorem checkLayers_eq_ok_iff {numInputs layer begin numGates : Nat} {layers : List (List (Gate F))} :
    checkLayers numInputs layer begin layers = .ok numGates ↔ numGates = begin + layers.flatten.length ∧
      ∀ {d : Nat} {gates : List (Gate F)}, layers[d]? = some gates →
        LayerFits numInputs (layer + d) (begin + start layers d) gates := by
  induction layers generalizing layer begin with
  | nil => simp [checkLayers, eq_comm]
  | cons first rest ih =>
    rw [checkLayers_cons_eq_ok_iff, ih, List.flatten_cons, List.length_append, ← Nat.add_assoc, and_left_comm]
    refine and_congr_right fun _ => ?_
    have next (d : Nat) : layer + 1 + d = layer + (d + 1) ∧
        begin + first.length + start rest d = begin + start (first :: rest) (d + 1) :=
      ⟨by omega, by rw [start_cons_succ, Nat.add_assoc]⟩
    constructor
    · rintro ⟨here, later⟩ d gates found
      cases d with
      | zero =>
        cases found
        exact here
      | succ d => exact (next d).1 ▸ (next d).2 ▸ later found
    · intro all
      exact ⟨all (d := 0) rfl, fun {d} {gates} found => (next d).1.symm ▸ (next d).2.symm ▸ all (d := d + 1) found⟩

theorem checkGateNumbers_eq_ok_iff {location : Nat → Location} {numGates i : Nat} {gates : List Nat} :
    checkGateNumbers location numGates i gates = .ok () ↔ ∀ gate ∈ gates, gate < numGates := by
  induction gates generalizing i with
  | nil => simp [checkGateNumbers]
  | cons gate rest ih =>
    rw [checkGateNumbers, List.forall_mem_cons]
    split
    · simp [fault]
      omega
    · rw [ih, iff_and_self]
      omega

/-- The checks accept exactly the well-formed circuits. -/
theorem validate_eq_ok_iff {c : LayeredCircuit F} : c.validate = .ok () ↔ c.WellFormed := by
  rw [validate]
  split
  · rename_i wrong
    refine ⟨by rintro ⟨⟩, fun wellFormed => absurd wrong ?_⟩
    exact not_or.mpr ⟨not_lt.mpr wellFormed.numPublic, not_lt.mpr wellFormed.numExternal⟩
  · rename_i counts
    split
    · rename_i wrong
      exact ⟨by rintro ⟨⟩, fun wellFormed => absurd wrong.2 (wellFormed.nonempty wrong.1).not_gt⟩
    · rename_i nonempty
      constructor
      · intro checked
        obtain ⟨numGates, layers, checked⟩ := bind_eq_ok.mp checked
        obtain ⟨⟨⟩, outputs, constraints⟩ := bind_eq_ok.mp checked
        obtain ⟨rfl, fits⟩ := checkLayers_eq_ok_iff.mp layers
        rw [Nat.zero_add] at outputs constraints
        refine ⟨by omega, by omega, fun empty => ?_, fun found inside => ?_, fun found => (fits found).1 rfl,
          checkGateNumbers_eq_ok_iff.mp outputs, checkGateNumbers_eq_ok_iff.mp constraints⟩
        · exact Nat.eq_zero_of_not_pos fun positive => nonempty ⟨empty, positive⟩
        · simpa only [Nat.zero_add] using (fits found).2 inside
      · intro wellFormed
        have layers : checkLayers c.numInputs 0 0 c.layers = .ok c.gates.length := by
          refine checkLayers_eq_ok_iff.mpr ⟨(Nat.zero_add _).symm, fun {d} {gates} found => ⟨?_, ?_⟩⟩
          · intro first
            obtain rfl : d = 0 := by omega
            exact wellFormed.inputs found
          · intro k gate inside
            simpa only [Nat.zero_add] using wellFormed.gates found inside
        rw [layers, ok_bind, checkGateNumbers_eq_ok_iff.mpr wellFormed.outputs, ok_bind,
          checkGateNumbers_eq_ok_iff.mpr wellFormed.constraints]

theorem ofParts_eq_ok_iff {numInputs numExternal numPublic : Nat} {layers : List (List (Gate F))}
    {outputs constraints : List Nat} {c : LayeredCircuit F} :
    ofParts numInputs numExternal numPublic layers outputs constraints = .ok c ↔
      c = ⟨numInputs, numExternal, numPublic, layers, outputs, constraints⟩ ∧ c.WellFormed := by
  rw [ofParts, bind_eq_ok]
  constructor
  · rintro ⟨⟨⟩, checked, same⟩
    cases same
    exact ⟨rfl, validate_eq_ok_iff.mp checked⟩
  · rintro ⟨rfl, wellFormed⟩
    exact ⟨(), validate_eq_ok_iff.mpr wellFormed, rfl⟩

/-! ### Evaluation -/

/-- The value of a gate. -/
def valueAt (c : LayeredCircuit F) (inputs : List (Scalar F)) (gate : Nat) : Scalar F :=
  (Gate.run inputs.toArray c.gates).getD gate 0

theorem firstNonZero_cases (values : Array (Scalar F)) (i : Nat) (gates : List Nat) :
    firstNonZero values i gates = none ∧ (∀ gate ∈ gates, values.getD gate 0 = 0) ∨
      ∃ j value, firstNonZero values i gates = some (j, value) ∧ ¬ ∀ gate ∈ gates, values.getD gate 0 = 0 := by
  induction gates generalizing i with
  | nil => exact .inl ⟨rfl, List.forall_mem_nil _⟩
  | cons gate rest ih =>
    simp only [firstNonZero, List.forall_mem_cons]
    split
    · rename_i zero
      simpa only [(Scalar.isZero_iff _).mp zero, true_and] using ih (i + 1)
    · rename_i nonzero
      exact .inr ⟨i, _, rfl, fun all => nonzero ((Scalar.isZero_iff _).mpr all.1)⟩

/-- On inputs of the right number, evaluation succeeds exactly when all constraint gates are zero, and
    otherwise reports one that is not. -/
theorem evaluate_cases (c : LayeredCircuit F) {inputs : List (Scalar F)} (length : inputs.length = c.numInputs) :
    (∀ gate ∈ c.constraints, c.valueAt inputs gate = 0) ∧ c.evaluate inputs = .ok (c.outputs.map (c.valueAt inputs)) ∨
      (¬ ∀ gate ∈ c.constraints, c.valueAt inputs gate = 0) ∧
        ∃ index value, c.evaluate inputs = .error (.violated .entry index value) := by
  rw [evaluate, if_neg (not_not.mpr length)]
  dsimp only
  rcases firstNonZero_cases (c.gateValues inputs.toArray) 0 c.constraints with ⟨none, zero⟩ | ⟨j, value, some, nonzero⟩
  · exact .inl ⟨zero, by rw [none]; rfl⟩
  · exact .inr ⟨nonzero, j, value.val, by rw [some]⟩

/-- Where the first constraint gate stands that is not zero, and its value, depend on the values alone. -/
theorem firstNonZero_congr {values others : Array (Scalar F)} {gates numbers : List Nat} (i : Nat)
    (same : gates.map (values.getD · 0) = numbers.map (others.getD · 0)) :
    firstNonZero values i gates = firstNonZero others i numbers := by
  induction gates generalizing numbers i with
  | nil =>
    cases numbers with
    | nil => rfl
    | cons number rest => cases same
  | cons gate rest ih =>
    cases numbers with
    | nil => cases same
    | cons number further =>
      obtain ⟨first, later⟩ := List.cons.inj same
      have first : values.getD gate 0 = others.getD number 0 := first
      rw [firstNonZero, firstNonZero, first, ih (i + 1) later]

/-- Circuits whose outputs and constraint gates have the same values evaluate alike, errors included. -/
theorem evaluate_congr {c d : LayeredCircuit F} {inputs : List (Scalar F)} (numInputs : c.numInputs = d.numInputs)
    (outputs : c.outputs.map (c.valueAt inputs) = d.outputs.map (d.valueAt inputs))
    (constraints : c.constraints.map (c.valueAt inputs) = d.constraints.map (d.valueAt inputs)) :
    c.evaluate inputs = d.evaluate inputs := by
  have violated : firstNonZero (c.gateValues inputs.toArray) 0 c.constraints =
      firstNonZero (d.gateValues inputs.toArray) 0 d.constraints := firstNonZero_congr 0 constraints
  have given : (c.outputs.map fun gate => (c.gateValues inputs.toArray).getD gate 0) =
      d.outputs.map fun gate => (d.gateValues inputs.toArray).getD gate 0 := outputs
  rw [evaluate, evaluate, numInputs]
  dsimp only
  rw [violated, given]

end LayeredCircuit
end ArithCircuit
