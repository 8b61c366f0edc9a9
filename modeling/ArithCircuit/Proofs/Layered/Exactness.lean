import ArithCircuit.Proofs.Layered.Shape

/-!
The rules of a layered circuit, said without the check, and that the check is exact. Evaluation reads inputs and
values of gates by number, and says something for a number that is not there too. Beside it stands an evaluation
that stops at such a number; on circuits that keep the rules it never stops.
-/
namespace ArithCircuit
variable {F : ScalarField}

namespace Gate

theorem fits_first_iff {n k s : Nat} {gate : Gate F} :
    gate.Fits n 0 k s ↔ (k < n ∧ gate = .input k) ∨ (n ≤ k ∧ ∃ value, gate = .constant value) := by
  cases gate with
  | input i =>
    simp only [Fits, input.injEq, reduceCtorEq, exists_false, and_false, or_false, true_and]
    constructor
    · rintro ⟨rfl, below⟩
      exact ⟨below, rfl⟩
    · rintro ⟨below, rfl⟩
      exact ⟨rfl, below⟩
  | constant value => simp [Fits]
  | add a b coef => simp [Fits]
  | mul a b coef => simp [Fits]

theorem fits_later_iff {n d k s : Nat} {gate : Gate F} :
    gate.Fits n (d + 1) k s ↔ ∃ a b coef, (gate = .add a b coef ∨ gate = .mul a b coef) ∧ a < s ∧ b < s := by
  cases gate with
  | input i => simp [Fits]
  | constant value => simp [Fits]
  | add a b coef => simp [Fits]
  | mul a b coef => simp [Fits]

end Gate

namespace LayeredCircuit

/-- The gate of a number stands in a layer. -/
def StandsIn (c : LayeredCircuit F) (gate layer : Nat) : Prop :=
  ∃ gates k, c.layers[layer]? = some gates ∧ k < gates.length ∧ gate = start c.layers layer + k

/-- The rules of a layered circuit. -/
structure Lawful (c : LayeredCircuit F) : Prop where
  numPublic : c.numPublic ≤ c.numExternal
  numExternal : c.numExternal ≤ c.numInputs
  /-- The first layer holds the inputs in order and then constants. Only a circuit without inputs may lack it. -/
  first : (c.layers = [] ∧ c.numInputs = 0) ∨ ∃ (constants : List (Scalar F)) (later : List (List (Gate F))),
    c.layers = ((List.range c.numInputs).map .input ++ constants.map .constant) :: later
  /-- The other layers hold sums and products of gates of earlier layers. -/
  later : ∀ {d : Nat} {layer : List (Gate F)}, c.layers[d + 1]? = some layer → ∀ gate ∈ layer,
    ∃ a b coef, (gate = .add a b coef ∨ gate = .mul a b coef) ∧
      (∃ e < d + 1, c.StandsIn a e) ∧ ∃ e < d + 1, c.StandsIn b e
  outputs : ∀ gate ∈ c.outputs, gate < c.numGates
  constraints : ∀ gate ∈ c.constraints, gate < c.numGates

theorem numGates_eq (c : LayeredCircuit F) : c.numGates = c.gates.length := by
  rw [numGates, gates]
  induction c.layers with
  | nil => rfl
  | cons layer rest ih => rw [sumOver_cons, ih, List.flatten_cons, List.length_append]

theorem lt_start_iff {c : LayeredCircuit F} {gate n : Nat} : gate < start c.layers n ↔ ∃ e < n, c.StandsIn gate e := by
  constructor
  · intro below
    obtain ⟨e, before, layer, k, x, found, inside, same⟩ := exists_of_lt_start below
    exact ⟨e, before, layer, k, found, (List.getElem?_eq_some_iff.mp inside).1, same⟩
  · rintro ⟨e, before, layer, k, found, inside, rfl⟩
    exact (getElem?_flatten found (List.getElem?_eq_getElem inside)).2.trans_le (start_mono before)

/-- The gates of the first layer are in place exactly when they are the inputs in order and then constants. -/
theorem first_fits_iff {n : Nat} {layer : List (Gate F)} :
    (n ≤ layer.length ∧ ∀ {k : Nat} {gate : Gate F}, layer[k]? = some gate → gate.Fits n 0 k 0) ↔
      ∃ constants : List (Scalar F), layer = (List.range n).map .input ++ constants.map .constant := by
  constructor
  · rintro ⟨long, fits⟩
    have inputs : layer.take n = (List.range n).map .input := by
      refine List.ext_getElem (by simpa using long) fun k inTake inRange => ?_
      have below : k < n := by simpa using inRange
      have found : layer[k]? = some layer[k] := List.getElem?_eq_getElem (below.trans_le long)
      rcases Gate.fits_first_iff.mp (fits found) with ⟨-, same⟩ | ⟨above, -⟩
      · simpa using same
      · omega
    have constants : ∀ gate ∈ layer.drop n, gate ∈ Set.range Gate.constant := by
      intro gate member
      obtain ⟨k, found⟩ := List.mem_iff_getElem?.mp member
      rw [List.getElem?_drop] at found
      rcases Gate.fits_first_iff.mp (fits found) with ⟨below, -⟩ | ⟨-, value, same⟩
      · omega
      · exact ⟨value, same.symm⟩
    obtain ⟨values, listed⟩ : layer.drop n ∈ Set.range (List.map Gate.constant) := Set.range_list_map Gate.constant ▸ constants
    exact ⟨values, by rw [listed, ← inputs, List.take_append_drop]⟩
  · rintro ⟨constants, rfl⟩
    refine ⟨by simp, fun {k gate} found => Gate.fits_first_iff.mpr ?_⟩
    by_cases below : k < n
    · rw [List.getElem?_append_left (by simpa using below)] at found
      exact .inl ⟨below, by simpa [below] using found.symm⟩
    · have above : n ≤ k := Nat.not_lt.mp below
      rw [List.getElem?_append_right (by simpa using above)] at found
      obtain ⟨value, -, same⟩ := List.mem_map.mp (List.mem_of_getElem? found)
      exact .inr ⟨above, value, same.symm⟩

/-- The check passes exactly the layered circuits that keep the rules. -/
theorem wellFormed_iff {c : LayeredCircuit F} : c.WellFormed ↔ c.Lawful := by
  constructor
  · rintro ⟨numPublic, numExternal, nonempty, gates, inputs, outputs, constraints⟩
    refine ⟨numPublic, numExternal, ?_, ?_, by rwa [numGates_eq], by rwa [numGates_eq]⟩
    · cases layers : c.layers with
      | nil => exact .inl ⟨rfl, nonempty layers⟩
      | cons first later =>
        have here : c.layers[0]? = some first := by rw [layers]; rfl
        obtain ⟨constants, same⟩ := first_fits_iff.mp ⟨inputs here, fun inside => gates here inside⟩
        exact .inr ⟨constants, later, by rw [same]⟩
    · intro d layer here gate member
      obtain ⟨k, inside⟩ := List.mem_iff_getElem?.mp member
      obtain ⟨a, b, coef, shape, left, right⟩ := Gate.fits_later_iff.mp (gates here inside)
      exact ⟨a, b, coef, shape, lt_start_iff.mp left, lt_start_iff.mp right⟩
  · rintro ⟨numPublic, numExternal, first, later, outputs, constraints⟩
    have first_fits {gates : List (Gate F)} (here : c.layers[0]? = some gates) :
        c.numInputs ≤ gates.length ∧
          ∀ {k : Nat} {gate : Gate F}, gates[k]? = some gate → gate.Fits c.numInputs 0 k 0 := by
      rcases first with ⟨empty, -⟩ | ⟨constants, rest, layers⟩
      · rw [empty] at here
        cases here
      · rw [layers] at here
        cases here
        exact first_fits_iff.mpr ⟨constants, rfl⟩
    refine ⟨numPublic, numExternal, fun empty => ?_, fun {d k layer gate} here inside => ?_, fun here => (first_fits here).1,
      by rwa [numGates_eq] at outputs, by rwa [numGates_eq] at constraints⟩
    · rcases first with ⟨-, none⟩ | ⟨constants, rest, layers⟩
      · exact none
      · cases empty.symm.trans layers
    · cases d with
      | zero => exact (first_fits here).2 inside
      | succ d =>
        obtain ⟨a, b, coef, shape, left, right⟩ := later here gate (List.mem_of_getElem? inside)
        exact Gate.fits_later_iff.mpr ⟨a, b, coef, shape, lt_start_iff.mpr left, lt_start_iff.mpr right⟩

end LayeredCircuit

/-! ### Evaluation with checked reads -/

namespace Gate

/-- The value of a gate, if what it reads is there. -/
def value? (inputs values : Array (Scalar F)) : Gate F → Option (Scalar F)
  | input index => inputs[index]?
  | constant value => some value
  | add a b coef => do
    let x ← values[a]?
    let y ← values[b]?
    return x + coef * y
  | mul a b coef => do
    let x ← values[a]?
    let y ← values[b]?
    return coef * x * y

/-- The values of gates in order, as long as each reads inputs and values of gates before it. -/
def run? (inputs : Array (Scalar F)) (gates : List (Gate F)) : Option (Array (Scalar F)) :=
  gates.foldlM (fun values gate => do return values.push (← gate.value? inputs values)) #[]

/-- What a gate reads, after `before` gates, is there. -/
def Finds (numInputs before : Nat) (gate : Gate F) : Prop :=
  (∀ index, gate = .input index → index < numInputs) ∧ ∀ a b, gate.operands? = some (a, b) → a < before ∧ b < before

theorem Fits.finds {numInputs layer index start before : Nat} {gate : Gate F} (fits : gate.Fits numInputs layer index start)
    (earlier : start ≤ before) : gate.Finds numInputs before := by
  cases gate with
  | input i =>
    constructor
    · rintro _ ⟨⟩
      exact fits.2.2
    · rintro _ _ ⟨⟩
  | constant value =>
    constructor
    · rintro _ ⟨⟩
    · rintro _ _ ⟨⟩
  | add a b coef =>
    constructor
    · rintro _ ⟨⟩
    · rintro _ _ ⟨⟩
      exact ⟨fits.2.1.trans_le earlier, fits.2.2.trans_le earlier⟩
  | mul a b coef =>
    constructor
    · rintro _ ⟨⟩
    · rintro _ _ ⟨⟩
      exact ⟨fits.2.1.trans_le earlier, fits.2.2.trans_le earlier⟩

theorem value?_eq {inputs values : Array (Scalar F)} {gate : Gate F} (finds : gate.Finds inputs.size values.size) :
    gate.value? inputs values = some (gate.value inputs values) := by
  cases gate with
  | input index => simp [value?, value, finds.1 index rfl]
  | constant value => rfl
  | add a b coef =>
    obtain ⟨left, right⟩ := finds.2 a b rfl
    simp [value?, value, left, right]
  | mul a b coef =>
    obtain ⟨left, right⟩ := finds.2 a b rfl
    simp [value?, value, left, right]

theorem run?_eq {inputs : Array (Scalar F)} {gates : List (Gate F)}
    (find : ∀ {i : Nat} {gate : Gate F}, gates[i]? = some gate → gate.Finds inputs.size i) :
    run? inputs gates = some (run inputs gates) := by
  induction gates using List.reverseRecOn with
  | nil => rfl
  | append_singleton gates gate ih =>
    have earlier : run? inputs gates = some (run inputs gates) := by
      refine ih fun {i other} found => find ?_
      rw [List.getElem?_append_left (List.getElem?_eq_some_iff.mp found).1, found]
    have last : gate.Finds inputs.size (run inputs gates).size := by
      rw [size_run]
      exact find (by simp)
    rw [run?, List.foldlM_append, ← run?, earlier, run_concat]
    simp [value?_eq last]

end Gate

namespace LayeredCircuit

/-- The first constraint gate that is not zero, as long as the gates before it are there. -/
def firstNonZero? (values : Array (Scalar F)) : Nat → List Nat → Option (Option (Nat × Scalar F))
  | _, [] => some none
  | i, gate :: rest => do
    let value ← values[gate]?
    if value.isZero then firstNonZero? values (i + 1) rest else some (some (i, value))

/-- Evaluation that stops, with `none`, at a number of an input or a gate that is not there. -/
def evaluate? (c : LayeredCircuit F) (inputs : List (Scalar F)) : Option (Except Error (List (Scalar F))) :=
  if inputs.length ≠ c.numInputs then some (.error (.inputLength c.numInputs inputs.length))
  else do
    let values ← Gate.run? inputs.toArray c.gates
    match ← firstNonZero? values 0 c.constraints with
    | some (i, value) => return .error (.violated .entry i value.val)
    | none => return .ok (← c.outputs.mapM (values[·]?))

theorem firstNonZero?_eq {values : Array (Scalar F)} {gates : List Nat} (inside : ∀ gate ∈ gates, gate < values.size)
    (i : Nat) : firstNonZero? values i gates = some (firstNonZero values i gates) := by
  induction gates generalizing i with
  | nil => rfl
  | cons gate rest ih =>
    obtain ⟨here, later⟩ := List.forall_mem_cons.mp inside
    simp only [firstNonZero?, firstNonZero, Array.getElem?_eq_getElem here, Option.bind_eq_bind, Option.bind_some, ih later,
      Array.getD_eq_getD_getElem?, Option.getD_some]
    split <;> rfl

theorem mapM_getElem?_eq {values : Array (Scalar F)} {gates : List Nat} (inside : ∀ gate ∈ gates, gate < values.size) :
    gates.mapM (values[·]?) = some (gates.map (values.getD · 0)) := by
  induction gates with
  | nil => rfl
  | cons gate rest ih =>
    obtain ⟨here, later⟩ := List.forall_mem_cons.mp inside
    simp [ih later, here]

/-- In a circuit that keeps the rules, every gate reads inputs that are there and gates before it. -/
theorem WellFormed.finds {c : LayeredCircuit F} (wellFormed : c.WellFormed) {i : Nat} {gate : Gate F}
    (found : c.gates[i]? = some gate) : gate.Finds c.numInputs i := by
  have below : i < start c.layers c.layers.length := by
    rw [start, List.take_length, ← List.length_flatten]
    exact (List.getElem?_eq_some_iff.mp found).1
  obtain ⟨d, -, layer, k, x, here, inside, rfl⟩ := exists_of_lt_start below
  cases found.symm.trans (getElem?_flatten here inside).1
  exact (wellFormed.gates here inside).finds (Nat.le_add_right ..)

/-- Evaluating a circuit that keeps the rules reads nothing that is not there. -/
theorem WellFormed.evaluate?_eq {c : LayeredCircuit F} (wellFormed : c.WellFormed) (inputs : List (Scalar F)) :
    c.evaluate? inputs = some (c.evaluate inputs) := by
  rw [evaluate?, evaluate]
  split
  · rfl
  · rename_i same
    have length : inputs.length = c.numInputs := not_not.mp same
    have values : Gate.run? inputs.toArray c.gates = some (c.gateValues inputs.toArray) := by
      refine Gate.run?_eq fun found => ?_
      rw [List.size_toArray, length]
      exact wellFormed.finds found
    have size : (c.gateValues inputs.toArray).size = c.gates.length := Gate.size_run _ _
    rw [values]
    simp only [Option.bind_eq_bind, Option.bind_some, firstNonZero?_eq (size ▸ wellFormed.constraints),
      mapM_getElem?_eq (size ▸ wellFormed.outputs)]
    cases firstNonZero (c.gateValues inputs.toArray) 0 c.constraints <;> rfl

/-- A layered circuit can be made of parts exactly when these keep the rules, and evaluating what was made never
    reads an input or a value that is not there. -/
theorem ofParts_exact (numInputs numExternal numPublic : Nat) (layers : List (List (Gate F))) (outputs constraints : List Nat)
    (c : LayeredCircuit F) :
    (ofParts numInputs numExternal numPublic layers outputs constraints = .ok c ↔
      c = ⟨numInputs, numExternal, numPublic, layers, outputs, constraints⟩ ∧ c.Lawful) ∧
    (c.Lawful → ∀ inputs : List (Scalar F), c.evaluate? inputs = some (c.evaluate inputs)) := by
  rw [ofParts_eq_ok_iff, ← wellFormed_iff]
  exact ⟨Iff.rfl, fun wellFormed inputs => wellFormed.evaluate?_eq inputs⟩

/-- A circuit of two inputs and a constant, with a layer that is empty. -/
def ragged : LayeredCircuit .mersenne31 :=
  ⟨2, 1, 1, [[.input 0, .input 1, .constant 1], [], [.add 0 2 1, .mul 1 1 (-1)], [.mul 3 4 1]], [5], [3]⟩

theorem ragged_exact :
    ofParts 2 1 1 ragged.layers [5] [3] = .ok ragged ∧ ragged.Lawful ∧
      ragged.evaluate? [-1, 1] = some (.ok [0]) ∧ ragged.evaluate? [1, 1] = some (.error (.violated .entry 0 2)) ∧
      ragged.evaluate? [-1, 1] = some (ragged.evaluate [-1, 1]) := by
  have made : ofParts 2 1 1 ragged.layers [5] [3] = .ok ragged := by decide
  obtain ⟨exact, safe⟩ := ofParts_exact 2 1 1 ragged.layers [5] [3] ragged
  have lawful := (exact.mp made).2
  exact ⟨made, lawful, by decide, by decide, safe lawful [-1, 1]⟩

end LayeredCircuit
end ArithCircuit
