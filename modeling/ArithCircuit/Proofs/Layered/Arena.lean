import ArithCircuit.Layered.Arena
import ArithCircuit.Proofs.LinearForm

/-!
What gates are worth. Gates are evaluated in order, so adding a gate leaves the values of the gates
before it alone, and every operation on an arena can be described by the values of its gates. An
arena advances by adding gates; on the way it takes inputs in order and demands that gates be zero.
-/
namespace ArithCircuit
variable {F : ScalarField}

namespace Gate

/-- The values of gates in order, each over those before it. -/
def run (inputs : Array (Scalar F)) (gates : List (Gate F)) : Array (Scalar F) :=
  gates.foldl (fun values gate => values.push (gate.value inputs values)) #[]

theorem run_append (inputs : Array (Scalar F)) (gates more : List (Gate F)) :
    run inputs (gates ++ more) =
      more.foldl (fun values gate => values.push (gate.value inputs values)) (run inputs gates) := by
  rw [run, List.foldl_append, run]

theorem run_concat (inputs : Array (Scalar F)) (gates : List (Gate F)) (gate : Gate F) :
    run inputs (gates ++ [gate]) = (run inputs gates).push (gate.value inputs (run inputs gates)) := by
  rw [run_append, List.foldl_cons, List.foldl_nil]

@[simp] theorem size_run (inputs : Array (Scalar F)) (gates : List (Gate F)) :
    (run inputs gates).size = gates.length := by
  induction gates using List.reverseRecOn with
  | nil => rfl
  | append_singleton gates gate ih => rw [run_concat, Array.size_push, ih, List.length_append, List.length_singleton]

/-- Gates that follow do not change the values of gates. -/
theorem run_append_getD (inputs : Array (Scalar F)) (gates more : List (Gate F)) {i : Nat} (inside : i < gates.length) :
    (run inputs (gates ++ more)).getD i 0 = (run inputs gates).getD i 0 := by
  induction more using List.reverseRecOn with
  | nil => rw [List.append_nil]
  | append_singleton more gate ih =>
    have bound : i < (run inputs (gates ++ more)).size := by
      rw [size_run, List.length_append]
      omega
    rw [← List.append_assoc, run_concat, ← ih]
    simp only [Array.getD_eq_getD_getElem?, Array.getElem?_push, bound.ne, if_false]

theorem kind_renumber (gate : Gate F) (position : Nat → Nat) : (gate.renumber position).kind = gate.kind := by
  cases gate <;> rfl

theorem operands?_renumber (gate : Gate F) (position : Nat → Nat) :
    (gate.renumber position).operands? = gate.operands?.map (Prod.map position position) := by
  cases gate <;> rfl

/-- The value of a gate depends on the values of its operands alone, wherever these stand. -/
theorem renumber_value {inputs values others : Array (Scalar F)} {gate : Gate F} {position : Nat → Nat}
    (same : ∀ a b, gate.operands? = some (a, b) →
      values.getD (position a) 0 = others.getD a 0 ∧ values.getD (position b) 0 = others.getD b 0) :
    (gate.renumber position).value inputs values = gate.value inputs others := by
  cases gate with
  | input index => rfl
  | constant value => rfl
  | add a b coef =>
    obtain ⟨left, right⟩ := same a b rfl
    rw [renumber, value, value, left, right]
  | mul a b coef =>
    obtain ⟨left, right⟩ := same a b rfl
    rw [renumber, value, value, left, right]

theorem renumber_id (gate : Gate F) : gate.renumber id = gate := by
  cases gate <;> rfl

/-- A gate whose operands stand before it has the value that its operands give it in the end. -/
theorem run_getD {inputs : Array (Scalar F)} {gates : List (Gate F)} {i : Nat} {gate : Gate F}
    (found : gates[i]? = some gate) (earlier : ∀ a b, gate.operands? = some (a, b) → a < i ∧ b < i) :
    (run inputs gates).getD i 0 = gate.value inputs (run inputs gates) := by
  obtain ⟨inside, rfl⟩ := List.getElem?_eq_some_iff.mp found
  have split : gates = gates.take i ++ [gates[i]] ++ gates.drop (i + 1) := by
    rw [List.take_append_getElem, List.take_append_drop]
  have before : (gates.take i).length = i := by rw [List.length_take, Nat.min_eq_left inside.le]
  have here : (run inputs gates).getD i 0 = gates[i].value inputs (run inputs (gates.take i)) := by
    conv_lhs => rw [split]
    have last : i < (gates.take i ++ [gates[i]]).length := by
      rw [List.length_append, before, List.length_singleton]
      exact i.lt_succ_self
    rw [run_append_getD _ _ _ last, run_concat, Array.getD_eq_getD_getElem?, Array.getElem?_push,
      if_pos (by rw [size_run, before]), Option.getD_some]
  refine here.trans ((congrArg _ (renumber_id _)).symm.trans (renumber_value ?_))
  intro a b operands
  obtain ⟨left, right⟩ := earlier a b operands
  have kept (j : Nat) (below : j < i) : (run inputs (gates.take i)).getD j 0 = (run inputs gates).getD j 0 := by
    conv_rhs => rw [split]
    rw [List.append_assoc, run_append_getD _ _ _ (by rw [before]; exact below)]
  exact ⟨kept a left, kept b right⟩

/-- The number of an input gate. -/
def input? : Gate F → Option Nat
  | input index => some index
  | _ => none

end Gate

namespace Arena

/-- The gates, in the order they were added. -/
def gates (arena : Arena F) : List (Gate F) := arena.nodes.toList.map Node.gate

/-- The value of a gate on inputs. -/
def value (inputs : Array (Scalar F)) (arena : Arena F) (gate : Nat) : Scalar F :=
  (Gate.run inputs arena.gates).getD gate 0

/-- What every arena keeps: operands stand before their users, depths count the longest way to an
    input or a constant, known constants are there, inputs are numbered in order. -/
structure WellFormed (arena : Arena F) : Prop where
  operands : ∀ {i : Nat} {node : Node F}, arena.nodes[i]? = some node →
    ∀ a b, node.gate.operands? = some (a, b) → a < i ∧ b < i
  depths : ∀ {i : Nat} {node : Node F}, arena.nodes[i]? = some node → node.depth = arena.depthOver node.gate
  constants : ∀ {k gate : Nat}, arena.constants.get? k = some gate →
    ∃ value : Scalar F, value.val = k ∧ arena.gates[gate]? = some (.constant value)
  inputs : arena.gates.filterMap Gate.input? = List.range arena.numInputs
  constraints : ∀ gate ∈ arena.constraints.toList, gate < arena.nodes.size

/-- Every gate that must be zero is zero. -/
def Vanishes (inputs : Array (Scalar F)) (arena : Arena F) : Prop :=
  ∀ gate ∈ arena.constraints.toList, arena.value inputs gate = 0

/-- The second arena has the gates of the first and more; in between, the listed inputs were taken
    and `P` was demanded. -/
structure Advances (inputs : Array (Scalar F)) (first second : Arena F) (taken : List (Scalar F)) (P : Prop) : Prop where
  wellFormed : second.WellFormed
  nodes : first.nodes.toList <+: second.nodes.toList
  numInputs : second.numInputs = first.numInputs + taken.length
  taken : taken = (List.range' first.numInputs taken.length).map fun i => inputs.getD i 0
  vanishes : second.Vanishes inputs ↔ first.Vanishes inputs ∧ P

theorem length_gates (arena : Arena F) : arena.gates.length = arena.nodes.size := by
  rw [gates, List.length_map, Array.length_toList]

theorem gates_kept {first second : Arena F} (nodes : first.nodes.toList <+: second.nodes.toList) :
    first.gates <+: second.gates :=
  nodes.map _

theorem size_le {first second : Arena F} (nodes : first.nodes.toList <+: second.nodes.toList) :
    first.nodes.size ≤ second.nodes.size := by
  simpa using nodes.length_le

theorem value_kept {inputs : Array (Scalar F)} {first second : Arena F}
    (nodes : first.nodes.toList <+: second.nodes.toList) {gate : Nat} (inside : gate < first.nodes.size) :
    second.value inputs gate = first.value inputs gate := by
  obtain ⟨more, same⟩ := gates_kept nodes
  rw [value, ← same, Gate.run_append_getD _ _ _ (by rw [length_gates]; exact inside), value]

theorem node_kept {first second : Arena F} (nodes : first.nodes.toList <+: second.nodes.toList) {i : Nat}
    (inside : i < first.nodes.size) : second.nodes[i]? = first.nodes[i]? := by
  obtain ⟨more, same⟩ := nodes
  rw [← Array.getElem?_toList, ← same, List.getElem?_append_left (by simpa using inside), Array.getElem?_toList]

theorem gate_kept {first second : Arena F} (nodes : first.nodes.toList <+: second.nodes.toList) {i : Nat} {gate : Gate F}
    (found : first.gates[i]? = some gate) : second.gates[i]? = some gate := by
  obtain ⟨more, same⟩ := gates_kept nodes
  obtain ⟨inside, -⟩ := List.getElem?_eq_some_iff.mp found
  rw [← same, List.getElem?_append_left inside, found]

theorem depth_kept {first second : Arena F} (nodes : first.nodes.toList <+: second.nodes.toList) {i : Nat}
    (inside : i < first.nodes.size) : second.depth i = first.depth i := by
  rw [depth, node_kept nodes inside, depth]

theorem depthOver_kept {first second : Arena F} (nodes : first.nodes.toList <+: second.nodes.toList)
    {gate : Gate F} (inside : ∀ a b, gate.operands? = some (a, b) → a < first.nodes.size ∧ b < first.nodes.size) :
    second.depthOver gate = first.depthOver gate := by
  rw [depthOver, depthOver]
  split
  · rename_i a b operands
    obtain ⟨left, right⟩ := inside a b operands
    rw [depth_kept nodes left, depth_kept nodes right]
  · rfl

theorem Advances.refl {inputs : Array (Scalar F)} {arena : Arena F} (wellFormed : arena.WellFormed) :
    Advances inputs arena arena [] True :=
  ⟨wellFormed, List.prefix_rfl, rfl, rfl, (and_iff_left trivial).symm⟩

theorem Advances.trans {inputs : Array (Scalar F)} {first second third : Arena F} {taken more : List (Scalar F)}
    {P Q : Prop} (left : Advances inputs first second taken P) (right : Advances inputs second third more Q) :
    Advances inputs first third (taken ++ more) (P ∧ Q) := by
  refine ⟨right.wellFormed, left.nodes.trans right.nodes, ?_, ?_, ?_⟩
  · rw [right.numInputs, left.numInputs, List.length_append, Nat.add_assoc]
  · rw [List.length_append, ← List.range'_append_1, List.map_append, ← left.taken, ← left.numInputs, ← right.taken]
  · rw [right.vanishes, left.vanishes, and_assoc]

/-- A gate of an arena, all of whose operands it has. -/
def Admits (arena : Arena F) (gate : Gate F) : Prop :=
  ∀ a b, gate.operands? = some (a, b) → a < arena.nodes.size ∧ b < arena.nodes.size

@[simp] theorem push_fst (gate : Gate F) (arena : Arena F) : (arena.push gate).1 = arena.nodes.size := rfl

@[simp] theorem push_constraints (gate : Gate F) (arena : Arena F) :
    (arena.push gate).2.constraints = arena.constraints := rfl

@[simp] theorem push_constants (gate : Gate F) (arena : Arena F) :
    (arena.push gate).2.constants = arena.constants := rfl

@[simp] theorem push_numInputs (gate : Gate F) (arena : Arena F) :
    (arena.push gate).2.numInputs = arena.numInputs := rfl

theorem push_nodes (gate : Gate F) (arena : Arena F) :
    (arena.push gate).2.nodes = arena.nodes.push ⟨gate, arena.depthOver gate⟩ := rfl

theorem push_gates (gate : Gate F) (arena : Arena F) : (arena.push gate).2.gates = arena.gates ++ [gate] := by
  rw [gates, push_nodes, Array.toList_push, List.map_append, gates]
  rfl

theorem push_keeps (gate : Gate F) (arena : Arena F) : arena.nodes.toList <+: (arena.push gate).2.nodes.toList := by
  rw [push_nodes, Array.toList_push]
  exact List.prefix_append _ _

theorem size_push (gate : Gate F) (arena : Arena F) : (arena.push gate).2.nodes.size = arena.nodes.size + 1 := by
  rw [push_nodes, Array.size_push]

/-- A new gate has the value that its operands give it. -/
theorem push_value (inputs : Array (Scalar F)) (gate : Gate F) (arena : Arena F) :
    (arena.push gate).2.value inputs arena.nodes.size = gate.value inputs (Gate.run inputs arena.gates) := by
  rw [value, push_gates, Gate.run_concat, Array.getD_eq_getD_getElem?, Array.getElem?_push,
    if_pos (by rw [Gate.size_run, length_gates]), Option.getD_some]

theorem vanishes_kept {inputs : Array (Scalar F)} {first second : Arena F} (wellFormed : first.WellFormed)
    (nodes : first.nodes.toList <+: second.nodes.toList) (constraints : second.constraints = first.constraints) :
    second.Vanishes inputs ↔ first.Vanishes inputs := by
  rw [Vanishes, Vanishes, constraints]
  refine forall₂_congr fun gate member => ?_
  rw [value_kept nodes (wellFormed.constraints gate member)]

/-- Adding a gate keeps everything but, for an input gate, the numbering of inputs. -/
private theorem wellFormed_push {gate : Gate F} {arena : Arena F} {numInputs : Nat} (wellFormed : arena.WellFormed)
    (admitted : arena.Admits gate)
    (numbered : (arena.push gate).2.gates.filterMap Gate.input? = List.range numInputs) :
    WellFormed { (arena.push gate).2 with numInputs := numInputs } := by
  have nodes := push_keeps gate arena
  have node {i : Nat} {node : Node F} (found : (arena.push gate).2.nodes[i]? = some node) :
      i < arena.nodes.size ∧ arena.nodes[i]? = some node ∨
        i = arena.nodes.size ∧ node = ⟨gate, arena.depthOver gate⟩ := by
    rw [push_nodes, Array.getElem?_push] at found
    split at found
    · rename_i last
      exact .inr ⟨last, (Option.some.inj found).symm⟩
    · obtain ⟨inside, -⟩ := Array.getElem?_eq_some_iff.mp found
      exact .inl ⟨inside, found⟩
  refine ⟨?_, ?_, ?_, numbered, ?_⟩
  · intro i n found a b operands
    rcases node found with ⟨-, earlier⟩ | ⟨rfl, rfl⟩
    · exact wellFormed.operands earlier a b operands
    · exact admitted a b operands
  · intro i n found
    rcases node found with ⟨inside, earlier⟩ | ⟨rfl, rfl⟩
    · refine (wellFormed.depths earlier).trans (depthOver_kept nodes fun a b operands => ?_).symm
      obtain ⟨left, right⟩ := wellFormed.operands earlier a b operands
      exact ⟨left.trans inside, right.trans inside⟩
    · exact (depthOver_kept nodes admitted).symm
  · intro k position known
    obtain ⟨value, same, found⟩ := wellFormed.constants known
    refine ⟨value, same, ?_⟩
    obtain ⟨more, split⟩ := gates_kept nodes
    obtain ⟨inside, -⟩ := List.getElem?_eq_some_iff.mp found
    exact (congrArg (·[position]?) split).symm.trans ((List.getElem?_append_left inside).trans found)
  · intro position member
    exact (wellFormed.constraints position member).trans_le (size_le nodes)

/-- Adding a gate whose operands are there, an input gate excepted. -/
theorem push_advances (inputs : Array (Scalar F)) {gate : Gate F} {arena : Arena F} (wellFormed : arena.WellFormed)
    (admitted : arena.Admits gate) (noInput : gate.input? = none) :
    Advances inputs arena (arena.push gate).2 [] True := by
  refine ⟨wellFormed_push wellFormed admitted ?_, push_keeps gate arena, rfl, rfl, ?_⟩
  · rw [push_gates, List.filterMap_append, wellFormed.inputs]
    simp [noInput]
  · rw [vanishes_kept wellFormed (push_keeps gate arena) rfl, and_iff_left trivial]

/-- What is demanded and what is taken may be described in another way. -/
theorem Advances.congr {inputs : Array (Scalar F)} {first second : Arena F} {taken : List (Scalar F)} {P Q : Prop}
    (advances : Advances inputs first second taken P) (same : P ↔ Q) : Advances inputs first second taken Q :=
  ⟨advances.wellFormed, advances.nodes, advances.numInputs, advances.taken, advances.vanishes.trans (by rw [same])⟩

/-- One step after another, when the first takes and demands nothing. -/
theorem Advances.after {inputs : Array (Scalar F)} {first second third : Arena F} {taken : List (Scalar F)} {P : Prop}
    (left : Advances inputs first second [] True) (right : Advances inputs second third taken P) :
    Advances inputs first third taken P :=
  (left.trans right).congr (by rw [true_and])

theorem Advances.value {inputs : Array (Scalar F)} {first second : Arena F} {taken : List (Scalar F)} {P : Prop}
    (advances : Advances inputs first second taken P) {gate : Nat} (inside : gate < first.nodes.size) :
    second.value inputs gate = first.value inputs gate :=
  value_kept advances.nodes inside

theorem Advances.inside {inputs : Array (Scalar F)} {first second : Arena F} {taken : List (Scalar F)} {P : Prop}
    (advances : Advances inputs first second taken P) {gate : Nat} (inside : gate < first.nodes.size) :
    gate < second.nodes.size :=
  inside.trans_le (size_le advances.nodes)

theorem pushInput_advances (inputs : Array (Scalar F)) {arena : Arena F} (wellFormed : arena.WellFormed) :
    Advances inputs arena arena.pushInput.2 [inputs.getD arena.numInputs 0] True := by
  have nodes := push_keeps (.input arena.numInputs) arena
  refine ⟨wellFormed_push wellFormed (fun a b operands => nomatch operands) ?_, nodes, rfl, rfl, ?_⟩
  · rw [push_gates, List.filterMap_append, wellFormed.inputs, List.range_succ]
    rfl
  · rw [and_iff_left trivial]
    exact vanishes_kept wellFormed nodes rfl

/-- From an arena, a further one was reached that has a gate of this value. -/
def Places (inputs : Array (Scalar F)) (arena : Arena F) (result : Nat × Arena F) (x : Scalar F) : Prop :=
  Advances inputs arena result.2 [] True ∧ result.1 < result.2.nodes.size ∧ result.2.value inputs result.1 = x

theorem constant_places (inputs : Array (Scalar F)) (value : Scalar F) {arena : Arena F}
    (wellFormed : arena.WellFormed) : Places inputs arena (arena.constant value) value := by
  rw [constant]
  split
  · rename_i gate known
    obtain ⟨held, same, found⟩ := wellFormed.constants known
    obtain rfl : held = value := Scalar.ext same
    obtain ⟨inside, -⟩ := List.getElem?_eq_some_iff.mp found
    refine ⟨.refl wellFormed, by rwa [length_gates] at inside, ?_⟩
    exact Gate.run_getD found fun a b operands => nomatch operands
  · have admitted : arena.Admits (.constant value) := fun a b operands => nomatch operands
    have pushed := push_advances inputs wellFormed admitted rfl
    refine ⟨⟨⟨pushed.wellFormed.operands, pushed.wellFormed.depths, ?_, pushed.wellFormed.inputs,
      pushed.wellFormed.constraints⟩, pushed.nodes, rfl, rfl, pushed.vanishes⟩, ?_, push_value inputs _ arena⟩
    · intro k gate known
      rw [Std.TreeMap.get?_eq_getElem?, Std.TreeMap.getElem?_insert] at known
      split at known
      · rename_i same
        refine ⟨value, compare_eq_iff_eq.mp same, ?_⟩
        cases known
        change (arena.push (.constant value)).2.gates[arena.nodes.size]? = _
        rw [push_gates, ← length_gates, List.getElem?_concat_length]
      · exact pushed.wellFormed.constants known
    · exact (size_push _ arena).symm ▸ arena.nodes.size.lt_succ_self

/-- Demanding a gate to be zero. -/
theorem constrain_advances (inputs : Array (Scalar F)) {arena : Arena F} (wellFormed : arena.WellFormed) {gate : Nat}
    (inside : gate < arena.nodes.size) :
    Advances inputs arena (arena.constrain gate) [] (arena.value inputs gate = 0) := by
  refine ⟨⟨wellFormed.operands, wellFormed.depths, wellFormed.constants, wellFormed.inputs, ?_⟩,
    List.prefix_rfl, rfl, rfl, ?_⟩
  · intro other member
    rcases List.mem_append.mp (Array.toList_push ▸ member) with earlier | last
    · exact wellFormed.constraints other earlier
    · exact List.mem_singleton.mp last ▸ inside
  · rw [Vanishes, constrain, Array.toList_push, List.forall_mem_append]
    exact and_congr_right fun _ => by rw [List.forall_mem_singleton]; rfl

end Arena

/-- In an arena, a wire value stands for a field element. -/
def WireValue.Means (inputs : Array (Scalar F)) (arena : Arena F) : WireValue F → Scalar F → Prop
  | .constant k, x => x = k
  | .scaled gate coef, x => gate < arena.nodes.size ∧ coef ≠ 0 ∧ x = coef * arena.value inputs gate

namespace WireValue

/-- A wire value that an arena can give: a multiple of a gate is one of a gate that is there, and not zero. -/
def Sound (arena : Arena F) : WireValue F → Prop
  | .constant _ => True
  | .scaled gate coef => gate < arena.nodes.size ∧ coef ≠ 0

theorem Means.sound {inputs : Array (Scalar F)} {arena : Arena F} {value : WireValue F} {x : Scalar F}
    (means : value.Means inputs arena x) : value.Sound arena := by
  cases value with
  | constant k => trivial
  | scaled gate coef => exact ⟨means.1, means.2.1⟩

theorem Sound.exists_means (inputs : Array (Scalar F)) {arena : Arena F} {value : WireValue F}
    (sound : value.Sound arena) : ∃ x, value.Means inputs arena x := by
  cases value with
  | constant k => exact ⟨k, rfl⟩
  | scaled gate coef => exact ⟨coef * arena.value inputs gate, sound.1, sound.2, rfl⟩

/-- Values that an arena can give stand for field elements, whatever the inputs are. -/
theorem exists_forall₂_means (inputs : Array (Scalar F)) {arena : Arena F} {values : List (WireValue F)}
    (sound : ∀ value ∈ values, value.Sound arena) : ∃ xs, List.Forall₂ (Means inputs arena) values xs := by
  induction values with
  | nil => exact ⟨[], .nil⟩
  | cons value rest ih =>
    obtain ⟨first, later⟩ := List.forall_mem_cons.mp sound
    obtain ⟨x, means⟩ := first.exists_means inputs
    obtain ⟨xs, others⟩ := ih later
    exact ⟨x :: xs, .cons means others⟩

theorem sound_of_forall₂_means {inputs : Array (Scalar F)} {arena : Arena F} {values : List (WireValue F)}
    {xs : List (Scalar F)} (means : List.Forall₂ (Means inputs arena) values xs) :
    ∀ value ∈ values, value.Sound arena := by
  induction means with
  | nil => exact List.forall_mem_nil _
  | cons first _ ih => exact List.forall_mem_cons.mpr ⟨first.sound, ih⟩

end WireValue

namespace Arena

theorem Advances.means {inputs : Array (Scalar F)} {first second : Arena F} {taken : List (Scalar F)} {P : Prop}
    (advances : Advances inputs first second taken P) {value : WireValue F} {x : Scalar F}
    (means : value.Means inputs first x) : value.Means inputs second x := by
  cases value with
  | constant k => exact means
  | scaled gate coef =>
    obtain ⟨inside, nonzero, same⟩ := means
    exact ⟨advances.inside inside, nonzero, by rw [same, advances.value inside]⟩

/-- From an arena, a further one was reached in which a wire value stands for this element. -/
def Yields (inputs : Array (Scalar F)) (arena : Arena F) (result : WireValue F × Arena F) (x : Scalar F) : Prop :=
  Advances inputs arena result.2 [] True ∧ result.1.Means inputs result.2 x

theorem Advances.forall₂_means {inputs : Array (Scalar F)} {first second : Arena F} {taken : List (Scalar F)}
    {P : Prop} (advances : Advances inputs first second taken P) {values : List (WireValue F)} {xs : List (Scalar F)}
    (means : List.Forall₂ (WireValue.Means inputs first) values xs) :
    List.Forall₂ (WireValue.Means inputs second) values xs :=
  means.imp fun _ _ => advances.means

/-- New input gates stand for the inputs that come next. -/
theorem pushInputs_spec (inputs : Array (Scalar F)) (count : Nat) {arena : Arena F} (wellFormed : arena.WellFormed) :
    ∃ taken : List (Scalar F), taken.length = count ∧ Advances inputs arena (pushInputs count arena).2 taken True ∧
      List.Forall₂ (WireValue.Means inputs (pushInputs count arena).2) (pushInputs count arena).1 taken := by
  induction count generalizing arena with
  | zero => exact ⟨[], rfl, .refl wellFormed, .nil⟩
  | succ count ih =>
    have first := pushInput_advances inputs wellFormed
    have here : WireValue.Means inputs arena.pushInput.2 arena.pushInput.1 (inputs.getD arena.numInputs 0) := by
      refine ⟨(size_push _ arena).symm ▸ arena.nodes.size.lt_succ_self, Scalar.one_ne_zero', ?_⟩
      rw [one_mul]
      exact (push_value inputs (.input arena.numInputs) arena).symm
    obtain ⟨taken, length, later, means⟩ := ih first.wellFormed
    exact ⟨_ :: taken, congrArg (· + 1) length, (first.trans later).congr (by rw [true_and]), .cons (later.means here) means⟩

theorem materialize_places (inputs : Array (Scalar F)) {arena : Arena F} (wellFormed : arena.WellFormed)
    {value : WireValue F} {x : Scalar F} (means : value.Means inputs arena x) :
    Places inputs arena (arena.materialize value) x := by
  cases value with
  | constant k =>
    obtain rfl : x = k := means
    exact constant_places inputs x wellFormed
  | scaled gate coef =>
    obtain ⟨inside, -, rfl⟩ := means
    rw [materialize]
    split
    · rename_i unit
      exact ⟨.refl wellFormed, inside, by rw [unit, one_mul]⟩
    · obtain ⟨advances, there, one⟩ := constant_places inputs 1 wellFormed
      have admitted : (arena.constant 1).2.Admits (.mul gate (arena.constant 1).1 coef) := by
        rintro a b ⟨⟩
        exact ⟨advances.inside inside, there⟩
      refine ⟨advances.after (push_advances inputs advances.wellFormed admitted rfl), ?_, ?_⟩
      · exact (size_push _ _).symm ▸ Nat.lt_succ_self _
      · refine (push_value inputs _ _).trans ?_
        change coef * (arena.constant 1).2.value inputs gate * (arena.constant 1).2.value inputs (arena.constant 1).1 = _
        rw [one, mul_one, advances.value inside]

theorem materializeAll_spec (inputs : Array (Scalar F)) {values : List (WireValue F)} {xs : List (Scalar F)}
    {arena : Arena F} (wellFormed : arena.WellFormed)
    (means : List.Forall₂ (WireValue.Means inputs arena) values xs) :
    Advances inputs arena (materializeAll values arena).2 [] True ∧
      (∀ gate ∈ (materializeAll values arena).1, gate < (materializeAll values arena).2.nodes.size) ∧
      (materializeAll values arena).1.map ((materializeAll values arena).2.value inputs) = xs := by
  induction values generalizing arena xs with
  | nil =>
    cases means
    exact ⟨.refl wellFormed, List.forall_mem_nil _, rfl⟩
  | cons value rest ih =>
    cases means with
    | cons first others =>
      obtain ⟨advances, there, same⟩ := materialize_places inputs wellFormed first
      obtain ⟨later, inside, values⟩ := ih advances.wellFormed (advances.forall₂_means others)
      refine ⟨advances.after later, List.forall_mem_cons.mpr ⟨later.inside there, inside⟩, ?_⟩
      exact congrArg₂ List.cons ((later.value there).trans same) values

theorem product_yields (inputs : Array (Scalar F)) {lhs rhs : WireValue F} {x y : Scalar F} {arena : Arena F}
    (wellFormed : arena.WellFormed) (left : lhs.Means inputs arena x) (right : rhs.Means inputs arena y) :
    Yields inputs arena (arena.product lhs rhs) (x * y) := by
  -- A constant factor either makes the product zero or goes into the coefficient.
  have scaled {k y : Scalar F} {gate : Nat} {coef : Scalar F}
      (means : (WireValue.scaled gate coef).Means inputs arena y) :
      Yields inputs arena (if k.isZero then (.constant 0, arena) else (.scaled gate (coef * k), arena)) (k * y) := by
    obtain ⟨inside, nonzero, rfl⟩ := means
    split
    · rename_i zero
      rw [(Scalar.isZero_iff k).mp zero, zero_mul]
      exact ⟨.refl wellFormed, rfl⟩
    · rename_i notZero
      refine ⟨.refl wellFormed, inside, mul_ne_zero nonzero (mt (Scalar.isZero_iff k).mpr notZero), ?_⟩
      ring
  cases lhs with
  | constant a =>
    obtain rfl : x = a := left
    cases rhs with
    | constant b => exact ⟨.refl wellFormed, congrArg (x * ·) right⟩
    | scaled gate coef => exact scaled right
  | scaled a ca =>
    cases rhs with
    | constant b =>
      obtain rfl : y = b := right
      exact mul_comm x y ▸ scaled left
    | scaled b cb =>
      obtain ⟨insideA, -, rfl⟩ := left
      obtain ⟨insideB, -, rfl⟩ := right
      have admitted : arena.Admits (.mul a b (ca * cb)) := by
        rintro a' b' ⟨⟩
        exact ⟨insideA, insideB⟩
      refine ⟨push_advances inputs wellFormed admitted rfl, ?_, Scalar.one_ne_zero', ?_⟩
      · exact (size_push _ _).symm ▸ Nat.lt_succ_self _
      · rw [one_mul]
        refine Eq.trans ?_ (push_value inputs (.mul a b (ca * cb)) arena).symm
        change _ = ca * cb * arena.value inputs a * arena.value inputs b
        ring

end Arena
end ArithCircuit
