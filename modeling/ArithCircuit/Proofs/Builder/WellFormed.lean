import ArithCircuit.Builder.Definition
import ArithCircuit.Proofs.Builder.Recording
import ArithCircuit.Proofs.Circuit.Acceptance

/-!
Builders that keep the rules of recording at every step. Wires are given out in the order in which
instructions define them, the forms recorded or noted are canonical and read wires given out before, and each
sub-circuit calls sub-circuits defined before it. A step keeps the rules if it leads from a builder that
keeps them to another, whether the step succeeds or fails. The design of such a builder is valid, as long as
there were numbers for all wires.
-/
namespace ArithCircuit
variable {F : ScalarField}

/-- Instructions that were recorded one after the other, the first one after `n` wires. Each reads wires given out
    before it, fits what it calls, and was given the next wires. -/
def InOrder (D : Design F) : (n : Nat) → List (Instruction F) → Prop
  | _, [] => True
  | n, i :: rest =>
    (∀ form ∈ i.inputs, form.Readable n) ∧ i.Fits D ∧ i.outputs = Builder.freshWires n i.outputs.length ∧
      InOrder D (n + i.outputs.length) rest

namespace InOrder
variable {D D' : Design F} {n : Nat} {xs ys instructions : List (Instruction F)}

theorem append_iff : InOrder D n (xs ++ ys) ↔ InOrder D n xs ∧ InOrder D (n + sumOver (·.outputs.length) xs) ys := by
  induction xs generalizing n with
  | nil => simp [InOrder]
  | cons i rest ih => simp [InOrder, ih, and_assoc, Nat.add_assoc]

theorem fits (inOrder : InOrder D n instructions) : ∀ i ∈ instructions, i.Fits D := by
  induction instructions generalizing n with
  | nil => exact List.forall_mem_nil _
  | cons i rest ih =>
    obtain ⟨-, first, -, later⟩ := inOrder
    exact List.forall_mem_cons.mpr ⟨first, ih later⟩

/-- Only the circuits that are called matter. -/
theorem congr (inOrder : InOrder D n instructions) (fits : ∀ i ∈ instructions, i.Fits D → i.Fits D') :
    InOrder D' n instructions := by
  induction instructions generalizing n with
  | nil => trivial
  | cons i rest ih =>
    obtain ⟨readable, first, outputs, later⟩ := inOrder
    obtain ⟨fitsFirst, fitsRest⟩ := List.forall_mem_cons.mp fits
    exact ⟨readable, fitsFirst first, outputs, ih later fitsRest⟩

/-- As long as there are numbers for all wires, these are the numbers that the check asks for. -/
theorem sequenced (inOrder : InOrder D n instructions) (room : n + sumOver (·.outputs.length) instructions ≤ 2 ^ 32) :
    Sequenced D n instructions := by
  induction instructions generalizing n with
  | nil => trivial
  | cons i rest ih =>
    obtain ⟨readable, fits, outputs, later⟩ := inOrder
    rw [sumOver_cons, ← Nat.add_assoc] at room
    have given : n + i.outputs.length ≤ 2 ^ 32 := (Nat.le_add_right ..).trans room
    have small : n + i.outputs.length < 2 ^ 64 := given.trans_lt (by decide)
    refine ⟨?_, fits, ?_, ih later room⟩
    · rwa [machineWord_of_lt ((Nat.le_add_right ..).trans_lt small)]
    · rwa [nextWires_eq_range' small.le, ← Builder.freshWires_eq_range' given]

end InOrder

/-- The rules of a circuit that was recorded. -/
structure Circuit.Recordable (D : Design F) (c : Circuit F) : Prop where
  numPublic : c.numPublic ≤ c.numInputs
  instructions : InOrder D (1 + c.numInputs) c.instructions
  constraints : ∀ form ∈ c.constraints, form.Readable c.wireCount
  outputs : ∀ form ∈ c.outputs, form.Readable c.wireCount

theorem Circuit.Recordable.wellFormed {D : Design F} {c : Circuit F} (recordable : c.Recordable D)
    (room : c.wireCount ≤ 2 ^ 32) : c.WellFormed D := by
  have word : machineWord c.wireCount = c.wireCount := machineWord_of_lt (room.trans_lt (by decide))
  refine ⟨recordable.numPublic, recordable.instructions.sequenced room, ?_, ?_⟩
  · rw [word]
    exact recordable.constraints
  · rw [word]
    exact recordable.outputs

namespace SubCircuits

/-- The rules of sub-circuits: ids are given out from 1 on, and calls go to smaller ids. -/
structure WellFormed (subs : SubCircuits F) : Prop where
  ids : ∀ id, (∃ c, subs.get? id = some c) ↔ 1 ≤ id ∧ id < subs.nextId
  positive : 1 ≤ subs.nextId
  circuits : ∀ {id c}, subs.get? id = some c → c.Recordable ⟨subs.circuits⟩
  calls : ∀ {id c}, subs.get? id = some c → Design.CallsIn (· < id) c.instructions
  keys : ∀ {key id}, subs.lookup? key = some id → id < subs.nextId

/-- The ids in use are smaller than the next one. -/
structure Numbered (subs : SubCircuits F) : Prop where
  circuits : ∀ {id c}, subs.get? id = some c → id < subs.nextId
  keys : ∀ {key id}, subs.lookup? key = some id → id < subs.nextId

/-- Sub-circuits that keep those of an earlier state, under the same ids and keys. -/
structure Extends (subs subs' : SubCircuits F) : Prop where
  nextId : subs.nextId ≤ subs'.nextId
  circuits : ∀ id < subs.nextId, subs'.get? id = subs.get? id
  keys : ∀ id < subs.nextId, ∀ key, subs'.lookup? key = some id ↔ subs.lookup? key = some id

section
variable {subs subs₁ subs₂ : SubCircuits F}

theorem Extends.refl (subs : SubCircuits F) : subs.Extends subs := ⟨le_rfl, fun _ _ => rfl, fun _ _ _ => Iff.rfl⟩

theorem Extends.trans (first : subs.Extends subs₁) (second : subs₁.Extends subs₂) : subs.Extends subs₂ where
  nextId := first.nextId.trans second.nextId
  circuits id below := (second.circuits id (below.trans_le first.nextId)).trans (first.circuits id below)
  keys id below key := (second.keys id (below.trans_le first.nextId) key).trans (first.keys id below key)

theorem wellFormed_empty : (empty : SubCircuits F).WellFormed where
  ids id := by
    have none : ¬ ∃ c, (empty : SubCircuits F).get? id = some c := by
      rintro ⟨c, found⟩
      cases found
    refine iff_of_false none ?_
    intro inside
    exact absurd inside.2 (Nat.not_lt.mpr inside.1)
  positive := le_rfl
  circuits found := by cases found
  calls found := by cases found
  keys found := by cases found

theorem WellFormed.numbered (wellFormed : subs.WellFormed) : subs.Numbered :=
  ⟨fun found => ((wellFormed.ids _).mp ⟨_, found⟩).2, wellFormed.keys⟩

/-- A circuit over the sub-circuits keeps the rules in any design that has them. -/
theorem WellFormed.within (wellFormed : subs.WellFormed) {D : Design F}
    (kept : ∀ id, 1 ≤ id → id < subs.nextId → D.get? id = subs.get? id) {c : Circuit F}
    (kind : c.Recordable ⟨subs.circuits⟩) : c.Recordable D := by
  refine ⟨kind.numPublic, kind.instructions.congr fun i _ fits => ?_, kind.constraints, kind.outputs⟩
  cases i with
  | linear => trivial
  | product => trivial
  | hint => trivial
  | call callee inputs outputs =>
    obtain ⟨d, found, same⟩ := fits
    obtain ⟨positive, below⟩ := (wellFormed.ids callee).mp ⟨d, found⟩
    exact ⟨d, (kept callee positive below).trans found, same⟩

/-- The circuits called have been defined. -/
theorem WellFormed.callees (wellFormed : subs.WellFormed) {c : Circuit F} (kind : c.Recordable ⟨subs.circuits⟩) :
    Design.CallsIn (fun callee => 1 ≤ callee ∧ callee < subs.nextId) c.instructions := by
  intro i member callee calls
  exact (wellFormed.ids callee).mp ((kind.instructions.fits i member).present calls)

theorem get?_insert (subs : SubCircuits F) (key : String) (c : Circuit F) (id : CircuitId) :
    (subs.insert key c).2.get? id = if id = subs.nextId then some c else subs.get? id :=
  Table.get?_insert ..

theorem lookup?_insert (subs : SubCircuits F) (key other : String) (c : Circuit F) :
    (subs.insert key c).2.lookup? other = if other = key then some subs.nextId else subs.lookup? other :=
  Table.get?_insert ..

/-- A definition keeps what was there before its body was recorded, if its key was free then. -/
theorem Extends.insert (kept : subs.Extends subs₁) {key : String} (free : subs.lookup? key = none) (c : Circuit F) :
    subs.Extends (subs₁.insert key c).2 where
  nextId := kept.nextId.trans (Nat.le_succ _)
  circuits id below := by
    rw [get?_insert, if_neg (below.trans_le kept.nextId).ne]
    exact kept.circuits id below
  keys id below other := by
    rw [lookup?_insert]
    by_cases same : other = key
    · have later := (below.trans_le kept.nextId).ne
      simp [same, free, later.symm]
    · rw [if_neg same]
      exact kept.keys id below other

theorem Numbered.insert (numbered : subs.Numbered) (key : String) (c : Circuit F) : (subs.insert key c).2.Numbered := by
  have next : (subs.insert key c).2.nextId = subs.nextId + 1 := rfl
  constructor
  · intro id d found
    rw [get?_insert] at found
    rw [next]
    split at found
    · rename_i same
      exact same ▸ Nat.lt_succ_self _
    · exact (numbered.circuits found).trans (Nat.lt_succ_self _)
  · intro other id found
    rw [lookup?_insert] at found
    rw [next]
    split at found
    · cases found
      exact Nat.lt_succ_self _
    · exact (numbered.keys found).trans (Nat.lt_succ_self _)

/-- A circuit that keeps the rules can be defined next. -/
theorem WellFormed.insert (wellFormed : subs.WellFormed) (key : String) {c : Circuit F}
    (kind : c.Recordable ⟨subs.circuits⟩) : (subs.insert key c).2.WellFormed := by
  have circuit {d : Circuit F} (kind : d.Recordable ⟨subs.circuits⟩) : d.Recordable ⟨(subs.insert key c).2.circuits⟩ := by
    refine wellFormed.within (fun id _ below => ?_) kind
    exact (get?_insert subs key c id).trans (if_neg below.ne)
  have next : (subs.insert key c).2.nextId = subs.nextId + 1 := rfl
  have positive := wellFormed.positive
  refine ⟨?_, ?_, ?_, ?_, ?_⟩
  · intro id
    rw [get?_insert, next]
    by_cases same : id = subs.nextId
    · simp [same, positive]
    · rw [if_neg same, wellFormed.ids, Nat.lt_succ_iff_lt_or_eq, or_iff_left same]
  · exact positive.trans (Nat.le_succ _)
  · intro id d found
    rw [get?_insert] at found
    split at found
    · cases found
      exact circuit kind
    · exact circuit (wellFormed.circuits found)
  · intro id d found
    rw [get?_insert] at found
    split at found
    · rename_i same
      cases found
      intro i member callee calls
      rw [same]
      exact (wellFormed.callees kind i member callee calls).2
    · exact wellFormed.calls found
  · exact (wellFormed.numbered.insert key c).keys

/-- Taking back every definition since an earlier state gives that state. -/
theorem rollback_eq (numbered : subs.Numbered) (kept : subs.Extends subs₁) : subs₁.rollback subs.nextId = subs := by
  have circuits : (subs₁.circuits.filter fun id _ => decide (id < subs.nextId)) = subs.circuits := by
    refine Table.ext_get? fun id => ?_
    rw [Table.get?_filter]
    by_cases below : id < subs.nextId
    · have same : subs₁.circuits.get? id = subs.circuits.get? id := kept.circuits id below
      rw [same]
      cases subs.circuits.get? id <;> simp [below]
    · have outside : subs.circuits.get? id = none := by
        exact Option.eq_none_iff_forall_ne_some.mpr fun c found => below (numbered.circuits found)
      simp [outside, below]
  have keys : (subs₁.byKey.filter fun _ id => decide (id < subs.nextId)) = subs.byKey := by
    refine Table.ext_get? fun key => Option.ext fun id => ?_
    rw [Table.get?_filter, Option.filter_eq_some_iff, decide_eq_true_iff]
    constructor
    · rintro ⟨found, below⟩
      exact (kept.keys id below key).mp found
    · intro found
      have below := numbered.keys found
      exact ⟨(kept.keys id below key).mpr found, below⟩
  rw [rollback, circuits, keys]

end
end SubCircuits

namespace Builder

/-- The rules of a builder. -/
structure WellFormed (b : Builder F) : Prop where
  subCircuits : b.subCircuits.WellFormed
  circuit : b.circuit.Recordable ⟨b.subCircuits.circuits⟩
  nextWire : b.nextWire = b.circuit.wireCount
  booleans : ∀ e ∈ b.booleans, e.Readable b.nextWire
  unsatisfiable : ∀ e, b.unsatisfiable = some e → ∃ assertion value, e = .unsatisfiable assertion value

/-- A builder that keeps the rules comes from another by recording. -/
structure Continues (b b' : Builder F) : Prop where
  wellFormed : b'.WellFormed
  numInputs : b'.numInputs = b.numInputs
  nextWire : b.nextWire ≤ b'.nextWire
  subCircuits : b.subCircuits.Extends b'.subCircuits

variable {b b₁ b₂ : Builder F}

theorem Continues.refl (wellFormed : b.WellFormed) : Continues b b := ⟨wellFormed, rfl, le_rfl, .refl _⟩

theorem Continues.trans (first : Continues b b₁) (second : Continues b₁ b₂) : Continues b b₂ :=
  ⟨second.wellFormed, second.numInputs.trans first.numInputs, first.nextWire.trans second.nextWire,
    first.subCircuits.trans second.subCircuits⟩

theorem WellFormed.inputs_lt (wellFormed : b.WellFormed) : b.numInputs < b.nextWire := by
  have wires : 1 + b.numInputs + sumOver (·.outputs.length) b.instructions.toList = b.nextWire := wellFormed.nextWire.symm
  omega

theorem WellFormed.positive (wellFormed : b.WellFormed) : 0 < b.nextWire := Nat.zero_lt_of_lt wellFormed.inputs_lt

theorem WellFormed.constraints_readable (wellFormed : b.WellFormed) : ∀ e ∈ b.constraints.toList, e.Readable b.nextWire := by
  rw [wellFormed.nextWire]
  exact wellFormed.circuit.constraints

theorem WellFormed.outputs_readable (wellFormed : b.WellFormed) : ∀ e ∈ b.outputs.toList, e.Readable b.nextWire := by
  rw [wellFormed.nextWire]
  exact wellFormed.circuit.outputs

theorem wellFormed_blank {subs : SubCircuits F} (wellFormed : subs.WellFormed) {numInputs numPublic : Nat}
    (few : numPublic ≤ numInputs) (hints : HintRegistry F) : (blank numInputs numPublic hints subs).WellFormed where
  subCircuits := wellFormed
  circuit := ⟨few, trivial, List.forall_mem_nil _, List.forall_mem_nil _⟩
  nextWire := Nat.add_comm ..
  booleans e noted := absurd noted Std.TreeSet.not_mem_emptyc
  unsatisfiable e found := by cases found

theorem WellFormed.child (wellFormed : b.WellFormed) (numInputs : Nat) : (b.child numInputs).WellFormed :=
  wellFormed_blank wellFormed.subCircuits (Nat.zero_le _) _

/-- A new instruction may read the wires given out and must define the next ones. -/
theorem WellFormed.extend (wellFormed : b.WellFormed) {i : Instruction F} {count : Nat}
    (outputs : i.outputs = freshWires b.nextWire count) (inputs : ∀ e ∈ i.inputs, e.Readable b.nextWire)
    (fits : i.Fits ⟨b.subCircuits.circuits⟩) : Continues b (b.extend i count) := by
  have length : i.outputs.length = count := by rw [outputs, length_freshWires]
  have later : b.nextWire ≤ b.nextWire + count := Nat.le_add_right ..
  have wires := wellFormed.nextWire
  have listed : (b.extend i count).circuit.instructions = b.circuit.instructions ++ [i] := Array.toList_push
  have wires' : (b.extend i count).circuit.wireCount = b.nextWire + count := by rw [wireCount_extend b length, wires]
  refine ⟨⟨wellFormed.subCircuits, ⟨wellFormed.circuit.numPublic, ?_, ?_, ?_⟩, wires'.symm, ?_, wellFormed.unsatisfiable⟩,
    rfl, later, .refl _⟩
  · rw [listed]
    refine InOrder.append_iff.mpr ⟨wellFormed.circuit.instructions, ?_⟩
    rw [wires] at inputs outputs
    exact ⟨inputs, fits, by rwa [length], trivial⟩
  · intro e member
    rw [wires']
    exact (wellFormed.constraints_readable e member).mono later
  · intro e member
    rw [wires']
    exact (wellFormed.outputs_readable e member).mono later
  · exact fun e noted => (wellFormed.booleans e noted).mono later

/-- A builder may take other constraints, outputs and notes that read its wires. -/
theorem WellFormed.update (wellFormed : b.WellFormed) {constraints outputs : Array (LinearForm F)}
    {booleans : Std.TreeSet (LinearForm F) LinearForm.compare} {hints : HintRegistry F} {unsatisfiable : Option BuildError}
    (readsConstraints : ∀ e ∈ constraints.toList, e.Readable b.nextWire)
    (readsOutputs : ∀ e ∈ outputs.toList, e.Readable b.nextWire)
    (readsBooleans : ∀ e ∈ booleans, e.Readable b.nextWire)
    (rejected : ∀ e, unsatisfiable = some e → ∃ assertion value, e = .unsatisfiable assertion value) :
    Continues b { b with constraints := constraints, outputs := outputs, booleans := booleans, hints := hints,
                         unsatisfiable := unsatisfiable } := by
  have wires := wellFormed.nextWire
  rw [wires] at readsConstraints readsOutputs
  exact ⟨⟨wellFormed.subCircuits, ⟨wellFormed.circuit.numPublic, wellFormed.circuit.instructions, readsConstraints, readsOutputs⟩,
    wires, readsBooleans, rejected⟩, rfl, le_rfl, .refl _⟩

/-- A definition adds what its body recorded, or takes back what its body defined. -/
theorem adopt_cases (b : Builder F) (key : String) (inner : Builder F) (failure : Option BuildError) :
    failure.or inner.unsatisfiable = none ∧ b.adopt key inner failure =
      (.ok inner.subCircuits.nextId, { b with subCircuits := (inner.subCircuits.insert key inner.circuit).2 }) ∨
    ∃ e, failure.or inner.unsatisfiable = some e ∧ b.adopt key inner failure =
      (.error e, { b with subCircuits := inner.subCircuits.rollback b.subCircuits.nextId }) := by
  unfold adopt
  cases failure.or inner.unsatisfiable with
  | none => exact .inl ⟨rfl, rfl⟩
  | some e => exact .inr ⟨e, rfl, rfl⟩

/-- What a definition leaves behind: the body's circuit and what the body defined, or no trace. -/
theorem WellFormed.adopt (wellFormed : b.WellFormed) {key : String} (free : b.subCircuits.lookup? key = none)
    {numInputs : Nat} {inner : Builder F} (recorded : Continues (b.child numInputs) inner) (failure : Option BuildError) :
    Continues b (b.adopt key inner failure).2 := by
  have kept : b.subCircuits.Extends inner.subCircuits := recorded.subCircuits
  rcases adopt_cases b key inner failure with ⟨-, added⟩ | ⟨e, -, undone⟩
  · have extended := kept.insert free inner.circuit
    rw [added]
    refine ⟨⟨recorded.wellFormed.subCircuits.insert key recorded.wellFormed.circuit, ?_, wellFormed.nextWire,
      wellFormed.booleans, wellFormed.unsatisfiable⟩, rfl, le_rfl, extended⟩
    exact wellFormed.subCircuits.within (fun id _ below => extended.circuits id below) wellFormed.circuit
  · rw [undone, SubCircuits.rollback_eq wellFormed.subCircuits.numbered kept]
    exact .refl wellFormed

/-! ### The design of a builder -/

/-- There are numbers for all wires of the recorded circuit and of each sub-circuit. -/
structure Roomy (b : Builder F) : Prop where
  own : b.nextWire ≤ 2 ^ 32
  subCircuits : ∀ {id c}, b.subCircuits.get? id = some c → c.wireCount ≤ 2 ^ 32

theorem get?_design {D : Design F} (built : b.design = .ok D) (id : CircuitId) :
    D.get? id = if id = .entry then some b.circuit else b.subCircuits.get? id := by
  rw [design] at built
  split at built
  · cases built
  · cases built
    exact Table.get?_insert ..

section
variable {D : Design F} (wellFormed : b.WellFormed) (built : b.design = .ok D)

include built in
theorem Roomy.design (roomy : b.Roomy) (wires : b.nextWire = b.circuit.wireCount) {id : CircuitId} {c : Circuit F}
    (found : D.get? id = some c) : c.wireCount ≤ 2 ^ 32 := by
  rw [get?_design built] at found
  split at found
  · cases found
    exact wires ▸ roomy.own
  · exact roomy.subCircuits found

include wellFormed built

/-- The ids of the design are those of the sub-circuits, after the entry. -/
theorem WellFormed.ids_design (id : CircuitId) : (∃ c, D.get? id = some c) ↔ id < b.subCircuits.nextId := by
  rw [get?_design built]
  have positive := wellFormed.subCircuits.positive
  by_cases same : id = .entry
  · rw [if_pos same, same]
    exact iff_of_true ⟨_, rfl⟩ positive
  · rw [if_neg same, wellFormed.subCircuits.ids]
    exact and_iff_right (Nat.pos_of_ne_zero same)

/-- Calls go to sub-circuits, and those of a sub-circuit to earlier ones. -/
theorem WellFormed.calls_design {id : CircuitId} {c : Circuit F} (found : D.get? id = some c) :
    Design.CallsIn (fun callee => 1 ≤ callee ∧ callee < b.subCircuits.nextId ∧ (id ≠ .entry → callee < id)) c.instructions := by
  intro i member callee calls
  rw [get?_design built] at found
  split at found
  · rename_i same
    cases found
    obtain ⟨positive, below⟩ := wellFormed.subCircuits.callees wellFormed.circuit i member callee calls
    exact ⟨positive, below, fun other => absurd same other⟩
  · have kind := wellFormed.subCircuits.circuits found
    obtain ⟨positive, below⟩ := wellFormed.subCircuits.callees kind i member callee calls
    exact ⟨positive, below, fun _ => wellFormed.subCircuits.calls found i member callee calls⟩

theorem WellFormed.circuits_design {id : CircuitId} {c : Circuit F} (found : D.get? id = some c) : c.Recordable D := by
  have kept : ∀ id, 1 ≤ id → id < b.subCircuits.nextId → D.get? id = b.subCircuits.get? id := by
    intro id positive _
    have other : id ≠ .entry := Nat.pos_iff_ne_zero.mp positive
    rw [get?_design built, if_neg other]
  rw [get?_design built] at found
  split at found
  · cases found
    exact wellFormed.subCircuits.within kept wellFormed.circuit
  · exact wellFormed.subCircuits.within kept (wellFormed.subCircuits.circuits found)

/-- The design of a builder that keeps the rules passes its check, if there were numbers for all wires. -/
theorem WellFormed.validate_design (roomy : b.Roomy) : D.validate = .ok () := by
  have entry := (wellFormed.ids_design built .entry).mpr wellFormed.subCircuits.positive
  -- The entry ranks above all sub-circuits, which rank by their ids.
  have ranked : D.Ranked fun id => if id = .entry then b.subCircuits.nextId else id := by
    intro id c found i member callee calls
    obtain ⟨positive, below, earlier⟩ := wellFormed.calls_design built found i member callee calls
    refine ⟨?_, (wellFormed.ids_design built callee).mpr below⟩
    have other : callee ≠ .entry := Nat.pos_iff_ne_zero.mp positive
    simp only [if_neg other]
    split
    · exact below
    · rename_i notEntry
      exact earlier notEntry
  refine Design.validate_of_ranked ranked entry fun found => ?_
  exact (wellFormed.circuits_design built found).wellFormed (roomy.design built wellFormed.nextWire found)

end

theorem WellFormed.build_of_possible (wellFormed : b.WellFormed) (roomy : b.Roomy) (possible : b.unsatisfiable = none) :
    ∃ D, b.design = .ok D ∧ b.build = .ok D := by
  obtain ⟨D, built⟩ : ∃ D, b.design = .ok D := by
    simp only [design, possible]
    exact ⟨_, rfl⟩
  refine ⟨D, built, ?_⟩
  rw [build, built, ok_bind, wellFormed.validate_design built roomy]
  rfl

/-- A builder that keeps the rules is built, if there were numbers for all wires, or has noted an assertion that never
    holds. -/
theorem WellFormed.build_cases (wellFormed : b.WellFormed) (roomy : b.Roomy) :
    (∃ D, b.design = .ok D ∧ b.build = .ok D) ∨ ∃ assertion value, b.build = .error (.unsatisfiable assertion value) := by
  cases rejected : b.unsatisfiable with
  | none => exact .inl (wellFormed.build_of_possible roomy rejected)
  | some e =>
    obtain ⟨assertion, value, rfl⟩ := wellFormed.unsatisfiable e rejected
    refine .inr ⟨assertion, value, ?_⟩
    simp only [build, design, rejected, error_bind]

end Builder

/-! ### Steps that keep the rules -/

/-- Values made of forms, all of which can be read once a number of wires have values. -/
class Legible (α : Type) where
  At : Nat → α → Prop
  mono : ∀ {m n : Nat} {a : α}, m ≤ n → At m a → At n a

namespace Legible
variable {α β : Type} [Legible α] [Legible β]

instance : Legible Unit := ⟨fun _ _ => True, fun _ _ => trivial⟩

instance : Legible Bool := ⟨fun _ _ => True, fun _ _ => trivial⟩

instance : Legible CircuitId := ⟨fun _ _ => True, fun _ _ => trivial⟩

instance : Legible (LinearForm F) := ⟨LinearForm.Readable, LinearForm.Readable.mono⟩

instance : Legible (List α) := ⟨fun n as => ∀ a ∈ as, At n a, fun le all a member => mono le (all a member)⟩

instance : Legible (α × β) := ⟨fun n p => At n p.1 ∧ At n p.2, fun le both => ⟨mono le both.1, mono le both.2⟩⟩

end Legible

namespace Builder
variable {α β : Type} [Legible α] [Legible β] {b : Builder F}

omit [Legible α] in
/-- The builder that a step leaves behind, whether it succeeds or fails. -/
def Ends (step : Build F α) (b b' : Builder F) : Prop := (∃ a, step b = .ok a b') ∨ ∃ e, step b = .error e b'

section
omit [Legible α]
variable {step : Build F α} {b' c : Builder F}

theorem Ends.eq_of_ok {a : α} (ends : Ends step b b') (done : step b = .ok a c) : b' = c := by
  rcases ends with ⟨_, done'⟩ | ⟨_, failed⟩
  · cases done.symm.trans done'
    rfl
  · cases done.symm.trans failed

theorem Ends.eq_of_error {e : BuildError} (ends : Ends step b b') (failed : step b = .error e c) : b' = c := by
  rcases ends with ⟨_, done⟩ | ⟨_, failed'⟩
  · cases failed.symm.trans done
  · cases failed.symm.trans failed'
    rfl

end

/-- A step that leads to a builder that keeps the rules, whether it succeeds or fails. -/
structure Keeps (b : Builder F) (step : Build F α) : Prop where
  made : ∀ {a b'}, step b = .ok a b' → Continues b b' ∧ Legible.At b'.nextWire a
  failed : ∀ {e b'}, step b = .error e b' → Continues b b'

namespace Keeps

theorem pure (wellFormed : b.WellFormed) {a : α} (legible : Legible.At b.nextWire a) : Keeps b (Pure.pure a) where
  made done := by
    cases done
    exact ⟨.refl wellFormed, legible⟩
  failed done := by cases done

theorem throw (wellFormed : b.WellFormed) (e : BuildError) : Keeps b (MonadExcept.throw e : Build F α) where
  made done := by cases done
  failed done := by
    cases done
    exact .refl wellFormed

theorem get {next : Builder F → Build F α} (keeps : Keeps b (next b)) : Keeps b (MonadState.get >>= next) :=
  ⟨keeps.made, keeps.failed⟩

/-- One step after another. -/
theorem bind {step : Build F α} {next : α → Build F β} (first : Keeps b step)
    (second : ∀ {a b₁}, Continues b b₁ → Legible.At b₁.nextWire a → Keeps b₁ (next a)) : Keeps b (step >>= next) where
  made done := by
    obtain ⟨a, b₁, stepped, continued⟩ := run_bind_eq_ok.mp done
    obtain ⟨early, legible⟩ := first.made stepped
    obtain ⟨late, legible'⟩ := (second early legible).made continued
    exact ⟨early.trans late, legible'⟩
  failed done := by
    rcases run_bind_eq_error.mp done with stopped | ⟨a, b₁, stepped, stopped⟩
    · exact first.failed stopped
    · obtain ⟨early, legible⟩ := first.made stepped
      exact early.trans ((second early legible).failed stopped)

theorem continues {step : Build F α} (keeps : Keeps b step) {b' : Builder F} (ends : Ends step b b') : Continues b b' := by
  rcases ends with ⟨_, done⟩ | ⟨_, done⟩
  · exact (keeps.made done).1
  · exact keeps.failed done

/-- A step that always succeeds and changes the builder. -/
theorem of_eq {step : Build F α} {a : α} {c : Builder F} (done : step b = .ok a c) (continues : Continues b c)
    (legible : Legible.At c.nextWire a) : Keeps b step where
  made other := by
    cases done.symm.trans other
    exact ⟨continues, legible⟩
  failed other := by cases done.symm.trans other

end Keeps
end Builder
end ArithCircuit
