import Mathlib.Data.Fintype.Card
import Mathlib.Logic.Relation
import Mathlib.Order.WellFounded
import ArithCircuit.Proofs.Circuit.Acceptance

/-!
The rules of a design, said without the check, and where the check is exact: it passes a design if and
only if the design keeps the rules, unless a circuit has so many inputs that a machine word cannot count
them together with the constant one. The call graph is over all circuits that are there, whether or not
the entry reaches them.
-/
namespace ArithCircuit
variable {F : ScalarField}

/-- Each instruction reads only the wires defined before it, when the first of them starts with `defined` wires. -/
def ReadsDefined (defined : Nat) (instructions : List (Instruction F)) : Prop :=
  ∀ before i after, instructions = before ++ i :: after →
    ∀ form ∈ i.inputs, form.Reads (defined + sumOver (·.outputs.length) before)

/-- The rules of one circuit, each said of the circuit as a whole. -/
structure Circuit.Lawful (D : Design F) (c : Circuit F) : Prop where
  numPublic : c.numPublic ≤ c.numInputs
  canonical : ∀ form ∈ c.instructions.flatMap (·.inputs) ++ c.constraints ++ c.outputs,
    LinearForm.Canonical form.terms
  inputs : ReadsDefined (c.numInputs + 1) c.instructions
  /-- The instructions define the wires after the inputs, in order and without gaps. -/
  wires : c.instructions.flatMap (·.outputs) =
    List.range' (c.numInputs + 1) (c.instructions.flatMap (·.outputs)).length
  constraints : ∀ form ∈ c.constraints, form.Reads c.wireCount
  outputs : ∀ form ∈ c.outputs, form.Reads c.wireCount
  calls : ∀ callee inputs outputs, Instruction.call callee inputs outputs ∈ c.instructions →
    ∃ c', D.get? callee = some c' ∧ c'.numInputs = inputs.length ∧ c'.outputs.length = outputs.length

/-- A circuit of the design has a call to another. -/
def Design.Calls (D : Design F) (caller callee : CircuitId) : Prop :=
  ∃ c, D.get? caller = some c ∧ ∃ inputs outputs, Instruction.call callee inputs outputs ∈ c.instructions

/-- The rules of a design. -/
structure Design.Lawful (D : Design F) : Prop where
  entry : ∃ c, D.get? 0 = some c
  circuits : ∀ id c, D.get? id = some c → c.Lawful D
  acyclic : ∀ id, ¬ Relation.TransGen D.Calls id id

theorem Instruction.callee?_eq_some_iff {i : Instruction F} {callee : CircuitId} :
    i.callee? = some callee ↔ ∃ inputs outputs, i = .call callee inputs outputs := by
  cases i <;> simp [Instruction.callee?]

theorem Instruction.fits_iff {D : Design F} {i : Instruction F} :
    i.Fits D ↔ ∀ callee inputs outputs, i = .call callee inputs outputs →
      ∃ c, D.get? callee = some c ∧ c.numInputs = inputs.length ∧ c.outputs.length = outputs.length := by
  cases i <;> simp [Instruction.Fits]

theorem readsDefined_cons {n : Nat} {i : Instruction F} {rest : List (Instruction F)} :
    ReadsDefined n (i :: rest) ↔
      (∀ form ∈ i.inputs, form.Reads n) ∧ ReadsDefined (n + i.outputs.length) rest := by
  constructor
  · intro reads
    refine ⟨by simpa using reads [] i rest rfl, ?_⟩
    rintro before j after rfl
    simpa [Nat.add_assoc] using reads (i :: before) j after rfl
  · rintro ⟨first, later⟩ before j after split
    cases before with
    | nil =>
      obtain ⟨rfl, rfl⟩ := List.cons.inj split
      simpa using first
    | cons head before =>
      obtain ⟨rfl, rfl⟩ := List.cons.inj split
      simpa [Nat.add_assoc] using later before j after rfl

/-- The outputs of a list of instructions are consecutive exactly when the first ones are and the others follow. -/
theorem outputs_cons_iff {n : Nat} {i : Instruction F} {rest : List (Instruction F)} :
    (i :: rest).flatMap (·.outputs) = List.range' n ((i :: rest).flatMap (·.outputs)).length ↔
      i.outputs = List.range' n i.outputs.length ∧
        rest.flatMap (·.outputs) = List.range' (n + i.outputs.length) (rest.flatMap (·.outputs)).length := by
  rw [List.flatMap_cons, List.length_append, ← List.range'_append_1]
  exact ⟨fun same => List.append_inj same (by simp), fun same => by rw [← same.1, ← same.2]⟩

/-- Checked one after the other, the instructions keep the rules that speak of them all. -/
theorem sequenced_iff {D : Design F} {n : Nat} {instructions : List (Instruction F)}
    (small : n + sumOver (·.outputs.length) instructions < 2 ^ 64) :
    Sequenced D n instructions ↔
      (∀ i ∈ instructions, ∀ form ∈ i.inputs, LinearForm.Canonical form.terms) ∧ ReadsDefined n instructions ∧
        instructions.flatMap (·.outputs) = List.range' n (instructions.flatMap (·.outputs)).length ∧
        ∀ i ∈ instructions, i.Fits D := by
  induction instructions generalizing n with
  | nil => simp [Sequenced, ReadsDefined]
  | cons i rest ih =>
    rw [sumOver_cons, ← Nat.add_assoc] at small
    have first : n + i.outputs.length ≤ 2 ^ 64 := by omega
    rw [Sequenced, ih small, readsDefined_cons, outputs_cons_iff, List.forall_mem_cons, List.forall_mem_cons,
      nextWires_eq_range' first, machineWord_of_lt (by omega)]
    simp only [LinearForm.readable_iff, forall_and]
    tauto

namespace Circuit

/-- A circuit with fewer wires than a machine word can count keeps the rules of the check exactly when it keeps
    the rules. -/
theorem wellFormed_iff {D : Design F} {c : Circuit F} (small : c.wireCount < 2 ^ 64) : c.WellFormed D ↔ c.Lawful D := by
  have word := machineWord_of_lt small
  constructor
  · rintro ⟨numPublic, instructions, constraints, outputs⟩
    rw [word] at constraints outputs
    obtain ⟨canonical, inputs, wires, fits⟩ := (sequenced_iff small).mp instructions
    rw [Nat.add_comm] at inputs wires
    refine ⟨numPublic, ?_, inputs, wires, fun form member => (constraints form member).reads,
      fun form member => (outputs form member).reads, ?_⟩
    · intro form member
      rcases List.mem_append.mp member with inner | output
      · rcases List.mem_append.mp inner with input | constraint
        · obtain ⟨i, present, input⟩ := List.mem_flatMap.mp input
          exact canonical i present form input
        · exact (constraints form constraint).canonical
      · exact (outputs form output).canonical
    · intro callee ins outs member
      exact fits _ member
  · rintro ⟨numPublic, canonical, inputs, wires, constraints, outputs, calls⟩
    simp only [List.mem_append, List.mem_flatMap] at canonical
    refine ⟨numPublic, (sequenced_iff small).mpr ⟨?_, ?_, ?_, ?_⟩, ?_, ?_⟩
    · intro i member form input
      exact canonical form (.inl (.inl ⟨i, member, input⟩))
    · rwa [Nat.add_comm]
    · rwa [Nat.add_comm]
    · intro i member
      refine Instruction.fits_iff.mpr ?_
      rintro callee ins outs rfl
      exact calls callee ins outs member
    · intro form member
      rw [word]
      exact LinearForm.readable_iff.mpr ⟨canonical form (.inl (.inr member)), constraints form member⟩
    · intro form member
      rw [word]
      exact LinearForm.readable_iff.mpr ⟨canonical form (.inr member), outputs form member⟩

/-- If a bound holds for the wires before the first instruction but not for all wires, it is the number of a wire. -/
theorem Numbered.wireCount_le {D : Design F} {c : Circuit F} (numbered : c.Numbered) {bound : Nat} (large : 2 ^ 32 ≤ bound)
    (word : bound < 2 ^ 64) (few : c.numInputs + 1 ≤ bound) (kept : c.WellFormed D ∨ c.Lawful D) : c.wireCount ≤ bound := by
  by_contra more
  rw [wireCount_eq] at more
  have within : bound ∈ List.range' (c.numInputs + 1) (c.instructions.flatMap (·.outputs)).length :=
    List.mem_range'_1.mpr (by omega)
  have given : bound ∈ c.instructions.flatMap (·.outputs) := by
    rcases kept with wellFormed | lawful
    · rw [wellFormed.instructions.outputs_eq, Nat.add_comm 1]
      exact List.mem_map.mpr ⟨_, within, machineWord_of_lt word⟩
    · rwa [lawful.wires]
  exact absurd (numbered _ given) (Nat.not_lt.mpr large)

/-- A machine word that can count the wires before the first instruction can count all wires. -/
theorem Numbered.small {D : Design F} {c : Circuit F} (numbered : c.Numbered) (few : c.numInputs + 1 < 2 ^ 64)
    (kept : c.WellFormed D ∨ c.Lawful D) : c.wireCount < 2 ^ 64 :=
  Nat.lt_of_le_pred (by decide) (numbered.wireCount_le (by decide) (by decide) (Nat.le_pred_of_lt few) kept)

end Circuit

namespace Design
variable {D : Design F}

theorem calls_iff {caller callee : CircuitId} :
    D.Calls caller callee ↔ ∃ c, D.get? caller = some c ∧ ∃ i ∈ c.instructions, i.callee? = some callee := by
  simp only [Calls, Instruction.callee?_eq_some_iff]
  constructor
  · rintro ⟨c, found, ins, outs, member⟩
    exact ⟨c, found, _, member, ins, outs, rfl⟩
  · rintro ⟨c, found, _, member, ins, outs, rfl⟩
    exact ⟨c, found, ins, outs, member⟩

/-- No chain of calls goes on for ever. -/
theorem Valid.wellFounded (valid : D.Valid) : WellFounded fun callee caller => D.Calls caller callee := by
  refine ⟨fun id => valid.depth_induction (P := fun _ id => Acc (fun callee caller => D.Calls caller callee) id) ?_
    le_rfl id⟩
  intro _ id callees
  refine ⟨_, fun callee calls => ?_⟩
  obtain ⟨c, found, i, member, calling⟩ := calls_iff.mp calls
  exact callees found i member callee calling

theorem not_transGen_of_wellFounded (wellFounded : WellFounded fun callee caller => D.Calls caller callee)
    (id : CircuitId) : ¬ Relation.TransGen D.Calls id id := by
  intro cycle
  have back : Relation.TransGen (fun callee caller => D.Calls caller callee) id id := Relation.transGen_swap.mpr cycle
  exact wellFounded.transGen.irrefl.irrefl id back

open Classical in
/-- The number of circuits below a circuit in the call graph. -/
noncomputable def rank (D : Design F) (id : CircuitId) : Nat :=
  (D.circuits.keys.toFinset.filter (Relation.TransGen D.Calls id)).card

/-- Without cycles, what a callee reaches leaves out the callee itself, which the caller reaches. -/
theorem rank_lt_of_calls (acyclic : ∀ id, ¬ Relation.TransGen D.Calls id id) {caller callee : CircuitId}
    (calls : D.Calls caller callee) (present : callee ∈ D.circuits.keys) : D.rank callee < D.rank caller := by
  classical
  refine Finset.card_lt_card (Finset.ssubset_iff_of_subset ?_ |>.mpr ⟨callee, ?_, ?_⟩)
  · intro id member
    obtain ⟨known, reaches⟩ := Finset.mem_filter.mp member
    exact Finset.mem_filter.mpr ⟨known, .head calls reaches⟩
  · exact Finset.mem_filter.mpr ⟨List.mem_toFinset.mpr present, .single calls⟩
  · intro member
    exact acyclic callee (Finset.mem_filter.mp member).2

theorem Lawful.ranked (lawful : D.Lawful) : D.Ranked D.rank := by
  intro id c found i member callee calls
  obtain ⟨ins, outs, rfl⟩ := Instruction.callee?_eq_some_iff.mp calls
  obtain ⟨c', present, -⟩ := (lawful.circuits id c found).calls callee ins outs member
  have known : callee ∈ D.circuits.keys := Table.mem_keys_iff.mpr ⟨c', present⟩
  exact ⟨rank_lt_of_calls lawful.acyclic ⟨c, found, ins, outs, member⟩ known, c', present⟩

/-- The check passes exactly the designs that keep the rules, as long as a machine word can count the constant one
    and the inputs of each circuit. -/
theorem validate_eq_ok_iff_lawful {D : Design F} (numbered : ∀ c ∈ D.circuits.values, c.Numbered)
    (few : ∀ c ∈ D.circuits.values, c.numInputs + 1 < 2 ^ 64) : D.validate = .ok () ↔ D.Lawful := by
  have exact {id : CircuitId} {c : Circuit F} (found : D.get? id = some c) (kept : c.WellFormed D ∨ c.Lawful D) :
      c.WellFormed D ↔ c.Lawful D := by
    have listed := mem_values_of_get? found
    exact Circuit.wellFormed_iff ((numbered c listed).small (few c listed) kept)
  constructor
  · intro checked
    have valid := valid_of_validate checked
    refine ⟨valid.entry, fun id c found => ?_, not_transGen_of_wellFounded valid.wellFounded⟩
    exact (exact found (.inl (valid.wellFormed found))).mp (valid.wellFormed found)
  · intro lawful
    refine validate_of_ranked lawful.ranked lawful.entry fun {id c} found => ?_
    exact (exact found (.inr (lawful.circuits id c found))).mpr (lawful.circuits id c found)

/-- A design whose entry calls a circuit that squares its input. -/
def squaring : Design .mersenne31 :=
  .ofList [(.entry, ⟨1, 1, [.call 1 [.wire 1] [2]], [], [.wire 2]⟩),
    (1, ⟨1, 0, [.product (.wire 1) (.wire 1) 2], [.wire 2], [.wire 2]⟩)]

theorem squaring_validate_eq_ok_iff_lawful :
    (∀ c ∈ squaring.circuits.values, c.Numbered) ∧ (∀ c ∈ squaring.circuits.values, c.numInputs + 1 < 2 ^ 64) ∧
      squaring.validate = .ok () ∧ squaring.Lawful :=
  ⟨by decide, by decide, by decide, (validate_eq_ok_iff_lawful (by decide) (by decide)).mp (by decide)⟩

/-- A design whose entry returns the constant one and has as many inputs as a machine word can count. -/
def crowded : Design .mersenne31 := .ofList [(.entry, ⟨2 ^ 64 - 1, 0, [], [], [.wire .one]⟩)]

/-- The number of wires before the first instruction wraps to zero, so that the constant one is missing. -/
theorem crowded_rejected :
    crowded.Lawful ∧ crowded.validate = .error ⟨.entry, .output 0, .undefinedWire .one⟩ := by
  have only {id : CircuitId} {c : Circuit .mersenne31} (found : crowded.get? id = some c) :
      c = ⟨2 ^ 64 - 1, 0, [], [], [.wire .one]⟩ := by
    have listed : (id, c) ∈ [(0, ⟨2 ^ 64 - 1, 0, [], [], [.wire .one]⟩)] := Table.get?_eq_some_iff.mp found
    exact (Prod.mk.inj (List.mem_singleton.mp listed)).2
  refine ⟨⟨⟨_, rfl⟩, fun id c found => ?_, ?_⟩, by decide⟩
  · cases only found
    refine ⟨Nat.zero_le _, List.forall_mem_singleton.mpr (LinearForm.canonical_term 1 _), ?_, rfl, nofun,
      List.forall_mem_singleton.mpr (LinearForm.reads_wire (by decide)), nofun⟩
    intro before i after split
    simp at split
  · refine not_transGen_of_wellFounded ⟨fun id => ⟨_, fun callee calls => ?_⟩⟩
    obtain ⟨c, found, inputs, outputs, member⟩ := calls
    cases only found
    cases member

end Design
end ArithCircuit
