import ArithCircuit.Builder.State
import ArithCircuit.Proofs.Circuit.Satisfaction

/-!
What a recording step means. A builder stands for the assignments that satisfy what it has recorded.
A step takes a builder to one with more wires and more demands on them; its meaning is a relation
between the values of the wires before it and the value of its result. The relation is exact: every
assignment that satisfies the new builder shows a related value, and every related value is shown by
one that leaves the earlier wires as they were. The latter asks that new wires are new: wire numbers
have four bytes, and once they are used up the next wires have the numbers of earlier ones.
-/
namespace ArithCircuit
variable {F : ScalarField}

namespace Builder

/-! ### New wires -/

/-- The wires given out after a number of wires. -/
def freshWires (next count : Nat) : List Wire := (List.range' next count).map Wire.wrap

@[simp] theorem length_freshWires (next count : Nat) : (freshWires next count).length = count := by
  rw [freshWires, List.length_map, List.length_range']

theorem freshWires_succ (next count : Nat) :
    freshWires next (count + 1) = Wire.wrap next :: freshWires (next + 1) count := rfl

theorem wrap_lt_succ (next : Nat) : Wire.wrap next < next + 1 := Nat.lt_succ_of_le (Nat.mod_le ..)

theorem wrap_of_lt {next : Nat} (room : next < 2 ^ 32) : Wire.wrap next = next := Nat.mod_eq_of_lt room

theorem lt_of_mem_freshWires {next count : Nat} {w : Wire} (member : w ∈ freshWires next count) :
    w < next + count ∧ w < 2 ^ 32 := by
  obtain ⟨position, inside, rfl⟩ := List.mem_map.mp member
  exact ⟨(Nat.mod_le ..).trans_lt (List.mem_range'_1.mp inside).2, Nat.mod_lt _ (by decide)⟩

/-- As long as there are numbers left, new wires are numbered in order. -/
theorem freshWires_eq_range' {next count : Nat} (room : next + count ≤ 2 ^ 32) :
    freshWires next count = List.range' next count := by
  refine (List.map_congr_left fun position inside => ?_).trans (List.map_id _)
  exact wrap_of_lt ((List.mem_range'_1.mp inside).2.trans_le room)

theorem newWires_eq (count : Nat) (b : Builder F) :
    newWires count b = .ok (freshWires b.nextWire count) { b with nextWire := b.nextWire + count } := by
  induction count generalizing b with
  | zero => rfl
  | succ count ih =>
    have next : newWire b = .ok (.wrap b.nextWire) { b with nextWire := b.nextWire + 1 } := rfl
    refine run_bind_eq_ok.mpr ⟨_, _, next, run_bind_eq_ok.mpr ⟨_, _, ih _, ?_⟩⟩
    rw [freshWires_succ, Nat.add_comm count 1, ← Nat.add_assoc]
    rfl

/-! ### Satisfaction -/

/-- An assignment satisfies all that is recorded. -/
structure Satisfied (W : World F) (b : Builder F) (w : Wire → Scalar F) : Prop where
  possible : b.unsatisfiable = none
  one : w Wire.one = 1
  instructions : ∀ i ∈ b.instructions.toList, i.Holds W w
  constraints : ∀ e ∈ b.constraints.toList, e.eval w = 0

/-- What recording keeps: wires are counted and numbered, only wires that were given out are read, hints are
    builtin, calls go to circuits that are defined, and the forms noted as boolean are. -/
structure Good (W : World F) (b : Builder F) : Prop where
  few : b.numInputs + 1 < 2 ^ 32
  count : b.nextWire = b.circuit.wireCount
  numbered : b.circuit.Numbered
  inScope : ∀ i ∈ b.instructions.toList, i.Scoped b.nextWire
  constraints : ∀ e ∈ b.constraints.toList, e.Reads b.nextWire
  outputs : ∀ e ∈ b.outputs.toList, e.Reads b.nextWire
  booleans : ∀ e ∈ b.booleans, e.Reads b.nextWire ∧ ∀ w, b.Satisfied W w → e.eval w = 0 ∨ e.eval w = 1
  hints : ∀ i ∈ b.instructions.toList, ∀ name, i.hintName? = some name → ∃ hint : BuiltinHint, hint.name = name
  calls : ∀ i ∈ b.instructions.toList, ∀ id, i.callee? = some id → ∃ c, b.subCircuits.get? id = some c

theorem Good.inputs {W : World F} {b : Builder F} (good : b.Good W) : b.numInputs < b.nextWire := by
  rw [good.count, Circuit.wireCount_eq]
  exact Nat.lt_add_right _ (Nat.lt_succ_self b.numInputs)

theorem Good.positive {W : World F} {b : Builder F} (good : b.Good W) : 0 < b.nextWire :=
  Nat.zero_lt_of_lt good.inputs

/-- Satisfaction depends on the wires that were given out alone. -/
theorem Satisfied.congr {W : World F} {b : Builder F} {w w' : Wire → Scalar F} (satisfied : b.Satisfied W w)
    (good : b.Good W) (agree : LinearForm.Agree b.nextWire w w') : b.Satisfied W w' where
  possible := satisfied.possible
  one := (agree Wire.one good.positive).symm.trans satisfied.one
  instructions i member := ((good.inScope i member).holds_congr agree).mp (satisfied.instructions i member)
  constraints e member := (LinearForm.eval_congr (good.constraints e member) agree).symm.trans (satisfied.constraints e member)

/-- One builder comes from another by recording: it keeps what is recorded and adds to it. -/
structure Grown (W : World F) (b b' : Builder F) : Prop where
  good : b'.Good W
  numInputs : b'.numInputs = b.numInputs
  nextWire : b.nextWire ≤ b'.nextWire
  instructions : b.instructions.toList ⊆ b'.instructions.toList
  constraints : b.constraints.toList ⊆ b'.constraints.toList
  possible : b'.unsatisfiable = none → b.unsatisfiable = none

/-- One builder comes from another by recording arithmetic, which leaves definitions and outputs alone. -/
structure Recorded (W : World F) (b b' : Builder F) : Prop extends Grown W b b' where
  subCircuits : b'.subCircuits = b.subCircuits
  outputs : b'.outputs = b.outputs

section
variable {W : World F} {b₀ b₁ b₂ : Builder F}

theorem Grown.refl (good : b₀.Good W) : Grown W b₀ b₀ :=
  ⟨good, rfl, le_rfl, List.Subset.refl _, List.Subset.refl _, id⟩

theorem Grown.trans (first : Grown W b₀ b₁) (second : Grown W b₁ b₂) : Grown W b₀ b₂ where
  good := second.good
  numInputs := second.numInputs.trans first.numInputs
  nextWire := first.nextWire.trans second.nextWire
  instructions := List.Subset.trans first.instructions second.instructions
  constraints := List.Subset.trans first.constraints second.constraints
  possible none := first.possible (second.possible none)

/-- What satisfies the later builder satisfies the earlier one. -/
theorem Grown.satisfied (grown : Grown W b₀ b₁) {w : Wire → Scalar F} (satisfied : b₁.Satisfied W w) :
    b₀.Satisfied W w :=
  ⟨grown.possible satisfied.possible, satisfied.one,
    fun i member => satisfied.instructions i (grown.instructions member),
    fun e member => satisfied.constraints e (grown.constraints member)⟩

/-- What a builder shows and which circuits it knows do not matter to what satisfies it. -/
theorem satisfied_listing_iff {outputs : Array (LinearForm F)} {subs : SubCircuits F} {w : Wire → Scalar F} :
    Satisfied W { b₀ with outputs := outputs, subCircuits := subs } w ↔ b₀.Satisfied W w := by
  constructor
  · intro after
    exact ⟨after.possible, after.one, after.instructions, after.constraints⟩
  · intro before
    exact ⟨before.possible, before.one, before.instructions, before.constraints⟩

/-- A builder may show other forms that read its wires, and know other circuits in place of those it calls. -/
theorem Grown.listing (good : b₀.Good W) {outputs : Array (LinearForm F)} {subs : SubCircuits F}
    (reads : ∀ e ∈ outputs.toList, e.Reads b₀.nextWire)
    (calls : ∀ i ∈ b₀.instructions.toList, ∀ id, i.callee? = some id → ∃ c, subs.get? id = some c) :
    Grown W b₀ { b₀ with outputs := outputs, subCircuits := subs } where
  good := {
    few := good.few
    count := good.count
    numbered := good.numbered
    inScope := good.inScope
    constraints := good.constraints
    outputs := reads
    booleans e member := by
      obtain ⟨inside, boolean⟩ := good.booleans e member
      exact ⟨inside, fun w satisfied => boolean w (satisfied_listing_iff.mp satisfied)⟩
    hints := good.hints
    calls := calls }
  numInputs := rfl
  nextWire := le_rfl
  instructions := List.Subset.refl _
  constraints := List.Subset.refl _
  possible := id

theorem Recorded.refl (good : b₀.Good W) : Recorded W b₀ b₀ := ⟨.refl good, rfl, rfl⟩

theorem Recorded.trans (first : Recorded W b₀ b₁) (second : Recorded W b₁ b₂) : Recorded W b₀ b₂ :=
  ⟨first.toGrown.trans second.toGrown, second.subCircuits.trans first.subCircuits, second.outputs.trans first.outputs⟩

end

/-- From an assignment that satisfies the first builder, those that satisfy the second and agree on the
    earlier wires show exactly the values in `R`, if all wires have numbers of their own; otherwise they show
    no other values. -/
structure Gives {β : Type} (W : World F) (b b' : Builder F) (w : Wire → Scalar F) (R : β → Prop)
    (value : (Wire → Scalar F) → β) : Prop where
  sound : ∀ w', LinearForm.Agree b.nextWire w w' → b'.Satisfied W w' → R (value w')
  complete : b'.nextWire ≤ 2 ^ 32 → ∀ y, R y →
    ∃ w', LinearForm.Agree b.nextWire w w' ∧ b'.Satisfied W w' ∧ value w' = y

end Builder

/-- Results of recording steps, which have values once wires have values. -/
class Readout (F : ScalarField) (α : Type) (β : outParam Type) where
  value : α → (Wire → Scalar F) → β
  /-- The result reads only the first wires. -/
  Reads : Nat → α → Prop
  value_congr : ∀ {n : Nat} {a : α} {w w' : Wire → Scalar F}, Reads n a → LinearForm.Agree n w w' → value a w = value a w'
  reads_mono : ∀ {m n : Nat} {a : α}, m ≤ n → Reads m a → Reads n a

instance : Readout F Unit Unit where
  value _ _ := ()
  Reads _ _ := True
  value_congr _ _ := rfl
  reads_mono _ _ := trivial

instance : Readout F (LinearForm F) (Scalar F) where
  value e w := e.eval w
  Reads n e := e.Reads n
  value_congr reads agree := LinearForm.eval_congr reads agree
  reads_mono le reads := LinearForm.reads_mono le reads

instance : Readout F (List (LinearForm F)) (List (Scalar F)) where
  value es w := es.map (·.eval w)
  Reads n es := ∀ e ∈ es, e.Reads n
  value_congr reads agree := List.map_congr_left fun e member => LinearForm.eval_congr (reads e member) agree
  reads_mono le reads e member := LinearForm.reads_mono le (reads e member)

@[simp] theorem Readout.value_form (e : LinearForm F) (w : Wire → Scalar F) : Readout.value e w = e.eval w := rfl

@[simp] theorem Readout.value_forms (es : List (LinearForm F)) (w : Wire → Scalar F) :
    Readout.value es w = es.map (·.eval w) := rfl

namespace Builder
variable {α β γ δ : Type} [Readout F α β] [Readout F γ δ] {W : World F} {b : Builder F}

/-- Where a step succeeds, it records what makes its result show exactly the values that `R` relates to
    the wires before it. -/
def Performs (W : World F) (b : Builder F) (step : Build F α) (R : (Wire → Scalar F) → β → Prop) : Prop :=
  ∀ (a : α) (b' : Builder F), step b = .ok a b' → Recorded W b b' ∧ Readout.Reads F b'.nextWire a ∧
    ∀ {w : Wire → Scalar F}, b.Satisfied W w → Gives W b b' w (R w) (Readout.value a)

theorem bind_eq_ok {step : Build F α} {next : α → Build F γ} {c : γ} {b b' : Builder F} :
    (step >>= next) b = .ok c b' ↔ ∃ a b₁, step b = .ok a b₁ ∧ next a b₁ = .ok c b' :=
  run_bind_eq_ok

namespace Performs

theorem congr {step : Build F α} {R S : (Wire → Scalar F) → β → Prop} (performs : Performs W b step R)
    (same : ∀ {w y}, b.Satisfied W w → (R w y ↔ S w y)) : Performs W b step S := by
  intro a b' done
  obtain ⟨recorded, reads, gives⟩ := performs a b' done
  refine ⟨recorded, reads, fun satisfied => ⟨fun w' agree later => ?_, fun room y related => ?_⟩⟩
  · exact (same satisfied).mp ((gives satisfied).sound w' agree later)
  · exact (gives satisfied).complete room y ((same satisfied).mpr related)

/-- A result that is there already. -/
theorem pure (good : b.Good W) {a : α} (reads : Readout.Reads F b.nextWire a) :
    Performs W b (Pure.pure a) fun w y => y = Readout.value a w := by
  rintro _ _ ⟨⟩
  refine ⟨.refl good, reads, fun {w} satisfied => ⟨fun w' agree _ => ?_, fun _ y same => ?_⟩⟩
  · exact (Readout.value_congr reads agree).symm
  · exact ⟨w, fun _ _ => rfl, satisfied, same.symm⟩

theorem form (good : b.Good W) {e : LinearForm F} (reads : e.Reads b.nextWire) :
    Performs W b (Pure.pure e) fun w z => z = e.eval w :=
  pure good reads

theorem done (good : b.Good W) : Performs W b (Pure.pure ()) fun _ _ => True :=
  (pure (a := ()) good trivial).congr (by simp)

/-- A step that fails performs anything. -/
theorem failed {step : Build F α} (R : (Wire → Scalar F) → β → Prop) (fails : ∀ a b', step b ≠ .ok a b') :
    Performs W b step R :=
  fun a b' succeeded => absurd succeeded (fails a b')

/-- One step after another. What the second relates is stated over the wires before the first. -/
theorem bind {step : Build F α} {next : α → Build F γ} {R : (Wire → Scalar F) → β → Prop}
    {S : (Wire → Scalar F) → β → δ → Prop} (first : Performs W b step R)
    (second : ∀ a b₁, Recorded W b b₁ → Readout.Reads F b₁.nextWire a →
      (∀ w, b₁.Satisfied W w → R w (Readout.value a w)) → Performs W b₁ (next a) fun w z => S w (Readout.value a w) z)
    (early : ∀ {w w' y z}, LinearForm.Agree b.nextWire w w' → S w y z → S w' y z) :
    Performs W b (step >>= next) fun w z => ∃ y, R w y ∧ S w y z := by
  intro c b' done
  obtain ⟨a, b₁, stepped, continued⟩ := bind_eq_ok.mp done
  obtain ⟨recorded, reads, gives⟩ := first a b₁ stepped
  have shown (w : Wire → Scalar F) (later : b₁.Satisfied W w) : R w (Readout.value a w) :=
    (gives (recorded.satisfied later)).sound w (fun _ _ => rfl) later
  obtain ⟨recorded', reads', gives'⟩ := second a b₁ recorded reads shown c b' continued
  refine ⟨recorded.trans recorded', reads', fun {w} satisfied => ⟨fun w' agree later => ?_, ?_⟩⟩
  · have middle := recorded'.satisfied later
    have related := (gives' middle).sound w' (fun _ _ => rfl) later
    exact ⟨_, (gives satisfied).sound w' agree middle, early (fun v below => (agree v below).symm) related⟩
  · rintro room z ⟨y, left, right⟩
    obtain ⟨w₁, agree, middle, rfl⟩ := (gives satisfied).complete (recorded'.nextWire.trans room) y left
    obtain ⟨w₂, agree', later, shown⟩ := (gives' middle).complete room z (early agree right)
    exact ⟨w₂, fun v below => (agree v below).trans (agree' v (below.trans_le recorded.nextWire)), later, shown⟩

/-- A step that only demands something of the wires, before another. -/
theorem demand {step : Build F Unit} {next : Build F γ} {P : (Wire → Scalar F) → Prop}
    {S : (Wire → Scalar F) → δ → Prop} (first : Performs W b step fun w (_ : Unit) => P w)
    (second : ∀ b₁, Recorded W b b₁ → (∀ w, b₁.Satisfied W w → P w) → Performs W b₁ next S)
    (early : ∀ {w w' z}, LinearForm.Agree b.nextWire w w' → S w z → S w' z) :
    Performs W b (step >>= fun _ => next) fun w z => P w ∧ S w z :=
  (bind (S := fun w _ z => S w z) first (fun _ b₁ recorded _ shown => second b₁ recorded shown) early).congr (by simp)

end Performs

/-! ### Recording one thing -/

/-- A builder with an instruction that defines its next wires. -/
def extend (b : Builder F) (i : Instruction F) (count : Nat) : Builder F :=
  { b with nextWire := b.nextWire + count, instructions := b.instructions.push i }

/-- An assignment with new values for the wires from `n` on. -/
def overlay (n : Nat) (w : Wire → Scalar F) (ys : List (Scalar F)) : Wire → Scalar F := fun v =>
  if v < n then w v else ys.getD (v - n) 0

theorem agree_overlay (n : Nat) (w : Wire → Scalar F) (ys : List (Scalar F)) :
    LinearForm.Agree n w (overlay n w ys) := by
  intro v below
  rw [overlay, if_pos below]

theorem map_overlay (n : Nat) (w : Wire → Scalar F) (ys : List (Scalar F)) :
    (List.range' n ys.length).map (overlay n w ys) = ys := by
  refine List.ext_getElem (by simp) fun i left right => ?_
  simp [overlay, List.getElem?_eq_getElem right]

theorem wireCount_extend (b : Builder F) {i : Instruction F} {count : Nat} (length : i.outputs.length = count) :
    (b.extend i count).circuit.wireCount = b.circuit.wireCount + count := by
  have listed : (b.extend i count).circuit.instructions = b.circuit.instructions ++ [i] := Array.toList_push
  have inputs : (b.extend i count).circuit.numInputs = b.circuit.numInputs := rfl
  rw [Circuit.wireCount, Circuit.wireCount, listed, inputs, sumOver_append, sumOver_cons, sumOver_nil, length]
  exact (Nat.add_assoc ..).symm

/-- A new instruction gives its wires what it produces. -/
theorem extend_spec (good : b.Good W) {i : Instruction F} {count : Nat}
    (outputs : i.outputs = freshWires b.nextWire count) (inputs : ∀ e ∈ i.inputs, e.Reads b.nextWire)
    (hints : ∀ name, i.hintName? = some name → ∃ hint : BuiltinHint, hint.name = name)
    (calls : ∀ id, i.callee? = some id → ∃ c, b.subCircuits.get? id = some c) :
    Recorded W b (b.extend i count) ∧ ∀ {w : Wire → Scalar F}, b.Satisfied W w →
      Gives W b (b.extend i count) w (fun ys => ys.length = count ∧ i.Produces W w ys) fun w' => i.outputs.map w' := by
  have later : b.nextWire ≤ b.nextWire + count := Nat.le_add_right ..
  have listed {j : Instruction F} : j ∈ (b.extend i count).instructions.toList ↔
      j ∈ b.instructions.toList ∨ j = i := by
    rw [extend, Array.toList_push, List.mem_append, List.mem_singleton]
  have earlier {w : Wire → Scalar F} (satisfied : (b.extend i count).Satisfied W w) : b.Satisfied W w :=
    ⟨satisfied.possible, satisfied.one, fun j member => satisfied.instructions j (listed.mpr (.inl member)),
      satisfied.constraints⟩
  have inScope : i.Scoped (b.nextWire + count) := by
    refine ⟨fun e member => LinearForm.reads_mono later (inputs e member), fun out member => ?_⟩
    rw [outputs] at member
    exact (lt_of_mem_freshWires member).1
  refine ⟨⟨⟨⟨good.few, ?_, ?_, ?_, ?_, ?_, ?_, ?_, ?_⟩, rfl, later, ?_, List.Subset.refl _, id⟩, rfl, rfl⟩, ?_⟩
  · exact (congrArg (· + count) good.count).trans (wireCount_extend b (by rw [outputs, length_freshWires])).symm
  · intro out member
    obtain ⟨j, present, given⟩ := List.mem_flatMap.mp member
    rcases listed.mp present with old | rfl
    · exact good.numbered out (List.mem_flatMap.mpr ⟨j, old, given⟩)
    · rw [outputs] at given
      exact (lt_of_mem_freshWires given).2
  · intro j member
    rcases listed.mp member with old | rfl
    · exact (good.inScope j old).mono later
    · exact inScope
  · exact fun e member => LinearForm.reads_mono later (good.constraints e member)
  · exact fun e member => LinearForm.reads_mono later (good.outputs e member)
  · intro e member
    obtain ⟨reads, boolean⟩ := good.booleans e member
    exact ⟨LinearForm.reads_mono later reads, fun w satisfied => boolean w (earlier satisfied)⟩
  · intro j member
    rcases listed.mp member with old | rfl
    · exact good.hints j old
    · exact hints
  · intro j member
    rcases listed.mp member with old | rfl
    · exact good.calls j old
    · exact calls
  · exact fun j member => listed.mpr (.inl member)
  · intro w satisfied
    constructor
    · intro w' agree after
      refine ⟨by rw [List.length_map, outputs, length_freshWires], ?_⟩
      exact (Instruction.produces_congr inputs agree).mpr (after.instructions i (listed.mpr (.inr rfl)))
    · rintro room ys ⟨length, produces⟩
      have agree := agree_overlay b.nextWire w ys
      have shown : i.outputs.map (overlay b.nextWire w ys) = ys := by
        rw [outputs, freshWires_eq_range' room, ← length, map_overlay]
      have before := satisfied.congr good agree
      refine ⟨overlay b.nextWire w ys, agree, ⟨before.possible, before.one, fun j member => ?_, before.constraints⟩, shown⟩
      rcases listed.mp member with old | rfl
      · exact before.instructions j old
      · rw [Instruction.Holds, shown]
        exact (Instruction.produces_congr inputs agree).mp produces

/-- Recording an instruction of one output. -/
theorem performs_wire (good : b.Good W) (mk : Wire → Instruction F) (outputs : ∀ out, (mk out).outputs = [out])
    (inputs : ∀ e ∈ (mk (.wrap b.nextWire)).inputs, e.Reads b.nextWire)
    (hints : ∀ name, (mk (.wrap b.nextWire)).hintName? = some name → ∃ hint : BuiltinHint, hint.name = name)
    (calls : (mk (.wrap b.nextWire)).callee? = none) :
    Performs W b (do
      let out ← newWire
      recordInstruction (mk out)
      return (LinearForm.wire out : LinearForm F)) fun w z => (mk (.wrap b.nextWire)).Produces W w [z] := by
  rintro _ _ ⟨⟩
  have fresh : (mk (.wrap b.nextWire)).outputs = freshWires b.nextWire 1 := outputs _
  obtain ⟨recorded, gives⟩ := extend_spec (W := W) good fresh inputs hints (by simp [calls])
  refine ⟨recorded, LinearForm.reads_wire (wrap_lt_succ _), fun {w} satisfied => ⟨fun w' agree later => ?_, ?_⟩⟩
  · have produced := ((gives satisfied).sound w' agree later).2
    rw [outputs, List.map_singleton] at produced
    rwa [Readout.value_form, LinearForm.eval_wire]
  · intro room z produces
    obtain ⟨w', agree, later, shown⟩ := (gives satisfied).complete room [z] ⟨rfl, produces⟩
    rw [outputs, List.map_singleton, List.singleton_inj] at shown
    exact ⟨w', agree, later, (LinearForm.eval_wire _ w').trans shown⟩

/-- Recording an instruction of several outputs. -/
theorem performs_wires (good : b.Good W) (mk : List Wire → Instruction F) (outputs : ∀ outs, (mk outs).outputs = outs)
    (count : Nat) (inputs : ∀ outs, ∀ e ∈ (mk outs).inputs, e.Reads b.nextWire)
    (hints : ∀ outs name, (mk outs).hintName? = some name → ∃ hint : BuiltinHint, hint.name = name)
    (calls : ∀ outs id, (mk outs).callee? = some id → ∃ c, b.subCircuits.get? id = some c) :
    Performs W b (do
      let outs ← newWires count
      recordInstruction (mk outs)
      return (outs.map LinearForm.wire : List (LinearForm F)))
      fun w ys => ys.length = count ∧ (mk (freshWires b.nextWire count)).Produces W w ys := by
  intro es b' done
  obtain ⟨outs, b₁, given, recorded⟩ := bind_eq_ok.mp done
  cases (newWires_eq count b).symm.trans given
  cases recorded
  obtain ⟨recorded, gives⟩ := extend_spec good (outputs _) (inputs _) (hints _) (calls _)
  have value (w' : Wire → Scalar F) : ((freshWires b.nextWire count).map LinearForm.wire).map (·.eval w') =
      (mk (freshWires b.nextWire count)).outputs.map w' := by
    rw [outputs]
    simp
  refine ⟨recorded, ?_, fun {w} satisfied => ⟨fun w' agree later => ?_, fun room ys produces => ?_⟩⟩
  · refine List.forall_mem_map.mpr fun out member => LinearForm.reads_wire ?_
    exact (lt_of_mem_freshWires member).1
  · rw [Readout.value_forms, value]
    exact (gives satisfied).sound w' agree later
  · obtain ⟨w', agree, later, shown⟩ := (gives satisfied).complete room ys produces
    exact ⟨w', agree, later, (value w').trans shown⟩

/-- Recording a constraint demands that its form vanish. -/
theorem recordConstraint_performs (good : b.Good W) {e : LinearForm F} (reads : e.Reads b.nextWire) :
    Performs W b (recordConstraint e) fun w (_ : Unit) => e.eval w = 0 := by
  rintro _ _ ⟨⟩
  have listed {d : LinearForm F} : d ∈ (b.constraints.push e).toList ↔ d ∈ b.constraints.toList ∨ d = e := by
    rw [Array.toList_push, List.mem_append, List.mem_singleton]
  have earlier {w : Wire → Scalar F} (satisfied : Satisfied W { b with constraints := b.constraints.push e } w) :
      b.Satisfied W w :=
    ⟨satisfied.possible, satisfied.one, satisfied.instructions,
      fun d member => satisfied.constraints d (listed.mpr (.inl member))⟩
  refine ⟨⟨⟨⟨good.few, good.count, good.numbered, good.inScope, ?_, good.outputs, ?_, good.hints, good.calls⟩, rfl, le_rfl,
    List.Subset.refl _, fun d member => listed.mpr (.inl member), id⟩, rfl, rfl⟩, trivial, fun {w} satisfied => ⟨?_, ?_⟩⟩
  · intro d member
    rcases listed.mp member with old | rfl
    · exact good.constraints d old
    · exact reads
  · intro d member
    obtain ⟨reads, boolean⟩ := good.booleans d member
    exact ⟨reads, fun w satisfied => boolean w (earlier satisfied)⟩
  · intro w' agree later
    exact (LinearForm.eval_congr reads agree).trans (later.constraints e (listed.mpr (.inr rfl)))
  · intro _ _ zero
    refine ⟨w, fun _ _ => rfl, ⟨satisfied.possible, satisfied.one, satisfied.instructions, fun d member => ?_⟩, rfl⟩
    rcases listed.mp member with old | rfl
    · exact satisfied.constraints d old
    · exact zero

/-- A rejected builder is satisfied by nothing. -/
theorem reject_performs (good : b.Good W) (assertion : Assertion) (value : Scalar F) :
    Performs W b (reject assertion value) fun _ (_ : Unit) => False := by
  rintro _ _ ⟨⟩
  have impossible {e : BuildError} {w : Wire → Scalar F} :
      ¬ Satisfied W { b with unsatisfiable := b.unsatisfiable.or (some e) } w := by
    intro satisfied
    simpa using satisfied.possible
  refine ⟨⟨⟨⟨good.few, good.count, good.numbered, good.inScope, good.constraints, good.outputs, fun e member => ?_,
      good.hints, good.calls⟩,
    rfl, le_rfl, List.Subset.refl _, List.Subset.refl _, fun none => ?_⟩, rfl, rfl⟩, trivial, fun _ => ⟨?_, ?_⟩⟩
  · exact ⟨(good.booleans e member).1, fun w satisfied => absurd satisfied impossible⟩
  · exact absurd none (by simp)
  · exact fun w' _ later => impossible later
  · exact fun _ _ related => related.elim

/-- A builder with another form noted as boolean. -/
def note (b : Builder F) (e : LinearForm F) : Builder F := { b with booleans := b.booleans.insert e }

theorem satisfied_note_iff {e : LinearForm F} {w : Wire → Scalar F} : (b.note e).Satisfied W w ↔ b.Satisfied W w := by
  constructor
  · exact fun satisfied => ⟨satisfied.possible, satisfied.one, satisfied.instructions, satisfied.constraints⟩
  · exact fun satisfied => ⟨satisfied.possible, satisfied.one, satisfied.instructions, satisfied.constraints⟩

/-- A form may be noted as boolean where it is. -/
theorem note_recorded (good : b.Good W) {e : LinearForm F} (reads : e.Reads b.nextWire)
    (boolean : ∀ w, b.Satisfied W w → e.eval w = 0 ∨ e.eval w = 1) : Recorded W b (b.note e) := by
  have same {w : Wire → Scalar F} (satisfied : (b.note e).Satisfied W w) : b.Satisfied W w :=
    satisfied_note_iff.mp satisfied
  refine ⟨⟨⟨good.few, good.count, good.numbered, good.inScope, good.constraints, good.outputs, fun d member => ?_,
      good.hints, good.calls⟩,
    rfl, le_rfl, List.Subset.refl _, List.Subset.refl _, id⟩, rfl, rfl⟩
  rcases Std.TreeSet.mem_insert.mp member with rank | old
  · obtain rfl : e = d := Std.LawfulEqCmp.eq_of_compare rank
    exact ⟨reads, fun w satisfied => boolean w (same satisfied)⟩
  · obtain ⟨reads, boolean⟩ := good.booleans d old
    exact ⟨reads, fun w satisfied => boolean w (same satisfied)⟩

/-- What makes a form boolean may be followed by a note of it. -/
theorem Gives.note {b₁ : Builder F} {w : Wire → Scalar F} {R : β → Prop} {value : (Wire → Scalar F) → β}
    (gives : Gives W b b₁ w R value) (e : LinearForm F) : Gives W b (b₁.note e) w R value := by
  constructor
  · exact fun w' agree later => gives.sound w' agree (satisfied_note_iff.mp later)
  · intro room y related
    obtain ⟨w', agree, later, shown⟩ := gives.complete room y related
    exact ⟨w', agree, satisfied_note_iff.mpr later, shown⟩

end Builder
end ArithCircuit
