import ArithCircuit.Proofs.Gadget.Word
import ArithCircuit.Proofs.Script.Completeness
import ArithCircuit.Proofs.Script.Runs

/-!
Splitting into bits, and sums of words, judged by what they add to a builder. The values of the earlier
wires are free, and what the builder holds already need not be satisfied. A hint may give its wires
anything; as long as these wires have new numbers, none of them is known to be a bit, so each is constrained
to be one, and only one choice of bits makes up the value. Once the numbers of wires are used up, a bit may
stand on an earlier wire, and then no choice may be left.
-/
namespace ArithCircuit
variable {F : ScalarField}

namespace Builder

/-! ### Additions -/

/-- What a step adds to a builder. An assertion between constants that never holds adds no constraint, but
    is noted. -/
structure Addition (F : ScalarField) where
  instructions : List (Instruction F)
  constraints : List (LinearForm F)
  rejected : Option BuildError

namespace Addition

/-- An assignment keeps all that was added. -/
structure Satisfied (W : World F) (added : Addition F) (w : Wire → Scalar F) : Prop where
  possible : added.rejected = none
  instructions : ∀ i ∈ added.instructions, i.Holds W w
  constraints : ∀ e ∈ added.constraints, e.eval w = 0

instance : Append (Addition F) where
  append first second := ⟨first.instructions ++ second.instructions, first.constraints ++ second.constraints,
    first.rejected.or second.rejected⟩

theorem satisfied_append_iff {W : World F} {first second : Addition F} {w : Wire → Scalar F} :
    (first ++ second).Satisfied W w ↔ first.Satisfied W w ∧ second.Satisfied W w := by
  constructor
  · rintro ⟨possible, instructions, constraints⟩
    obtain ⟨early, late⟩ := Option.or_eq_none_iff.mp possible
    obtain ⟨holds, holds'⟩ := List.forall_mem_append.mp instructions
    obtain ⟨vanish, vanish'⟩ := List.forall_mem_append.mp constraints
    exact ⟨⟨early, holds, vanish⟩, ⟨late, holds', vanish'⟩⟩
  · rintro ⟨early, late⟩
    exact ⟨Option.or_eq_none_iff.mpr ⟨early.possible, late.possible⟩,
      List.forall_mem_append.mpr ⟨early.instructions, late.instructions⟩,
      List.forall_mem_append.mpr ⟨early.constraints, late.constraints⟩⟩

end Addition

/-- One builder is another with an addition. -/
structure Adds (b : Builder F) (added : Addition F) (b' : Builder F) : Prop where
  instructions : b'.instructions.toList = b.instructions.toList ++ added.instructions
  constraints : b'.constraints.toList = b.constraints.toList ++ added.constraints
  unsatisfiable : b'.unsatisfiable = b.unsatisfiable.or added.rejected

theorem Adds.trans {b b₁ b₂ : Builder F} {first second : Addition F} (early : b.Adds first b₁) (late : b₁.Adds second b₂) :
    b.Adds (first ++ second) b₂ where
  instructions := by
    rw [late.instructions, early.instructions, List.append_assoc]
    rfl
  constraints := by
    rw [late.constraints, early.constraints, List.append_assoc]
    rfl
  unsatisfiable := by
    rw [late.unsatisfiable, early.unsatisfiable, Option.or_assoc]
    rfl

variable {b : Builder F}

/-! ### Bits -/

/-- What it takes to assert that wires are bits, with products from wire `first` on. -/
def bitChecks (first : Wire) : List Wire → Addition F
  | [] => ⟨[], [], none⟩
  | v :: rest => ⟨[.product (.wire v) (.wire v - .constant 1) first], [.wire first], none⟩ ++ bitChecks (first + 1) rest

/-- A wire that is not known to be a bit is asserted to be one. -/
theorem assertBoolean_wire {v : Wire} (other : v ≠ Wire.one) (unknown : LinearForm.wire v ∉ b.booleans)
    (room : b.nextWire < 2 ^ 32) :
    ∃ b', assertBoolean (.wire v) b = .ok () b' ∧ b'.nextWire = b.nextWire + 1 ∧
      b'.booleans = b.booleans.insert (.wire v) ∧
      b.Adds ⟨[.product (.wire v) (.wire v - .constant 1) b.nextWire], [.wire b.nextWire], none⟩ b' := by
  have noted : noteBoolean (.wire v) b = .ok false (b.note (.wire v)) := by
    have absent : b.booleans.contains (.wire v) = false := eq_false_of_ne_true unknown
    rw [← absent]
    rfl
  rw [assertBoolean, LinearForm.constant?_wire other, ← wrap_of_lt room]
  refine ⟨_, run_bind_eq_ok.mpr ⟨_, _, noted, rfl⟩, by rw [wrap_of_lt room]; rfl, rfl, ?_⟩
  exact ⟨Array.toList_push, Array.toList_push, (Option.or_none).symm⟩

theorem assertAllBoolean_wires {vs : List Wire} (others : Wire.one ∉ vs) (distinct : vs.Nodup)
    (unknown : ∀ v ∈ vs, LinearForm.wire v ∉ b.booleans) (room : b.nextWire + vs.length ≤ 2 ^ 32) :
    ∃ b', assertAllBoolean (vs.map .wire) b = .ok () b' ∧ b.Adds (bitChecks b.nextWire vs) b' := by
  induction vs generalizing b with
  | nil => exact ⟨b, rfl, (List.append_nil _).symm, (List.append_nil _).symm, (Option.or_none).symm⟩
  | cons v rest ih =>
    obtain ⟨first, later⟩ := List.forall_mem_cons.mp unknown
    obtain ⟨different, distinct⟩ := List.nodup_cons.mp distinct
    obtain ⟨other, others⟩ := not_or.mp (fun either => others (List.mem_cons.mpr either))
    rw [List.length_cons] at room
    obtain ⟨b₁, asserted, wires, noted, early⟩ := assertBoolean_wire (Ne.symm other) first (by omega)
    have unknown : ∀ u ∈ rest, LinearForm.wire u ∉ b₁.booleans := by
      intro u member known
      rw [noted] at known
      rcases Std.TreeSet.mem_insert.mp known with rank | old
      · have same : v = u := LinearForm.wire_injective (Std.LawfulEqCmp.eq_of_compare rank)
        exact different (same ▸ member)
      · exact later u member old
    obtain ⟨b₂, done, late⟩ := ih others distinct unknown (by omega)
    rw [wires] at late
    exact ⟨b₂, run_bind_eq_ok.mpr ⟨(), b₁, asserted, done⟩, early.trans late⟩

/-- Wires that pass the checks are bits. -/
theorem boolean_of_bitChecks {W : World F} {w : Wire → Scalar F} (one : w Wire.one = 1) {first : Wire} {vs : List Wire}
    (satisfied : (bitChecks first vs).Satisfied W w) : ∀ v ∈ vs, w v = 0 ∨ w v = 1 := by
  induction vs generalizing first with
  | nil => exact List.forall_mem_nil _
  | cons v rest ih =>
    obtain ⟨own, later⟩ := Addition.satisfied_append_iff.mp satisfied
    have product : [w first] = [_] := own.instructions _ (List.mem_singleton_self _)
    have zero := own.constraints _ (List.mem_singleton_self _)
    rw [LinearForm.eval_wire] at zero
    rw [zero, LinearForm.eval_sub, LinearForm.eval_wire, LinearForm.eval_constant one, List.singleton_inj, eq_comm,
      mul_eq_zero, sub_eq_zero] at product
    exact List.forall_mem_cons.mpr ⟨product, ih later⟩

/-- Bits pass the checks, if the wires of the products are zero. -/
theorem bitChecks_satisfied (W : World F) {w : Wire → Scalar F} (one : w Wire.one = 1) {first : Wire} {vs : List Wire}
    (boolean : ∀ v ∈ vs, w v = 0 ∨ w v = 1) (zero : ∀ u, first ≤ u → w u = 0) : (bitChecks first vs).Satisfied W w := by
  induction vs generalizing first with
  | nil => exact ⟨rfl, List.forall_mem_nil _, List.forall_mem_nil _⟩
  | cons v rest ih =>
    obtain ⟨bit, others⟩ := List.forall_mem_cons.mp boolean
    refine Addition.satisfied_append_iff.mpr ⟨⟨rfl, ?_, ?_⟩, ih others fun u le => zero u (Nat.le_of_succ_le le)⟩
    · refine List.forall_mem_singleton.mpr ?_
      show [w first] = [_]
      rw [zero first le_rfl, LinearForm.eval_sub, LinearForm.eval_wire, LinearForm.eval_constant one, List.singleton_inj, eq_comm,
        mul_eq_zero, sub_eq_zero]
      exact bit
    · exact List.forall_mem_singleton.mpr ((LinearForm.eval_wire _ _).trans (zero first le_rfl))

/-! ### Splitting -/

theorem requireZero_adds (assertion : Assertion) (e : LinearForm F) (b : Builder F) :
    ∃ b' added, requireZero assertion e b = .ok () b' ∧ b.Adds added b' ∧
      ∀ W w, w Wire.one = 1 → (added.Satisfied W w ↔ e.eval w = 0) := by
  rw [requireZero]
  cases constant : e.constant? with
  | none =>
    refine ⟨_, ⟨[], [e], none⟩, rfl, ⟨(List.append_nil _).symm, Array.toList_push, Option.or_none.symm⟩, ?_⟩
    intro W w _
    constructor
    · exact fun satisfied => satisfied.constraints e (List.mem_singleton_self e)
    · exact fun zero => ⟨rfl, List.forall_mem_nil _, List.forall_mem_singleton.mpr zero⟩
  | some k =>
    have value {w : Wire → Scalar F} (one : w Wire.one = 1) : e.eval w = k := LinearForm.eval_of_constant? constant one
    dsimp only
    by_cases zero : k.isZero = true
    · rw [if_pos zero]
      refine ⟨b, ⟨[], [], none⟩, rfl, ⟨(List.append_nil _).symm, (List.append_nil _).symm, Option.or_none.symm⟩, ?_⟩
      intro W w one
      rw [value one, (Scalar.isZero_iff k).mp zero]
      exact iff_of_true ⟨rfl, List.forall_mem_nil _, List.forall_mem_nil _⟩ rfl
    · rw [if_neg zero]
      refine ⟨_, ⟨[], [], some (.unsatisfiable assertion k.val)⟩, rfl,
        ⟨(List.append_nil _).symm, (List.append_nil _).symm, rfl⟩, ?_⟩
      intro W w one
      rw [value one]
      refine iff_of_false (fun satisfied => ?_) fun same => zero ((Scalar.isZero_iff k).mpr same)
      cases satisfied.possible

/-- What splitting a form adds: the hint for its bits on the wires from `first` on, a check that each is a bit,
    and a demand. -/
def splitting (first : Wire) (e : LinearForm F) (count : Nat) (demand : Addition F) : Addition F :=
  ⟨[.hint BuiltinHint.toBinary.name [e] (List.range' first count)], [], none⟩ ++
    (bitChecks (first + count) (List.range' first count) ++ demand)

/-- The wires of the hint are new, so all of them are checked. -/
theorem toBinary_adds (wellFormed : b.WellFormed) (e : LinearForm F) {count : Nat} (few : count ≤ F.bits - 1)
    (room : b.nextWire + 2 * count ≤ 2 ^ 32) :
    ∃ b' demand, toBinary e count b = .ok ((List.range' b.nextWire count).map .wire) b' ∧
      b.Adds (splitting b.nextWire e count demand) b' ∧ ∀ W w, w Wire.one = 1 →
        (demand.Satisfied W w ↔ Scalar.ofBinary ((List.range' b.nextWire count).map w) = e.eval w) := by
  let hint : Instruction F := .hint BuiltinHint.toBinary.name [e] (List.range' b.nextWire count)
  have later : ∀ v ∈ List.range' b.nextWire count, b.nextWire ≤ v := fun v member => (List.mem_range'_1.mp member).1
  have hinted : recordHint BuiltinHint.toBinary.name [e] count b =
      .ok ((List.range' b.nextWire count).map .wire) (b.extend hint count) := by
    rw [recordHint_eq, freshWires_eq_range' (by omega)]
  have recorded : b.Adds ⟨[hint], [], none⟩ (b.extend hint count) :=
    ⟨Array.toList_push, (List.append_nil _).symm, Option.or_none.symm⟩
  have others : Wire.one ∉ List.range' b.nextWire count := fun member =>
    Nat.not_lt.mpr (later _ member) wellFormed.positive
  have unknown : ∀ v ∈ List.range' b.nextWire count, LinearForm.wire v ∉ (b.extend hint count).booleans :=
    fun v member known => Nat.not_lt.mpr (later v member) (LinearForm.lt_of_reads_wire (wellFormed.booleans _ known).reads)
  have left : (b.extend hint count).nextWire + (List.range' b.nextWire count).length ≤ 2 ^ 32 := by
    rw [List.length_range']
    show b.nextWire + count + count ≤ 2 ^ 32
    omega
  obtain ⟨b₂, asserted, checks⟩ := assertAllBoolean_wires others List.nodup_range' unknown left
  obtain ⟨b₃, demand, equal, demanded, demands⟩ :=
    requireZero_adds .equal (fromBinary ((List.range' b.nextWire count).map .wire) - e) b₂
  refine ⟨b₃, demand, ?_, recorded.trans (checks.trans demanded), ?_⟩
  · rw [toBinary, if_neg (Nat.not_lt.mpr few)]
    exact run_bind_eq_ok.mpr ⟨_, _, hinted, run_bind_eq_ok.mpr ⟨(), b₂, asserted, run_bind_eq_ok.mpr ⟨(), b₃, equal, rfl⟩⟩⟩
  · intro W w one
    rw [demands W w one, LinearForm.eval_sub, sub_eq_zero, eval_fromBinary, LinearForm.map_eval_wire]

section
variable {first : Wire} {e : LinearForm F} {count : Nat} (few : count ≤ F.bits - 1) {demand : Addition F}
  (demands : ∀ W w, w Wire.one = 1 →
    (demand.Satisfied W w ↔ Scalar.ofBinary ((List.range' first count).map w) = e.eval w))
  {W : World F} {w : Wire → Scalar F} (one : w Wire.one = 1)

include few demands one

/-- What splitting adds leaves the hint no choice. -/
theorem bits_of_splitting (satisfied : (splitting first e count demand).Satisfied W w) :
    (e.eval w).val < 2 ^ count ∧ (List.range' first count).map w = Scalar.toBinary count (e.eval w) := by
  obtain ⟨_, rest⟩ := Addition.satisfied_append_iff.mp satisfied
  obtain ⟨checks, demanded⟩ := Addition.satisfied_append_iff.mp rest
  have boolean : ∀ y ∈ (List.range' first count).map w, y = 0 ∨ y = 1 :=
    List.forall_mem_map.mpr (boolean_of_bitChecks one checks)
  exact (Scalar.ofBinary_eq_iff (by simp) few).mp ⟨boolean, (demands W w one).mp demanded⟩

/-- A value of few bits can be split, whatever the values of the earlier wires. -/
theorem exists_splitting (allows : W.rule.Allows) (positive : 0 < first)
    (earlier : ∀ w', LinearForm.Agree first w w' → e.eval w' = e.eval w) (below : (e.eval w).val < 2 ^ count) :
    ∃ w', LinearForm.Agree first w w' ∧ (List.range' first count).map w' = Scalar.toBinary count (e.eval w) ∧
      (splitting first e count demand).Satisfied W w' := by
  have length := Scalar.length_toBinary count (e.eval w)
  have agree := agree_overlay first w (Scalar.toBinary count (e.eval w))
  have bits := map_overlay first w (Scalar.toBinary count (e.eval w))
  have beyond : ∀ v, first + count ≤ v → overlay first w (Scalar.toBinary count (e.eval w)) v = 0 := by
    intro v le
    have outside : (Scalar.toBinary count (e.eval w)).length ≤ v - first := length.trans_le (Nat.le_sub_of_add_le' le)
    rw [overlay, if_neg (Nat.not_lt.mpr ((Nat.le_add_right first count).trans le)), List.getD_eq_getElem?_getD,
      List.getElem?_eq_none outside, Option.getD_none]
  rw [length] at bits
  generalize overlay first w (Scalar.toBinary count (e.eval w)) = w' at agree bits beyond
  refine ⟨w', agree, bits, ?_⟩
  have one' : w' Wire.one = 1 := (agree Wire.one positive).symm.trans one
  rw [← earlier w' agree] at below bits
  obtain ⟨boolean, total⟩ := (Scalar.ofBinary_eq_iff (by simp) few).mpr ⟨below, bits⟩
  have given : W.rule BuiltinHint.toBinary.name [e.eval w'] ((List.range' first count).map w') := by
    refine allows .toBinary [e.eval w'] _ ?_
    rw [bits, Scalar.length_toBinary, BuiltinHint.run, Hint.toBinary_eq, if_pos below]
  have hint : (Instruction.hint BuiltinHint.toBinary.name [e] (List.range' first count)).Holds W w' := given
  refine Addition.satisfied_append_iff.mpr ⟨⟨rfl, List.forall_mem_singleton.mpr hint, List.forall_mem_nil _⟩, ?_⟩
  refine Addition.satisfied_append_iff.mpr ⟨?_, (demands W w' one').mpr total⟩
  exact bitChecks_satisfied W one' (List.forall_mem_map.mp boolean) beyond

end

/-- What was added to a blank builder is all that the builder holds. -/
theorem adds_blank (numInputs numPublic : Nat) (hints : HintRegistry F) (subs : SubCircuits F) (b' : Builder F) :
    (blank numInputs numPublic hints subs).Adds ⟨b'.instructions.toList, b'.constraints.toList, b'.unsatisfiable⟩ b' :=
  ⟨rfl, rfl, rfl⟩

/-- Splitting a form into fewer bits than the field has shows the bits of the value, whatever the hint gives. As long
    as there are numbers for its wires, it leaves its hint one choice, or none where the value has more bits. The
    builtin hint gives these bits, and fails where there are more. -/
theorem Occurs.toBinary_unique (occurs : b.Occurs .readable) {e : LinearForm F} (reads : e.Reads b.nextWire) {count : Nat}
    (few : count ≤ F.bits - 1) :
    ∃ bits b', toBinary e count b = .ok bits b' ∧
      (∀ w, b'.Permits w → (e.eval w).val < 2 ^ count ∧ bits.map (·.eval w) = Scalar.toBinary count (e.eval w)) ∧
      (b.nextWire + 2 * count ≤ 2 ^ 32 → bits = (List.range' b.nextWire count).map .wire ∧ ∃ added, b.Adds added b' ∧
        ∀ w, w Wire.one = 1 →
          ((e.eval w).val < 2 ^ count →
            HintRegistry.builtins.call BuiltinHint.toBinary.name [e.eval w] count =
              .ok (Scalar.toBinary count (e.eval w)) ∧
            ∀ ys, (∃ w', LinearForm.Agree b.nextWire w w' ∧ (List.range' b.nextWire count).map w' = ys ∧
              added.Satisfied (.free .any) w') ↔ ys = Scalar.toBinary count (e.eval w)) ∧
          (2 ^ count ≤ (e.eval w).val →
            HintRegistry.builtins.call BuiltinHint.toBinary.name [e.eval w] count =
              .error (.hintFailed BuiltinHint.toBinary.name [(e.eval w).val] (.valueOutOfRange count)) ∧
            ¬ ∃ w', LinearForm.Agree b.nextWire w w' ∧ added.Satisfied (.free .any) w')) := by
  have wellFormed := occurs.wellFormed
  obtain ⟨bits, b', done, -, shown⟩ := toBinary_secures (occurs.tidy trivial).truthful e few
  refine ⟨bits, b', done, shown, fun room => ?_⟩
  obtain ⟨b'', demand, done', adds, demands⟩ := toBinary_adds wellFormed e few room
  cases done.symm.trans done'
  refine ⟨rfl, _, adds, fun w one => ?_⟩
  have earlier : ∀ w', LinearForm.Agree b.nextWire w w' → e.eval w' = e.eval w := fun w' agree =>
    (LinearForm.eval_congr reads agree).symm
  have split {w' : Wire → Scalar F} (agree : LinearForm.Agree b.nextWire w w')
      (satisfied : (splitting b.nextWire e count demand).Satisfied (.free .any) w') :
      (e.eval w).val < 2 ^ count ∧ (List.range' b.nextWire count).map w' = Scalar.toBinary count (e.eval w) := by
    have one' : w' Wire.one = 1 := (agree Wire.one wellFormed.positive).symm.trans one
    have bits := bits_of_splitting few demands one' satisfied
    rwa [earlier w' agree] at bits
  rw [HintRegistry.call_toBinary]
  constructor
  · intro below
    refine ⟨if_pos below, fun ys => ⟨?_, ?_⟩⟩
    · rintro ⟨w', agree, rfl, satisfied⟩
      exact (split agree satisfied).2
    · rintro rfl
      exact exists_splitting few demands one HintRule.any_allows wellFormed.positive earlier below
  · intro above
    refine ⟨if_neg (Nat.not_lt.mpr above), ?_⟩
    rintro ⟨w', agree, satisfied⟩
    exact Nat.not_lt.mpr above (split agree satisfied).1

/-- Five is split into three bits in one way, and eight in none. -/
theorem Occurs.toBinary_unique_three : ∃ (b b' : Builder .mersenne31) (added : Addition .mersenne31), b.Occurs .readable ∧
    (LinearForm.wire 1 : LinearForm .mersenne31).Reads b.nextWire ∧ b.nextWire + 2 * 3 ≤ 2 ^ 32 ∧
    toBinary (.wire 1) 3 b = .ok [.wire 2, .wire 3, .wire 4] b' ∧ b.Adds added b' ∧
    (∃ w, w 1 = 5 ∧ [2, 3, 4].map w = [1, 0, 1] ∧ added.Satisfied (.free .any) w) ∧
    ¬ ∃ w, w 0 = 1 ∧ w 1 = 8 ∧ added.Satisfied (.free .any) w := by
  have started : Builder.start 1 0 ∅ = .ok (blank 1 0 ∅ .empty : Builder .mersenne31) := rfl
  have reads : (LinearForm.wire 1 : LinearForm .mersenne31).Reads (blank 1 0 ∅ .empty : Builder .mersenne31).nextWire :=
    LinearForm.reads_wire (by decide)
  have few : 3 ≤ ScalarField.mersenne31.bits - 1 := by decide
  have room : (blank 1 0 ∅ .empty : Builder .mersenne31).nextWire + 2 * 3 ≤ 2 ^ 32 := by decide
  obtain ⟨_, b', done, -, exactly⟩ := Occurs.toBinary_unique (.start started) reads few
  obtain ⟨rfl, added, adds, outcome⟩ := exactly room
  refine ⟨_, b', added, .start started, reads, room, done, adds, ?_, ?_⟩
  · obtain ⟨-, choices⟩ := (outcome (fun v => if v = 1 then 5 else 1) rfl).1 (by rw [LinearForm.eval_wire]; decide)
    obtain ⟨w, agree, bits, satisfied⟩ := (choices [1, 0, 1]).mpr (by rw [LinearForm.eval_wire]; decide)
    exact ⟨w, (agree 1 (by decide)).symm, bits, satisfied⟩
  · rintro ⟨w, one, eight, satisfied⟩
    have many : 2 ^ 3 ≤ ((LinearForm.wire 1 : LinearForm .mersenne31).eval w).val := by
      rw [LinearForm.eval_wire, eight]
      decide
    exact ((outcome w one).2 many).2 ⟨w, fun _ _ => rfl, satisfied⟩

/-- Where one number is left for a wire, the second bit stands on the constant one. -/
theorem testBit_of_exhausted (truthful : b.Truthful) (last : b.nextWire = 2 ^ 32 - 1) {e : LinearForm F} {count : Nat}
    (few : count + 2 ≤ F.bits - 1) {bits : List (LinearForm F)} {b' : Builder F}
    (done : toBinary e (count + 2) b = .ok bits b') {w : Wire → Scalar F} (permits : b'.Permits w) :
    (e.eval w).val.testBit 1 = true := by
  obtain ⟨_, _, done', -, shown⟩ := toBinary_secures truthful e few
  cases done.symm.trans done'
  have digits := (shown w permits).2
  rw [forms_of_toBinary done, last, LinearForm.map_eval_wire] at digits
  have second : ((freshWires (2 ^ 32 - 1) (count + 2)).map w)[1]? = (Scalar.toBinary (count + 2) (e.eval w))[1]? := by
    rw [digits]
  have wrapped : Wire.wrap (2 ^ 32 - 1 + 1) = Wire.one := by decide
  rw [freshWires_succ, freshWires_succ, wrapped, Scalar.toBinary, List.getElem?_map, List.getElem?_map,
    List.getElem?_range (by omega)] at second
  by_contra unset
  have zero : w Wire.one = Scalar.ofBool ((e.eval w).val.testBit 1) := Option.some.inj second
  rw [permits.one, eq_false_of_ne_true unset] at zero
  exact one_ne_zero zero

/-- After 4294967294 inputs, zero is split into two bits in no way. -/
theorem Occurs.toBinary_exhausted : ∃ (b b' : Builder .mersenne31) (added : Addition .mersenne31), b.Occurs .readable ∧
    (LinearForm.wire 1 : LinearForm .mersenne31).Reads b.nextWire ∧
    toBinary (.wire 1) 2 b = .ok [.wire 4294967295, .wire 0] b' ∧ b.Adds added b' ∧
    ¬ ∃ w, w Wire.one = 1 ∧ w 1 = 0 ∧ added.Satisfied (.free .any) w := by
  have started : Builder.start 4294967294 0 ∅ = .ok (blank 4294967294 0 ∅ .empty : Builder .mersenne31) := rfl
  have occurs : (blank 4294967294 0 ∅ .empty : Builder .mersenne31).Occurs .readable := .start started
  have few : 2 ≤ ScalarField.mersenne31.bits - 1 := by decide
  obtain ⟨bits, b', done, -, -⟩ := toBinary_secures (occurs.tidy trivial).truthful (.wire 1) few
  obtain rfl : bits = [.wire 4294967295, .wire 0] := forms_of_toBinary done
  refine ⟨_, b', _, occurs, LinearForm.reads_wire (by decide), done, adds_blank .., ?_⟩
  rintro ⟨w, one, zero, possible, instructions, constraints⟩
  have second := testBit_of_exhausted (occurs.tidy trivial).truthful rfl few done ⟨possible, one, instructions, constraints⟩
  rw [LinearForm.eval_wire, zero] at second
  exact absurd second (by decide)

end Builder

/-! ### Sums of words -/

namespace Word
open Builder (Addition Adds Occurs)

variable {b : Builder F}

theorem bitLength_pred_eq_clog (n : Nat) : bitLength (n - 1) = Nat.clog 2 (max n 1) := by
  refine eq_of_forall_ge_iff fun k => ?_
  have positive := Nat.two_pow_pos k
  rw [← lt_two_pow_iff_bitLength_le, Nat.clog_le_iff_le_pow (by decide)]
  omega

/-- Words of bits show numbers. -/
theorem exists_shows {w : Wire → Scalar F} {words : List (Word F)}
    (boolean : ∀ X ∈ words, ∀ e ∈ X.bits.toList, e.eval w = 0 ∨ e.eval w = 1) : ∃ xs, List.Forall₂ (Shows w) words xs := by
  induction words with
  | nil => exact ⟨[], .nil⟩
  | cons X rest ih =>
    obtain ⟨own, others⟩ := List.forall_mem_cons.mp boolean
    obtain ⟨x, spells⟩ := exists_spells own X.bits.length_toList
    obtain ⟨xs, shows⟩ := ih others
    exact ⟨x :: xs, .cons (shows_iff_spells.mpr spells) shows⟩

theorem sum_numeral {w : Wire → Scalar F} {words : List (Word F)} {xs : List (BitVec 32)}
    (shows : List.Forall₂ (Shows w) words xs) :
    (words.map fun X => numeral w X.bits.toList).sum = (xs.map BitVec.toNat).sum := by
  induction shows with
  | nil => rfl
  | cons first _ ih => rw [List.map_cons, List.map_cons, List.sum_cons, List.sum_cons, ih, (shows_iff_spells.mp first).numeral_eq]

/-- Words over earlier wires show the same numbers whatever the later wires are. -/
theorem shows_congr {n : Nat} {w w' : Wire → Scalar F} {words : List (Word F)} {xs : List (BitVec 32)}
    (reads : ∀ X ∈ words, ∀ e ∈ X.bits.toList, e.Reads n) (agree : LinearForm.Agree n w w')
    (shows : List.Forall₂ (Shows w) words xs) : List.Forall₂ (Shows w') words xs := by
  induction shows with
  | nil => exact .nil
  | cons first _ ih =>
    obtain ⟨own, others⟩ := List.forall_mem_cons.mp reads
    refine .cons (fun i below => ?_) (ih others)
    rw [← LinearForm.eval_congr (own _ (by simp)) agree]
    exact first i below

/-- The bits of the total make the word of the sum. -/
theorem numeral_sum {words : List (Word F)} (few : wordBits + bitLength (words.length - 1) ≤ F.bits - 1)
    {bits : List (LinearForm F)} {R : Word F} (built : ofBits (bits.take wordBits) = .ok R) {w : Wire → Scalar F}
    (boolean : ∀ X ∈ words, ∀ e ∈ X.bits.toList, e.eval w = 0 ∨ e.eval w = 1)
    (digits : bits.map (·.eval w) = Scalar.toBinary (wordBits + bitLength (words.length - 1)) ((total words).eval w)) :
    (∀ e ∈ R.bits.toList, e.eval w = 0 ∨ e.eval w = 1) ∧
      numeral w R.bits.toList = (words.map fun X => numeral w X.bits.toList).sum % 2 ^ 32 := by
  obtain ⟨xs, shows⟩ := exists_shows boolean
  have spells := shows_iff_spells.mp (shows_sum few shows built digits)
  refine ⟨spells.boolean, ?_⟩
  rw [spells.numeral_eq, ← ofNat_sum_toNat, BitVec.toNat_ofNat, sum_numeral shows]

/-- Words are added exactly, as long as the field has room for the sum: in every assignment that the builder then
    permits, the result is the sum modulo `2 ^ 32`, whatever the hint gives. As long as there are numbers for the new
    wires, what was recorded ensures this by itself, and the builtin hint gives what is needed. Without room in the
    field nothing is recorded. -/
theorem sum_exact (occurs : b.Occurs .readable) (words : List (Word F)) :
    (32 + Nat.clog 2 (max words.length 1) ≤ F.bits - 1 →
      ∃ R b', sum words b = .ok R b' ∧
        (∀ w, b'.Permits w → (∀ X ∈ words, ∀ e ∈ X.bits.toList, e.eval w = 0 ∨ e.eval w = 1) →
          (∀ e ∈ R.bits.toList, e.eval w = 0 ∨ e.eval w = 1) ∧
            numeral w R.bits.toList = (words.map fun X => numeral w X.bits.toList).sum % 2 ^ 32) ∧
        (b.nextWire + 2 * (32 + Nat.clog 2 (max words.length 1)) ≤ 2 ^ 32 → ∃ added, b.Adds added b' ∧
          (∀ W w, w Wire.one = 1 → (∀ X ∈ words, ∀ e ∈ X.bits.toList, e.eval w = 0 ∨ e.eval w = 1) →
            added.Satisfied W w → (∀ e ∈ R.bits.toList, e.eval w = 0 ∨ e.eval w = 1) ∧
              numeral w R.bits.toList = (words.map fun X => numeral w X.bits.toList).sum % 2 ^ 32) ∧
          ∀ w, w Wire.one = 1 → (∀ X ∈ words, ∀ e ∈ X.bits.toList, e.Reads b.nextWire ∧ (e.eval w = 0 ∨ e.eval w = 1)) →
            ∃ w', LinearForm.Agree b.nextWire w w' ∧ added.Satisfied (.free (.honest .builtins .strict)) w')) ∧
    (F.bits - 1 < 32 + Nat.clog 2 (max words.length 1) →
      sum words b = .error (.tooManyBits (F.bits - 1) (32 + Nat.clog 2 (max words.length 1))) b) := by
  rw [← bitLength_pred_eq_clog]
  constructor
  · intro few
    have wellFormed := occurs.wellFormed
    obtain ⟨bits, b', done, -, shown⟩ := Builder.toBinary_secures (occurs.tidy trivial).truthful (total words) few
    obtain ⟨R, built, summed⟩ := sum_of_toBinary done
    refine ⟨R, b', summed, fun w permits boolean => numeral_sum few built boolean (shown w permits).2, fun room => ?_⟩
    obtain ⟨_, demand, done', adds, demands⟩ := Builder.toBinary_adds wellFormed (total words) few room
    cases done.symm.trans done'
    refine ⟨_, adds, ?_, ?_⟩
    · intro W w one boolean satisfied
      refine numeral_sum few built boolean ?_
      rw [LinearForm.map_eval_wire]
      exact (Builder.bits_of_splitting few demands one satisfied).2
    · intro w one both
      obtain ⟨xs, shows⟩ := exists_shows fun X member e inside => (both X member e inside).2
      have earlier : ∀ w', LinearForm.Agree b.nextWire w w' → (total words).eval w' = (total words).eval w := by
        intro w' agree
        have later := shows_congr (fun X member e inside => (both X member e inside).1) agree shows
        rw [eval_total shows, eval_total later]
      have allows : (World.free (HintRule.honest (F := F) .builtins .strict)).rule.Allows := HintRule.builtins_allow
      obtain ⟨w', agree, -, satisfied⟩ :=
        Builder.exists_splitting few demands one allows wellFormed.positive earlier (val_total_lt few shows)
      exact ⟨w', agree, satisfied⟩
  · intro many
    refine run_bind_eq_error.mpr (.inl ?_)
    rw [Builder.toBinary]
    exact congrFun (if_pos many) b

/-- Three words of ones wrap around twice. A field of 31 bits has no room for any sum. -/
theorem sum_exact_wraps :
    (∃ (b b' : Builder .bn254) (R : Word .bn254) (added : Addition .bn254) (w : Wire → Scalar .bn254), b.Occurs .readable ∧
      sum (List.replicate 3 (constant (2 ^ 32 - 1))) b = .ok R b' ∧ b.Adds added b' ∧
      w Wire.one = 1 ∧ added.Satisfied (.free (.honest .builtins .strict)) w ∧ numeral w R.bits.toList = 2 ^ 32 - 3) ∧
    ∃ b : Builder .mersenne31, b.Occurs .readable ∧ sum [] b = .error (.tooManyBits 30 32) b := by
  constructor
  · have started : Builder.start 0 0 ∅ = .ok (.blank 0 0 ∅ .empty : Builder .bn254) := rfl
    have occurs : (Builder.blank 0 0 ∅ .empty : Builder .bn254).Occurs .readable := .start started
    have shows : ∀ {w : Wire → Scalar .bn254}, w Wire.one = 1 →
        List.Forall₂ (Shows w) (List.replicate 3 (constant (2 ^ 32 - 1))) (List.replicate 3 (BitVec.allOnes 32)) :=
      fun one => .cons (shows_constant one _) (.cons (shows_constant one _) (.cons (shows_constant one _) .nil))
    have boolean : ∀ {w : Wire → Scalar .bn254}, w Wire.one = 1 → ∀ X ∈ List.replicate 3 (constant (2 ^ 32 - 1)),
        ∀ e ∈ X.bits.toList, e.eval w = 0 ∨ e.eval w = 1 := by
      intro w one X member
      obtain rfl := List.eq_of_mem_replicate member
      exact (shows_iff_spells.mp (shows_constant one _)).boolean
    have reads : ∀ X ∈ List.replicate 3 (constant (2 ^ 32 - 1) : Word .bn254), ∀ e ∈ X.bits.toList, e.Reads 1 := by
      intro X member e inside
      obtain rfl := List.eq_of_mem_replicate member
      exact (legible_constant occurs.wellFormed _ e (Vector.mem_toList_iff.mp inside)).reads
    obtain ⟨R, b', done, -, exactly⟩ := (sum_exact occurs (List.replicate 3 (constant (2 ^ 32 - 1)))).1 (by decide)
    obtain ⟨added, adds, sums, possible⟩ := exactly (by decide)
    obtain ⟨w, agree, satisfied⟩ :=
      possible (fun _ => 1) rfl fun X member e inside => ⟨reads X member e inside, boolean rfl X member e inside⟩
    have one : w Wire.one = 1 := (agree 0 (by decide)).symm
    refine ⟨_, b', R, added, w, occurs, done, adds, one, satisfied, ?_⟩
    rw [(sums _ w one (boolean one) satisfied).2, sum_numeral (shows one)]
    decide
  · have started : Builder.start 0 0 ∅ = .ok (.blank 0 0 ∅ .empty : Builder .mersenne31) := rfl
    exact ⟨_, .start started, (sum_exact (.start started) []).2 (by decide)⟩

/-- After 4294967294 inputs, even the sum of no words is recorded in a way that no assignment keeps. -/
theorem sum_exhausted : ∃ (b b' : Builder .bn254) (R : Word .bn254) (added : Addition .bn254), b.Occurs .readable ∧
    sum [] b = .ok R b' ∧ b.Adds added b' ∧ ¬ ∃ w, w Wire.one = 1 ∧ added.Satisfied (.free .any) w := by
  have started : Builder.start 4294967294 0 ∅ = .ok (.blank 4294967294 0 ∅ .empty : Builder .bn254) := rfl
  have occurs : (Builder.blank 4294967294 0 ∅ .empty : Builder .bn254).Occurs .readable := .start started
  have few : 32 ≤ ScalarField.bn254.bits - 1 := by decide
  obtain ⟨bits, b', done, -, -⟩ := Builder.toBinary_secures (occurs.tidy trivial).truthful (total []) few
  obtain ⟨R, -, summed⟩ := sum_of_toBinary done
  refine ⟨_, b', R, _, occurs, summed, Builder.adds_blank .., ?_⟩
  rintro ⟨w, one, possible, instructions, constraints⟩
  have second :=
    Builder.testBit_of_exhausted (occurs.tidy trivial).truthful rfl few done ⟨possible, one, instructions, constraints⟩
  rw [eval_total .nil] at second
  exact absurd second (by decide)

end Word
end ArithCircuit
