import ArithCircuit.Proofs.Gadget.Behaviour

/-!
Steps that always succeed. What such a step makes has a property under every assignment that satisfies
the builder after it. As long as there are numbers for all wires, the step rules no assignment out: each
that satisfies the builder before it extends to one that satisfies the builder after it.
-/
namespace ArithCircuit
variable {F : ScalarField}

namespace Builder
variable {W : World F} {b b₁ b₂ : Builder F}

/-- The rules of a builder, and what recording keeps. -/
structure Sound (W : World F) (b : Builder F) : Prop where
  good : b.Good W
  wellFormed : b.WellFormed

/-- One builder comes from another by recording that rules no assignment out, if there are numbers for all wires. -/
structure Advances (W : World F) (b b' : Builder F) : Prop where
  recorded : Recorded W b b'
  continues : Continues b b'
  extension : b'.nextWire ≤ 2 ^ 32 → ∀ {w}, b.Satisfied W w → ∃ w', LinearForm.Agree b.nextWire w w' ∧ b'.Satisfied W w'

namespace Advances

theorem refl (sound : b.Sound W) : Advances W b b :=
  ⟨.refl sound.good, .refl sound.wellFormed, fun _ _ satisfied => ⟨_, fun _ _ => rfl, satisfied⟩⟩

theorem trans (first : Advances W b b₁) (second : Advances W b₁ b₂) : Advances W b b₂ where
  recorded := first.recorded.trans second.recorded
  continues := first.continues.trans second.continues
  extension room _ satisfied := by
    obtain ⟨w₁, agree₁, satisfied₁⟩ := first.extension (second.continues.nextWire.trans room) satisfied
    obtain ⟨w₂, agree₂, satisfied₂⟩ := second.extension room satisfied₁
    have agree : LinearForm.Agree b.nextWire _ w₂ := fun v below =>
      (agree₁ v below).trans (agree₂ v (below.trans_le first.continues.nextWire))
    exact ⟨w₂, agree, satisfied₂⟩

theorem sound (advances : Advances W b b₁) : b₁.Sound W := ⟨advances.recorded.good, advances.continues.wellFormed⟩

theorem satisfied (advances : Advances W b b₁) {w : Wire → Scalar F} (later : b₁.Satisfied W w) : b.Satisfied W w :=
  advances.recorded.satisfied later

end Advances

/-- A step succeeds, rules no assignment out if there are numbers for all wires, and makes something of which `Q`
    holds. -/
def Makes {α : Type} [Legible α] (W : World F) (b : Builder F) (step : Build F α) (Q : α → (Wire → Scalar F) → Prop) :
    Prop :=
  ∃ a b', step b = .ok a b' ∧ Advances W b b' ∧ Legible.At b'.nextWire a ∧ ∀ w, b'.Satisfied W w → Q a w

theorem Makes.mono {α : Type} [Legible α] {step : Build F α} {Q R : α → (Wire → Scalar F) → Prop} (makes : Makes W b step Q)
    (implied : ∀ {a w}, b.Satisfied W w → Q a w → R a w) : Makes W b step R := by
  obtain ⟨a, b', done, advances, legible, holds⟩ := makes
  exact ⟨a, b', done, advances, legible, fun w later => implied (advances.satisfied later) (holds w later)⟩

/-- A step that performs a relation makes what the relation says, if it succeeds and is never ruled out. -/
theorem Performs.makes {α β : Type} [Readout F α β] [Legible α] {step : Build F α} {R : (Wire → Scalar F) → β → Prop}
    (performs : Performs W b step R) (keeps : Keeps b step) (succeeds : ∃ a b', step b = .ok a b')
    (total : ∀ w, b.Satisfied W w → ∃ y, R w y) : Makes W b step fun a w => R w (Readout.value a w) := by
  obtain ⟨a, b', done⟩ := succeeds
  obtain ⟨recorded, _, gives⟩ := performs a b' done
  obtain ⟨continues, legible⟩ := keeps.made done
  refine ⟨a, b', done, ⟨recorded, continues, fun room {w} satisfied => ?_⟩, legible, fun w later => ?_⟩
  · obtain ⟨y, related⟩ := total w satisfied
    obtain ⟨w', agree, later, _⟩ := (gives satisfied).complete room y related
    exact ⟨w', agree, later⟩
  · exact (gives (recorded.satisfied later)).sound w (fun _ _ => rfl) later

/-! ### Operations of the builder -/

theorem mul_makes (sound : b.Sound W) {x y : LinearForm F} (left : x.Readable b.nextWire) (right : y.Readable b.nextWire) :
    Makes W b (mul x y) fun z w => z.eval w = x.eval w * y.eval w :=
  (mul_performs sound.good left.reads right.reads).makes (mul_keeps sound.wellFormed left right) ⟨_, _, rfl⟩
    fun _ _ => ⟨_, rfl⟩

theorem requireZero_succeeds (assertion : Assertion) (e : LinearForm F) (b : Builder F) :
    ∃ b', requireZero assertion e b = .ok () b' := by
  rw [requireZero]
  cases e.constant? with
  | none => exact ⟨_, rfl⟩
  | some k => by_cases zero : k.isZero = true <;> simp only [zero] <;> exact ⟨_, rfl⟩

theorem assertAllBoolean_succeeds (bits : List (LinearForm F)) (b : Builder F) :
    ∃ b', assertAllBoolean bits b = .ok () b' := by
  induction bits generalizing b with
  | nil => exact ⟨b, rfl⟩
  | cons bit rest ih =>
    obtain ⟨b₁, asserted⟩ := assertBoolean_succeeds bit b
    obtain ⟨b₂, others⟩ := ih b₁
    exact ⟨b₂, run_bind_eq_ok.mpr ⟨(), b₁, asserted, others⟩⟩

/-- Splitting into bits fails only for too many bits. -/
theorem toBinary_succeeds {count : Nat} (few : count ≤ F.bits - 1) (e : LinearForm F) (b : Builder F) :
    ∃ bits b', toBinary e count b = .ok bits b' := by
  rw [toBinary, if_neg (Nat.not_lt.mpr few)]
  have hinted := recordHint_eq BuiltinHint.toBinary.name [e] count b
  obtain ⟨b₂, asserted⟩ := assertAllBoolean_succeeds ((freshWires b.nextWire count).map .wire) _
  obtain ⟨b₃, equal⟩ := requireZero_succeeds .equal (fromBinary ((freshWires b.nextWire count).map .wire) - e) b₂
  exact ⟨_, b₃, run_bind_eq_ok.mpr ⟨_, _, hinted, run_bind_eq_ok.mpr ⟨(), b₂, asserted,
    run_bind_eq_ok.mpr ⟨(), b₃, equal, rfl⟩⟩⟩⟩

/-- Splitting into enough bits gives the bits of the value. -/
theorem toBinary_makes (allows : W.rule.Allows) (sound : b.Sound W) {e : LinearForm F} (readable : e.Readable b.nextWire)
    {count : Nat} (few : count ≤ F.bits - 1) (below : ∀ w, b.Satisfied W w → (e.eval w).val < 2 ^ count) :
    Makes W b (toBinary e count) fun bits w => bits.map (·.eval w) = Scalar.toBinary count (e.eval w) := by
  have performs := toBinary_performs allows sound.good readable.reads count
  refine (performs.makes (toBinary_keeps sound.wellFormed readable count) (toBinary_succeeds few e b) ?_).mono ?_
  · exact fun w satisfied => ⟨_, below w satisfied, rfl⟩
  · exact fun _ split => split.2

end Builder
end ArithCircuit
