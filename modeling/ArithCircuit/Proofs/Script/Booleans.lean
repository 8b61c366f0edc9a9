import ArithCircuit.Proofs.Script.Runs

/-!
The forms that a builder takes for boolean are boolean. Whatever actions a run does, on operands of any kind,
and whatever the bodies of its definitions do, a form is noted only where what is recorded leaves it no other
value than 0 and 1; hints and calls may give anything.
-/
namespace ArithCircuit
namespace Builder
variable {F : ScalarField} {α : Type} {b b₁ : Builder F} {n : Nat}

/-- A builder comes from one with nothing recorded, for a circuit or for the body of a sub-circuit. -/
def Reached (b : Builder F) : Prop :=
  ∃ numInputs numPublic hints subCircuits, Runs .free (blank numInputs numPublic hints subCircuits) b

/-- Forms are boolean in a builder and in all that it leads to. -/
def Guarantees (b : Builder F) (forms : List (LinearForm F)) : Prop :=
  ∀ b', Runs .free b b' → ∀ e ∈ forms, b'.Boolean e

theorem Reached.truthful (reached : b.Reached) : b.Truthful := by
  obtain ⟨numInputs, numPublic, hints, subCircuits, runs⟩ := reached
  exact (runs.relates (later_upheld _) (truthful_blank numInputs numPublic hints subCircuits)).truthful

/-- What a step makes boolean stays so. -/
theorem Secures.guarantees {step : Build F α} {forms : α → List (LinearForm F)}
    (secures : Secures b n step fun a w => ∀ e ∈ forms a, e.eval w = 0 ∨ e.eval w = 1) :
    ∃ a b', step b = .ok a b' ∧ b'.Guarantees (forms a) := by
  obtain ⟨a, b', done, secured, boolean⟩ := secures
  refine ⟨a, b', done, fun b₁ runs e member => ?_⟩
  exact (runs.relates (later_upheld _) secured.truthful).boolean fun w permits => boolean w permits e member

/-- Forms noted as boolean are, and so are asserted forms, the operands and results of bit operations,
    and zero tests, from then on. -/
theorem Reached.booleans_trusted (reached : b.Reached) :
    (∀ e ∈ b.booleans, b.Boolean e) ∧
    (∀ e, ∃ b', assertBoolean e b = .ok () b' ∧ b'.Guarantees [e]) ∧
    (∀ gate ∈ [Builder.and, Builder.or, Builder.xor], ∀ x y, ∃ r b', gate x y b = .ok r b' ∧ b'.Guarantees [x, y, r]) ∧
    ∀ x, ∃ r b', isZero x b = .ok r b' ∧ b'.Guarantees [r] := by
  have truthful := reached.truthful
  refine ⟨truthful, fun e => ?_, ?_, fun x => ?_⟩
  · have secures : Secures b 1 (assertBoolean e) fun _ w => ∀ x ∈ [e], x.eval w = 0 ∨ x.eval w = 1 := by
      simpa using assertBoolean_secures truthful e
    obtain ⟨_, b', done, guarantees⟩ := secures.guarantees
    exact ⟨b', done, guarantees⟩
  · simp only [List.forall_mem_cons, List.not_mem_nil, false_implies, implies_true, and_true]
    exact ⟨fun x y => (and_secures truthful x y).guarantees, fun x y => (or_secures truthful x y).guarantees,
      fun x y => (xor_secures truthful x y).guarantees⟩
  · have secures : Secures b 4 (isZero x) fun r w => ∀ e ∈ [r], e.eval w = 0 ∨ e.eval w = 1 := by
      simpa using isZero_secures truthful x
    exact secures.guarantees

/-- Two inputs are asserted to be bits and multiplied. -/
def conjunction : Builder .mersenne31 :=
  { blank 2 0 ∅ .empty with
    nextWire := 6
    instructions := #[.product (.wire 1) (.wire 1 - .constant 1) 3, .product (.wire 2) (.wire 2 - .constant 1) 4,
      .product (.wire 1) (.wire 2) 5]
    constraints := #[.wire 3, .wire 4]
    booleans := ((∅ : Std.TreeSet (LinearForm .mersenne31) LinearForm.compare).insert (.wire 1) |>.insert (.wire 2)).insert
      (.wire 5) }

/-- The product is noted as boolean, and both inputs can be one. -/
theorem Reached.booleans_trusted_conjunction :
    Builder.and (.wire 1) (.wire 2) (blank 2 0 ∅ .empty) = .ok (.wire 5) conjunction ∧ conjunction.Reached ∧
      conjunction.Boolean (.wire 5) ∧ conjunction.Permits fun w => if w = 3 ∨ w = 4 then 0 else 1 := by
  have made : Builder.and (.wire 1) (.wire 2) (blank 2 0 ∅ .empty) = .ok (.wire 5) conjunction := rfl
  have acted : Action.run .empty (.and (.form (.wire 1)) (.form (.wire 2))) (blank 2 0 ∅ .empty) =
      .ok (.forms [.wire 5]) conjunction := rfl
  have reached : conjunction.Reached := ⟨2, 0, ∅, .empty, .act (.refl _) .empty _ trivial (.inl ⟨_, acted⟩)⟩
  have noted : .wire 5 ∈ conjunction.booleans := by decide
  refine ⟨made, reached, reached.booleans_trusted.1 _ noted, rfl, rfl, ?_, ?_⟩
  · simp [conjunction, Instruction.Holds, Instruction.Produces, Instruction.outputs, LinearForm.constant, Wire.one]
  · simp [conjunction]

end Builder
end ArithCircuit
