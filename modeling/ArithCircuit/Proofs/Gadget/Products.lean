import ArithCircuit.Proofs.Gadget.Making

/-!
Steps that record products and nothing else. Such a step succeeds from every builder and on all operands,
and what it makes has a property under every assignment that keeps the products. On operands that can be
read it rules no assignment out, as long as there are numbers for all wires.
-/
namespace ArithCircuit
variable {F : ScalarField}

namespace Builder
variable {α β γ : Type}

/-- The products of pairs of forms, on consecutive wires. -/
def products (first : Nat) (pairs : List (LinearForm F × LinearForm F)) : List (Instruction F) :=
  pairs.mapIdx fun i p => .product p.1 p.2 (.wrap (first + i))

/-- A builder with the products of pairs of forms recorded. -/
def multiplied (b : Builder F) (pairs : List (LinearForm F × LinearForm F)) : Builder F :=
  { b with
    nextWire := b.nextWire + pairs.length
    instructions := b.instructions ++ (products b.nextWire pairs).toArray }

theorem products_append (first : Nat) (ps qs : List (LinearForm F × LinearForm F)) :
    products first (ps ++ qs) = products first ps ++ products (first + ps.length) qs := by
  simp only [products, List.mapIdx_append, Nat.add_assoc, Nat.add_comm ps.length]

theorem products_cons (first : Nat) (p : LinearForm F × LinearForm F) (rest : List (LinearForm F × LinearForm F)) :
    products first (p :: rest) = .product p.1 p.2 (.wrap first) :: products (first + 1) rest :=
  products_append first [p] rest

theorem multiplied_nil (b : Builder F) : b.multiplied [] = b := by simp [multiplied, products]

theorem multiplied_append (b : Builder F) (ps qs : List (LinearForm F × LinearForm F)) :
    b.multiplied (ps ++ qs) = (b.multiplied ps).multiplied qs := by
  simp only [multiplied, products_append, List.length_append, Nat.add_assoc, ← List.append_toArray, Array.append_assoc]

/-- Products that read earlier wires rule out no values of these, if there are numbers for all wires. -/
theorem exists_kept {D : Design F} {first : Nat} {pairs : List (LinearForm F × LinearForm F)}
    (inOrder : InOrder D first (products first pairs)) (room : first + pairs.length ≤ 2 ^ 32) (W : World F)
    (w : Wire → Scalar F) : ∃ w', LinearForm.Agree first w w' ∧ ∀ i ∈ products first pairs, i.Holds W w' := by
  induction pairs generalizing first w with
  | nil => exact ⟨w, fun _ _ => rfl, List.forall_mem_nil _⟩
  | cons p rest ih =>
    rw [List.length_cons, Nat.add_comm _ 1, ← Nat.add_assoc] at room
    rw [products_cons, wrap_of_lt ((Nat.le_add_right ..).trans room)] at inOrder ⊢
    obtain ⟨readable, -, -, later⟩ := inOrder
    obtain ⟨w', agree, kept⟩ := ih later room (Function.update w first (p.1.eval w * p.2.eval w))
    have early : LinearForm.Agree first w w' := by
      intro v below
      rw [← agree v (below.trans (Nat.lt_succ_self first)), Function.update_of_ne below.ne]
    have product : w' first = p.1.eval w * p.2.eval w := by
      rw [← agree first (Nat.lt_succ_self first), Function.update_self]
    refine ⟨w', early, List.forall_mem_cons.mpr ⟨?_, kept⟩⟩
    have left := LinearForm.eval_congr (readable p.1 (by simp [Instruction.inputs])).reads early
    have right := LinearForm.eval_congr (readable p.2 (by simp [Instruction.inputs])).reads early
    show [w' first] = [p.1.eval w' * p.2.eval w']
    rw [product, left, right]

theorem WellFormed.inOrder_products {b : Builder F} (before : b.WellFormed) {pairs : List (LinearForm F × LinearForm F)}
    (after : (b.multiplied pairs).WellFormed) :
    InOrder ⟨b.subCircuits.circuits⟩ b.nextWire (products b.nextWire pairs) := by
  have listed : (b.multiplied pairs).circuit.instructions = b.circuit.instructions ++ products b.nextWire pairs :=
    Array.toList_append
  have inOrder := after.circuit.instructions
  rw [listed, InOrder.append_iff] at inOrder
  have wires : b.nextWire = 1 + (b.multiplied pairs).circuit.numInputs + sumOver (·.outputs.length) b.circuit.instructions :=
    before.nextWire
  rw [← wires] at inOrder
  exact inOrder.2

theorem WellFormed.exists_kept {b : Builder F} (before : b.WellFormed) {pairs : List (LinearForm F × LinearForm F)}
    (after : (b.multiplied pairs).WellFormed) (room : (b.multiplied pairs).nextWire ≤ 2 ^ 32) (W : World F)
    (w : Wire → Scalar F) : ∃ w', LinearForm.Agree b.nextWire w w' ∧ ∀ i ∈ products b.nextWire pairs, i.Holds W w' :=
  Builder.exists_kept (before.inOrder_products after) room W w

/-- A step records products only. What it makes has a shape, whatever the values of the wires, and a
    property wherever the products are kept. -/
def Multiplies (step : Build F α) (Shape : α → Prop) (Q : α → (Wire → Scalar F) → Prop) : Prop :=
  ∀ b, ∃ a pairs, step b = .ok a (b.multiplied pairs) ∧ Shape a ∧
    ∀ W w, w Wire.one = 1 → (∀ i ∈ products b.nextWire pairs, i.Holds W w) → Q a w

namespace Multiplies
variable {Shape : α → Prop} {Q : α → (Wire → Scalar F) → Prop}

theorem pure {a : α} (shape : Shape a) (holds : ∀ w, w Wire.one = 1 → Q a w) :
    Multiplies (Pure.pure a : Build F α) Shape Q := by
  intro b
  refine ⟨a, [], ?_, shape, fun _ w one _ => holds w one⟩
  rw [multiplied_nil]
  rfl

theorem mono {step : Build F α} {Shape' : α → Prop} {Q' : α → (Wire → Scalar F) → Prop} (multiplies : Multiplies step Shape Q)
    (shape : ∀ a, Shape a → Shape' a) (implied : ∀ a w, w Wire.one = 1 → Q a w → Q' a w) : Multiplies step Shape' Q' := by
  intro b
  obtain ⟨a, pairs, done, shaped, holds⟩ := multiplies b
  exact ⟨a, pairs, done, shape a shaped, fun W w one kept => implied a w one (holds W w one kept)⟩

/-- One step after another. -/
theorem bind {step : Build F α} {next : α → Build F β} {Shape' : β → Prop} {R : β → (Wire → Scalar F) → Prop}
    (first : Multiplies step Shape Q)
    (second : ∀ a, Shape a → Multiplies (next a) Shape' fun c w => Q a w → R c w) : Multiplies (step >>= next) Shape' R := by
  intro b
  obtain ⟨a, ps, stepped, shaped, early⟩ := first b
  obtain ⟨c, qs, continued, shaped', late⟩ := second a shaped (b.multiplied ps)
  refine ⟨c, ps ++ qs, ?_, shaped', ?_⟩
  · rw [multiplied_append]
    exact run_bind_eq_ok.mpr ⟨a, _, stepped, continued⟩
  · intro W w one kept
    rw [products_append] at kept
    obtain ⟨keptPs, keptQs⟩ := List.forall_mem_append.mp kept
    exact late W w one keptQs (early W w one keptPs)

/-- A step for each of a list. -/
theorem mapM {as : List γ} {f : γ → Build F β} {Q : γ → β → (Wire → Scalar F) → Prop}
    (each : ∀ a ∈ as, Multiplies (f a) (fun _ => True) (Q a)) :
    Multiplies (as.mapM f) (·.length = as.length) fun cs w => List.Forall₂ (fun a c => Q a c w) as cs := by
  induction as with
  | nil =>
    rw [List.mapM_nil]
    exact .pure rfl fun _ _ => .nil
  | cons a rest ih =>
    obtain ⟨first, later⟩ := List.forall_mem_cons.mp each
    rw [List.mapM_cons]
    refine first.bind fun c _ => (ih later).bind fun cs length => .pure ?_ ?_
    · rw [List.length_cons, List.length_cons, length]
    · intro w _ others own
      exact .cons own others

theorem vectorMapM {size : Nat} {as : Vector γ size} {f : γ → Build F β} {Q : γ → β → (Wire → Scalar F) → Prop}
    (each : ∀ a ∈ as, Multiplies (f a) (fun _ => True) (Q a)) :
    Multiplies (as.mapM f) (fun _ => True) fun cs w => ∀ i (_ : i < size), Q as[i] cs[i] w := by
  intro b
  obtain ⟨cs, pairs, done, -, holds⟩ := mapM (fun a member => each a (Vector.mem_toList_iff.mp member)) b
  rw [← toList_mapM, run_map_eq_ok] at done
  obtain ⟨r, done, rfl⟩ := done
  refine ⟨r, pairs, done, trivial, fun W w one kept i below => ?_⟩
  have related := (List.forall₂_iff_get.mp (holds W w one kept)).2 i (by simpa using below) (by simpa using below)
  rwa [List.get_eq_getElem, List.get_eq_getElem, Vector.getElem_toList, Vector.getElem_toList] at related

end Multiplies

theorem mul_eq (x y : LinearForm F) (b : Builder F) :
    mul x y b = .ok (.wire (.wrap b.nextWire)) (b.multiplied [(x, y)]) := by
  simp only [multiplied, products, List.mapIdx_cons, List.mapIdx_nil, List.length_singleton, Nat.add_zero]
  rfl

theorem mul_multiplies (x y : LinearForm F) :
    Multiplies (mul x y) (fun _ => True) fun z w => z.eval w = x.eval w * y.eval w := by
  intro b
  refine ⟨.wire (.wrap b.nextWire), [(x, y)], mul_eq x y b, trivial, ?_⟩
  intro W w _ kept
  have product : (Instruction.product x y (.wrap b.nextWire)).Holds W w := kept _ (by simp [products])
  rw [LinearForm.eval_wire]
  exact List.singleton_inj.mp product

theorem select_multiplies (c t f : LinearForm F) :
    Multiplies (select c t f) (fun _ => True) fun z w => z.eval w = f.eval w + c.eval w * (t.eval w - f.eval w) := by
  refine (mul_multiplies c (t - f)).bind fun scaled _ => .pure trivial fun w _ product => ?_
  rw [LinearForm.eval_add, product, LinearForm.eval_sub]

/-- Products of forms that can be read rule no assignment out, if there are numbers for all wires. -/
theorem advances_multiplied {W : World F} {b : Builder F} (sound : b.Sound W) {pairs : List (LinearForm F × LinearForm F)}
    (after : (b.multiplied pairs).WellFormed) : Advances W b (b.multiplied pairs) := by
  induction pairs generalizing b with
  | nil =>
    rw [multiplied_nil]
    exact .refl sound
  | cons p rest ih =>
    have split : b.multiplied (p :: rest) = (b.multiplied [p]).multiplied rest := multiplied_append b [p] rest
    have inOrder := sound.wellFormed.inOrder_products after
    rw [products_cons] at inOrder
    obtain ⟨readable, -⟩ := inOrder
    have left := readable p.1 (by simp [Instruction.inputs])
    have right := readable p.2 (by simp [Instruction.inputs])
    obtain ⟨z, b₁, done, first, -⟩ := mul_makes sound left right
    cases (mul_eq p.1 p.2 b).symm.trans done
    rw [split] at after ⊢
    exact first.trans (ih first.sound after)

/-- A step that records products only makes what it says, from every builder that keeps the rules. -/
theorem Multiplies.makes [Legible α] {W : World F} {b : Builder F} {step : Build F α} {Shape : α → Prop}
    {Q : α → (Wire → Scalar F) → Prop} (multiplies : Multiplies step Shape Q) (sound : b.Sound W) (keeps : Keeps b step) :
    Makes W b step Q := by
  obtain ⟨a, pairs, done, -, holds⟩ := multiplies b
  obtain ⟨continues, legible⟩ := keeps.made done
  refine ⟨a, _, done, advances_multiplied sound continues.wellFormed, legible, fun w later => ?_⟩
  refine holds W w later.one fun i member => later.instructions i ?_
  simp [multiplied, member]

end Builder
end ArithCircuit
