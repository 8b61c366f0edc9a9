import ArithCircuit.Builder.Gadgets
import ArithCircuit.Proofs.Builder.Recording

/-!
What each gadget means. Hints may give anything that a rule allows; a gadget that takes a value from
a hint records constraints that leave it no other, so its meaning does not mention the rule.
-/
namespace ArithCircuit
variable {F : ScalarField}

/-- A rule under which builtin hints may give what they give. -/
def HintRule.Allows (rule : HintRule F) : Prop :=
  ∀ (hint : BuiltinHint) (inputs outputs : List (Scalar F)), hint.run inputs outputs.length = .ok outputs →
    rule hint.name inputs outputs

namespace Builder
variable {W : World F} {b : Builder F}

open LinearForm (eval_congr)

theorem mul_performs (good : b.Good W) {lhs rhs : LinearForm F} (left : lhs.Reads b.nextWire) (right : rhs.Reads b.nextWire) :
    Performs W b (mul lhs rhs) fun w z => z = lhs.eval w * rhs.eval w := by
  refine (performs_wire good (fun out => .product lhs rhs out) (fun _ => rfl) ?_ nofun rfl).congr ?_
  · simpa [Instruction.inputs] using And.intro left right
  · simp [Instruction.Produces]

theorem reify_performs (good : b.Good W) {e : LinearForm F} (reads : e.Reads b.nextWire) :
    Performs W b (reify e) fun w z => z = e.eval w := by
  refine (performs_wire good (fun out => .linear e out) (fun _ => rfl) ?_ nofun rfl).congr ?_
  · simpa [Instruction.inputs] using reads
  · simp [Instruction.Produces]

theorem recordBuiltin_performs (good : b.Good W) (hint : BuiltinHint) {inputs : List (LinearForm F)}
    (reads : ∀ e ∈ inputs, e.Reads b.nextWire) :
    Performs W b (recordBuiltin hint inputs) fun w z => W.rule hint.name (inputs.map (·.eval w)) [z] := by
  refine performs_wire good (fun out => .hint hint.name inputs [out]) (fun _ => rfl) reads ?_ rfl
  exact fun _ same => ⟨hint, Option.some.inj same⟩

theorem recordHint_performs (good : b.Good W) (hint : BuiltinHint) {inputs : List (LinearForm F)}
    (reads : ∀ e ∈ inputs, e.Reads b.nextWire) (count : Nat) :
    Performs W b (recordHint hint.name inputs count) fun w ys =>
      ys.length = count ∧ W.rule hint.name (inputs.map (·.eval w)) ys := by
  refine performs_wires good (fun outs => .hint hint.name inputs outs) (fun _ => rfl) count (fun _ => reads) ?_ nofun
  exact fun _ _ same => ⟨hint, Option.some.inj same⟩

theorem product_performs (good : b.Good W) {lhs rhs : LinearForm F} (left : lhs.Reads b.nextWire)
    (right : rhs.Reads b.nextWire) : Performs W b (product lhs rhs) fun w z => z = lhs.eval w * rhs.eval w := by
  rw [product]
  split
  · rename_i k constant
    refine (Performs.form good (right.scale k)).congr fun satisfied => ?_
    rw [LinearForm.eval_scale, LinearForm.eval_of_constant? constant satisfied.one]
  · rename_i k _ constant
    refine (Performs.form good (left.scale k)).congr fun satisfied => ?_
    rw [LinearForm.eval_scale, LinearForm.eval_of_constant? constant satisfied.one, mul_comm]
  · exact mul_performs good left right

theorem select_performs (good : b.Good W) {c t f : LinearForm F} (readsC : c.Reads b.nextWire)
    (readsT : t.Reads b.nextWire) (readsF : f.Reads b.nextWire) :
    Performs W b (select c t f) fun w z => z = f.eval w + c.eval w * (t.eval w - f.eval w) := by
  refine (Performs.bind (S := fun w y z => z = f.eval w + y) (mul_performs good readsC (readsT.sub readsF))
    (fun scaled b₁ recorded reads _ => ?_) (fun agree same => ?_)).congr ?_
  · exact (Performs.form recorded.good ((LinearForm.reads_mono recorded.nextWire readsF).add reads)).congr (by simp)
  · rwa [← eval_congr readsF agree]
  · simp

/-- Adding products to a sum, one at a time. -/
theorem addProducts_performs (good : b.Good W) {sum : LinearForm F} {pairs : List (LinearForm F × LinearForm F)}
    (readsSum : sum.Reads b.nextWire) (reads : ∀ p ∈ pairs, p.1.Reads b.nextWire ∧ p.2.Reads b.nextWire) :
    Performs W b (addProducts sum pairs) fun w z =>
      z = sum.eval w + (pairs.map fun p => p.1.eval w * p.2.eval w).sum := by
  induction pairs generalizing sum b with
  | nil => exact (Performs.form good readsSum).congr (by simp)
  | cons pair rest ih =>
    obtain ⟨⟨left, right⟩, others⟩ := List.forall_mem_cons.mp reads
    refine (Performs.bind (S := fun w y z => z = sum.eval w + y + (rest.map fun p => p.1.eval w * p.2.eval w).sum)
      (mul_performs good left right) (fun xy b₁ recorded read _ => ?_) (fun {w w'} _ _ agree same => ?_)).congr ?_
    · refine (ih recorded.good ((LinearForm.reads_mono recorded.nextWire readsSum).add read) fun p member => ?_).congr
        (by simp)
      obtain ⟨first, second⟩ := others p member
      exact ⟨LinearForm.reads_mono recorded.nextWire first, LinearForm.reads_mono recorded.nextWire second⟩
    · have kept : (rest.map fun p => p.1.eval w * p.2.eval w) = rest.map fun p => p.1.eval w' * p.2.eval w' := by
        refine List.map_congr_left fun p member => ?_
        rw [eval_congr (others p member).1 agree, eval_congr (others p member).2 agree]
      rwa [← eval_congr readsSum agree, ← kept]
    · simp [add_assoc]

theorem innerProduct_performs (good : b.Good W) {xs ys : List (LinearForm F)} (left : ∀ e ∈ xs, e.Reads b.nextWire)
    (right : ∀ e ∈ ys, e.Reads b.nextWire) :
    Performs W b (innerProduct xs ys) fun w z =>
      xs.length = ys.length ∧ z = ((xs.zip ys).map fun p => p.1.eval w * p.2.eval w).sum := by
  rw [innerProduct]
  split
  · exact .failed _ nofun
  · rename_i same
    refine (addProducts_performs good (LinearForm.reads_zero _) fun p member => ?_).congr (by simp [not_not.mp same])
    exact ⟨left p.1 (List.of_mem_zip member).1, right p.2 (List.of_mem_zip member).2⟩

/-! ### Assertions -/

theorem requireZero_performs (good : b.Good W) (assertion : Assertion) {e : LinearForm F} (reads : e.Reads b.nextWire) :
    Performs W b (requireZero assertion e) fun w (_ : Unit) => e.eval w = 0 := by
  rw [requireZero]
  split
  · rename_i k constant
    split
    · rename_i zero
      refine (Performs.done good).congr fun satisfied => ?_
      rw [LinearForm.eval_of_constant? constant satisfied.one, (Scalar.isZero_iff k).mp zero]
      simp
    · rename_i nonzero
      refine (reject_performs good assertion k).congr fun satisfied => ?_
      rw [LinearForm.eval_of_constant? constant satisfied.one, ← Scalar.isZero_iff, false_iff]
      exact nonzero
  · exact recordConstraint_performs good reads

theorem assertEqual_performs (good : b.Good W) {lhs rhs : LinearForm F} (left : lhs.Reads b.nextWire)
    (right : rhs.Reads b.nextWire) : Performs W b (assertEqual lhs rhs) fun w (_ : Unit) => lhs.eval w = rhs.eval w := by
  refine (requireZero_performs good .equal (left.sub right)).congr fun _ => ?_
  rw [LinearForm.eval_sub, sub_eq_zero]

/-- A product that is compared with a form that is there already. -/
theorem compareProduct_performs (good : b.Good W) {x y expected : LinearForm F} (readsX : x.Reads b.nextWire)
    (readsY : y.Reads b.nextWire) (reads : expected.Reads b.nextWire) (difference : LinearForm F → LinearForm F)
    (compares : ∀ p w, (difference p).eval w = p.eval w - expected.eval w)
    (readsDifference : ∀ {n p}, p.Reads n → b.nextWire ≤ n → (difference p).Reads n) :
    Performs W b (do
      let xy ← mul x y
      recordConstraint (difference xy)) fun w (_ : Unit) => x.eval w * y.eval w = expected.eval w := by
  refine (Performs.bind (S := fun w p _ => p = expected.eval w) (mul_performs good readsX readsY)
    (fun xy b₁ recorded read _ => ?_) (fun agree same => ?_)).congr (by simp)
  · refine (recordConstraint_performs recorded.good (readsDifference read recorded.nextWire)).congr fun _ => ?_
    rw [compares, sub_eq_zero, Readout.value_form]
  · rwa [← eval_congr reads agree]

/-- A product that must be one. -/
theorem unitProduct_performs (good : b.Good W) {x y : LinearForm F} (readsX : x.Reads b.nextWire)
    (readsY : y.Reads b.nextWire) :
    Performs W b (do
      let xy ← mul x y
      recordConstraint (xy - .constant 1)) fun w (_ : Unit) => x.eval w * y.eval w = 1 := by
  have constant {n : Nat} (le : b.nextWire ≤ n) : (LinearForm.constant (1 : Scalar F)).Reads n :=
    LinearForm.reads_constant (good.positive.trans_le le) 1
  refine (compareProduct_performs good readsX readsY (constant le_rfl) _ (fun _ _ => LinearForm.eval_sub ..)
    fun read le => read.sub (constant le)).congr fun satisfied => ?_
  rw [LinearForm.eval_constant satisfied.one]

/-- A hinted value whose product with an element is one can only be the inverse. -/
theorem hinted_inverse_iff (allows : W.rule.Allows) {x y : Scalar F} :
    W.rule BuiltinHint.inverse.name [x] [y] ∧ x * y = 1 ↔ x ≠ 0 ∧ y = x⁻¹ := by
  constructor
  · rintro ⟨_, product⟩
    exact ⟨left_ne_zero_of_mul_eq_one product, (DivisionMonoid.inv_eq_of_mul x y product).symm⟩
  · rintro ⟨nonzero, rfl⟩
    refine ⟨allows .inverse [x] [x⁻¹] ?_, mul_inv_cancel₀ nonzero⟩
    simp [BuiltinHint.run, Hint.inverse, Scalar.inv?_of_ne_zero nonzero]

theorem assertDistinct_performs (allows : W.rule.Allows) (good : b.Good W) {lhs rhs : LinearForm F}
    (left : lhs.Reads b.nextWire) (right : rhs.Reads b.nextWire) :
    Performs W b (assertDistinct lhs rhs) fun w (_ : Unit) => lhs.eval w ≠ rhs.eval w := by
  have reads : (lhs - rhs).Reads b.nextWire := left.sub right
  rw [assertDistinct]
  split
  · rename_i k constant
    have value {w : Wire → Scalar F} (satisfied : b.Satisfied W w) : lhs.eval w - rhs.eval w = k := by
      rw [← LinearForm.eval_sub, LinearForm.eval_of_constant? constant satisfied.one]
    split
    · rename_i zero
      refine (reject_performs good .distinct k).congr fun satisfied => ?_
      rw [← sub_ne_zero, value satisfied, (Scalar.isZero_iff k).mp zero]
      simp
    · rename_i nonzero
      refine (Performs.done good).congr fun satisfied => ?_
      rw [← sub_ne_zero, value satisfied, ne_eq, ← Scalar.isZero_iff, true_iff]
      exact nonzero
  · refine (Performs.bind (S := fun w y _ => (lhs - rhs).eval w * y = 1)
      (recordBuiltin_performs good .inverse (List.forall_mem_singleton.mpr reads))
      (fun inverse b₁ recorded read _ => ?_) (fun agree same => ?_)).congr fun {w} _ satisfied => ?_
    · exact unitProduct_performs recorded.good (LinearForm.reads_mono recorded.nextWire reads) read
    · rwa [← eval_congr reads agree]
    · simp only [List.map_singleton, hinted_inverse_iff allows, LinearForm.eval_sub, sub_ne_zero]
      exact ⟨fun ⟨_, nonzero, _⟩ => nonzero, fun nonzero => ⟨_, nonzero, rfl⟩⟩

/-- A form that is noted as boolean already costs nothing; otherwise the note stands for the product that is recorded. -/
theorem assertBoolean_performs (good : b.Good W) {e : LinearForm F} (reads : e.Reads b.nextWire) :
    Performs W b (assertBoolean e) fun w (_ : Unit) => e.eval w = 0 ∨ e.eval w = 1 := by
  rw [assertBoolean]
  split
  · rename_i k constant
    split
    · rename_i boolean
      refine (Performs.done good).congr fun satisfied => ?_
      rw [LinearForm.eval_of_constant? constant satisfied.one]
      simpa using boolean
    · rename_i other
      refine (reject_performs good .boolean k).congr fun satisfied => ?_
      rw [LinearForm.eval_of_constant? constant satisfied.one]
      simpa using other
  · intro _ b' done
    obtain ⟨known, b₁, noted, continued⟩ := bind_eq_ok.mp done
    cases noted
    by_cases before : b.booleans.contains e
    · obtain ⟨_, boolean⟩ := good.booleans e before
      rw [if_pos before] at continued
      cases continued
      refine ⟨note_recorded good reads boolean, trivial, fun {w} satisfied => ⟨fun _ _ _ => ?_, fun _ _ _ => ?_⟩⟩
      · exact boolean w satisfied
      · exact ⟨w, fun _ _ => rfl, satisfied_note_iff.mpr satisfied, rfl⟩
    · rw [if_neg before] at continued
      have one := LinearForm.reads_constant good.positive (1 : Scalar F)
      have asserted := (compareProduct_performs good reads (reads.sub one) (LinearForm.reads_zero _) id
        (by simp) (fun read _ => read)).congr (S := fun w (_ : Unit) => e.eval w = 0 ∨ e.eval w = 1) fun satisfied => by
          rw [LinearForm.eval_zero, mul_eq_zero, LinearForm.eval_sub, LinearForm.eval_constant satisfied.one, sub_eq_zero]
      obtain ⟨recorded, _, gives⟩ := asserted () _ rfl
      cases continued
      have after := note_recorded recorded.good (LinearForm.reads_mono recorded.nextWire reads) fun w later =>
        (gives (recorded.satisfied later)).sound w (fun _ _ => rfl) later
      exact ⟨recorded.trans after, trivial, fun satisfied => (gives satisfied).note e⟩

/-- A form that is boolean by what is recorded may be noted so. -/
theorem markBoolean_performs (good : b.Good W) {e : LinearForm F} (reads : e.Reads b.nextWire)
    (boolean : ∀ w, b.Satisfied W w → e.eval w = 0 ∨ e.eval w = 1) :
    Performs W b (markBoolean e) fun _ (_ : Unit) => True := by
  rw [markBoolean]
  split
  · exact .done good
  · rintro _ _ ⟨⟩
    refine ⟨note_recorded good reads boolean, trivial, fun {w} satisfied => ⟨fun _ _ _ => trivial, fun _ _ _ => ?_⟩⟩
    exact ⟨w, fun _ _ => rfl, satisfied_note_iff.mpr satisfied, rfl⟩

/-! ### Division -/

theorem inverse_performs (allows : W.rule.Allows) (good : b.Good W) {x : LinearForm F} (reads : x.Reads b.nextWire) :
    Performs W b (inverse x) fun w z => x.eval w ≠ 0 ∧ z = (x.eval w)⁻¹ := by
  rw [inverse]
  split
  · rename_i k constant
    split
    · rename_i y found
      have nonzero : k ≠ 0 := by
        rintro rfl
        simp at found
      obtain rfl : k⁻¹ = y := Option.some.inj ((Scalar.inv?_of_ne_zero nonzero).symm.trans found)
      refine (Performs.form good (LinearForm.reads_constant good.positive _)).congr fun satisfied => ?_
      rw [LinearForm.eval_constant satisfied.one, LinearForm.eval_of_constant? constant satisfied.one]
      exact (and_iff_right nonzero).symm
    · exact .failed _ nofun
  · refine (Performs.bind (S := fun w y z => x.eval w * y = 1 ∧ z = y)
      (recordBuiltin_performs good .inverse (List.forall_mem_singleton.mpr reads))
      (fun y b₁ recorded read _ => ?_) (fun agree same => ?_)).congr fun _ => ?_
    · rw [← bind_assoc]
      refine (Performs.demand (S := fun w z => z = y.eval w)
        (unitProduct_performs recorded.good (LinearForm.reads_mono recorded.nextWire reads) read)
        (fun b₂ recorded' _ => ?_) (fun agree same => ?_))
      · exact Performs.form recorded'.good (LinearForm.reads_mono recorded'.nextWire read)
      · rwa [← eval_congr read agree]
    · rwa [← eval_congr reads agree]
    · simp only [List.map_singleton, ← and_assoc, hinted_inverse_iff allows]
      constructor
      · rintro ⟨y, ⟨nonzero, inverted⟩, rfl⟩
        exact ⟨nonzero, inverted⟩
      · exact fun ⟨nonzero, inverted⟩ => ⟨_, ⟨nonzero, inverted⟩, rfl⟩

theorem div_performs (allows : W.rule.Allows) (good : b.Good W) {x y : LinearForm F} (left : x.Reads b.nextWire)
    (right : y.Reads b.nextWire) :
    Performs W b (div x y) fun w z => y.eval w ≠ 0 ∧ z = x.eval w * (y.eval w)⁻¹ := by
  refine (Performs.bind (S := fun w i z => z = x.eval w * i) (inverse_performs allows good right)
    (fun i b₁ recorded read _ => ?_) (fun agree same => ?_)).congr fun _ => ?_
  · exact product_performs recorded.good (LinearForm.reads_mono recorded.nextWire left) read
  · rwa [← eval_congr left agree]
  · constructor
    · rintro ⟨_, ⟨nonzero, rfl⟩, divided⟩
      exact ⟨nonzero, divided⟩
    · exact fun ⟨nonzero, divided⟩ => ⟨_, ⟨nonzero, rfl⟩, divided⟩

/-- Nothing but the hint keeps an unchecked division from zero, so its meaning needs a rule that does. -/
theorem divUnchecked_performs (allows : W.rule.Allows)
    (divides : ∀ {x y q : Scalar F}, W.rule BuiltinHint.quotient.name [x, y] [q] → y ≠ 0) (good : b.Good W)
    {x y : LinearForm F} (left : x.Reads b.nextWire) (right : y.Reads b.nextWire) :
    Performs W b (divUnchecked x y) fun w z => y.eval w ≠ 0 ∧ z = x.eval w * (y.eval w)⁻¹ := by
  rw [divUnchecked]
  split
  · rename_i k constant
    split
    · rename_i i found
      have nonzero : k ≠ 0 := by
        rintro rfl
        simp at found
      obtain rfl : k⁻¹ = i := Option.some.inj ((Scalar.inv?_of_ne_zero nonzero).symm.trans found)
      refine (Performs.form good (left.scale _)).congr fun satisfied => ?_
      rw [LinearForm.eval_scale, LinearForm.eval_of_constant? constant satisfied.one, mul_comm]
      exact (and_iff_right nonzero).symm
    · exact .failed _ nofun
  · refine (Performs.bind (S := fun w q z => q * y.eval w = x.eval w ∧ z = q)
      (recordBuiltin_performs good .quotient (List.forall_mem_cons.mpr ⟨left, List.forall_mem_singleton.mpr right⟩))
      (fun q b₁ recorded read _ => ?_) (fun agree same => ?_)).congr fun {w} z _ => ?_
    · have left' := LinearForm.reads_mono recorded.nextWire left
      have right' := LinearForm.reads_mono recorded.nextWire right
      rw [← bind_assoc]
      refine (Performs.demand (S := fun w z => z = q.eval w)
        (compareProduct_performs recorded.good read right' left' (fun p => p - x) (fun _ _ => LinearForm.eval_sub ..)
          fun here le => here.sub (LinearForm.reads_mono le left'))
        (fun b₂ recorded' _ => ?_) (fun agree same => ?_))
      · exact Performs.form recorded'.good (LinearForm.reads_mono recorded'.nextWire read)
      · rwa [← eval_congr read agree]
    · rwa [← eval_congr left agree, ← eval_congr right agree]
    · simp only [List.map_cons, List.map_nil]
      constructor
      · rintro ⟨q, hinted, product, rfl⟩
        exact ⟨divides hinted, (eq_mul_inv_iff_mul_eq₀ (divides hinted)).mpr product⟩
      · rintro ⟨nonzero, rfl⟩
        refine ⟨_, allows .quotient [x.eval w, y.eval w] [x.eval w * (y.eval w)⁻¹] ?_, ?_, rfl⟩
        · simp [BuiltinHint.run, Hint.quotient, Scalar.inv?_of_ne_zero nonzero]
        · exact inv_mul_cancel_right₀ nonzero _

/-- Two products leave only the right answer to whether a value is zero, whatever was hinted. -/
theorem hinted_isZero_iff (allows : W.rule.Allows) {x r : Scalar F} :
    (W.rule BuiltinHint.isZero.name [x] [r] ∧ ∃ m, W.rule BuiltinHint.inverseOrZero.name [x] [m] ∧
      x * r = 0 ∧ x * m = 1 - r) ↔ r = Scalar.ofBool x.isZero := by
  by_cases zero : x = 0
  · subst zero
    have answer : Scalar.ofBool (0 : Scalar F).isZero = (1 : Scalar F) := rfl
    rw [answer]
    constructor
    · rintro ⟨_, m, _, _, second⟩
      rw [zero_mul, eq_comm, sub_eq_zero] at second
      exact second.symm
    · rintro rfl
      refine ⟨allows .isZero [0] [1] ?_, 0, allows .inverseOrZero [0] [0] ?_, zero_mul 1, ?_⟩
      · simp [BuiltinHint.run, Hint.isZero, answer]
      · simp [BuiltinHint.run, Hint.inverseOrZero]
      · rw [zero_mul, sub_self]
  · have nonzero : x.isZero = false := (Scalar.isZero_eq_false_iff x).mpr zero
    rw [nonzero, Scalar.ofBool_false]
    constructor
    · rintro ⟨_, m, _, first, _⟩
      exact (mul_eq_zero.mp first).resolve_left zero
    · rintro rfl
      refine ⟨allows .isZero [x] [0] ?_, x⁻¹, allows .inverseOrZero [x] [x⁻¹] ?_, mul_zero x, ?_⟩
      · simp [BuiltinHint.run, Hint.isZero, nonzero]
      · simp [BuiltinHint.run, Hint.inverseOrZero]
      · rw [mul_inv_cancel₀ zero, sub_zero]

/-- The two products of a zero test, which also make its answer boolean. -/
theorem zeroTest_performs (good : b.Good W) {x r m : LinearForm F} (readsX : x.Reads b.nextWire)
    (readsR : r.Reads b.nextWire) (readsM : m.Reads b.nextWire) :
    Performs W b (do
      let xr ← mul x r
      recordConstraint xr
      let xm ← mul x m
      recordConstraint (xm - .constant 1 + r)
      markBoolean r
      return r) fun w z => x.eval w * r.eval w = 0 ∧ x.eval w * m.eval w = 1 - r.eval w ∧ z = r.eval w := by
  have one {n : Nat} (le : b.nextWire ≤ n) : (LinearForm.constant (1 : Scalar F)).Reads n :=
    LinearForm.reads_constant (good.positive.trans_le le) 1
  rw [← bind_assoc]
  refine (Performs.demand (S := fun w z => x.eval w * m.eval w = 1 - r.eval w ∧ z = r.eval w)
    (compareProduct_performs good readsX readsR (LinearForm.reads_zero _) id (by simp) fun read _ => read)
    (fun b₁ recorded first => ?_) (fun agree same => ?_)).congr (by simp)
  · have readsX := LinearForm.reads_mono recorded.nextWire readsX
    have readsR := LinearForm.reads_mono recorded.nextWire readsR
    have readsM := LinearForm.reads_mono recorded.nextWire readsM
    have one {n : Nat} (le : b₁.nextWire ≤ n) := one (recorded.nextWire.trans le)
    rw [← bind_assoc]
    refine (Performs.demand (γ := LinearForm F) (S := fun w z => z = r.eval w)
      (compareProduct_performs recorded.good readsX readsM ((one le_rfl).sub readsR) (fun p => p - .constant 1 + r)
        (by simp [sub_add]) fun read le => (read.sub (one le)).add (LinearForm.reads_mono le readsR))
      (fun b₂ recorded' second => ?_) (fun agree same => ?_)).congr fun satisfied => ?_
    · have readsR := LinearForm.reads_mono recorded'.nextWire readsR
      refine (Performs.demand (S := fun w z => z = r.eval w)
        (markBoolean_performs recorded'.good readsR fun w later => ?_) (fun b₃ recorded'' _ => ?_)
        (fun agree same => ?_)).congr (by simp)
      · have product : x.eval w * r.eval w = 0 := first w (recorded'.satisfied later)
        rcases mul_eq_zero.mp product with zero | zero
        · have compared := second w later
          rw [zero, zero_mul, LinearForm.eval_sub, LinearForm.eval_constant later.one, eq_comm, sub_eq_zero] at compared
          exact .inr compared.symm
        · exact .inl zero
      · exact Performs.form recorded''.good (LinearForm.reads_mono recorded''.nextWire readsR)
      · rwa [← eval_congr readsR agree]
    · rwa [← eval_congr readsR agree]
    · rw [LinearForm.eval_sub, LinearForm.eval_constant satisfied.one]
  · rwa [← eval_congr readsX agree, ← eval_congr readsM agree, ← eval_congr readsR agree]

theorem isZero_performs (allows : W.rule.Allows) (good : b.Good W) {x : LinearForm F} (reads : x.Reads b.nextWire) :
    Performs W b (isZero x) fun w z => z = Scalar.ofBool (x.eval w).isZero := by
  rw [isZero]
  split
  · rename_i k constant
    refine (Performs.form good (LinearForm.reads_constant good.positive _)).congr fun satisfied => ?_
    rw [LinearForm.eval_constant satisfied.one, LinearForm.eval_of_constant? constant satisfied.one]
  · refine (Performs.bind (S := fun w r z => ∃ m, W.rule BuiltinHint.inverseOrZero.name [x.eval w] [m] ∧
        x.eval w * r = 0 ∧ x.eval w * m = 1 - r ∧ z = r)
      (recordBuiltin_performs good .isZero (List.forall_mem_singleton.mpr reads))
      (fun r b₁ recorded₁ readsR _ => ?_) (fun agree same => ?_)).congr fun _ => ?_
    · have readsX := LinearForm.reads_mono recorded₁.nextWire reads
      refine Performs.bind (S := fun w m z => x.eval w * r.eval w = 0 ∧ x.eval w * m = 1 - r.eval w ∧ z = r.eval w)
        (recordBuiltin_performs recorded₁.good .inverseOrZero (List.forall_mem_singleton.mpr readsX))
        (fun m b₂ recorded₂ readsM _ => ?_) (fun agree same => ?_)
      · exact zeroTest_performs recorded₂.good (LinearForm.reads_mono recorded₂.nextWire readsX)
          (LinearForm.reads_mono recorded₂.nextWire readsR) readsM
      · rwa [← eval_congr readsX agree, ← eval_congr readsR agree]
    · rwa [← eval_congr reads agree]
    · simp only [List.map_singleton, ← hinted_isZero_iff allows (W := W)]
      constructor
      · rintro ⟨r, hinted, m, rest, first, second, rfl⟩
        exact ⟨hinted, m, rest, first, second⟩
      · rintro ⟨hinted, m, rest, first, second⟩
        exact ⟨_, hinted, m, rest, first, second, rfl⟩

/-! ### Booleans -/

/-- A gadget of two bits: both are asserted, and a form of them and their product is the result. -/
theorem bitGadget_performs (good : b.Good W) {x y : LinearForm F} (left : x.Reads b.nextWire)
    (right : y.Reads b.nextWire) (op : Bool → Bool → Bool) (form : LinearForm F → LinearForm F)
    (readsForm : ∀ {n p}, b.nextWire ≤ n → p.Reads n → (form p).Reads n)
    (forms : ∀ {p w s t}, x.eval w = Scalar.ofBool s → y.eval w = Scalar.ofBool t → p.eval w = x.eval w * y.eval w →
      (form p).eval w = Scalar.ofBool (op s t)) :
    Performs W b (do
      assertBoolean x
      assertBoolean y
      let xy ← product x y
      let result := form xy
      markBoolean result
      return result) fun w z =>
        ∃ s t, x.eval w = Scalar.ofBool s ∧ y.eval w = Scalar.ofBool t ∧ z = Scalar.ofBool (op s t) := by
  let Q (w : Wire → Scalar F) (z : Scalar F) : Prop :=
    ∃ s t, x.eval w = Scalar.ofBool s ∧ y.eval w = Scalar.ofBool t ∧ z = Scalar.ofBool (op s t)
  have early {n : Nat} (le : b.nextWire ≤ n) {w w' : Wire → Scalar F} {z : Scalar F} (agree : LinearForm.Agree n w w')
      (related : Q w z) : Q w' z := by
    have left := eval_congr (LinearForm.reads_mono le left) agree
    have right := eval_congr (LinearForm.reads_mono le right) agree
    obtain ⟨s, t, bitX, bitY, result⟩ := related
    exact ⟨s, t, left.symm.trans bitX, right.symm.trans bitY, result⟩
  refine (Performs.demand (S := Q) (assertBoolean_performs good left) (fun b₁ recorded₁ bitX => ?_)
    (early le_rfl)).congr fun _ => ?_
  · refine (Performs.demand (S := Q)
      (assertBoolean_performs recorded₁.good (LinearForm.reads_mono recorded₁.nextWire right))
      (fun b₂ recorded₂ bitY => ?_) (early recorded₁.nextWire)).congr fun _ => ?_
    · have recorded := recorded₁.trans recorded₂
      refine (Performs.bind (S := fun w _ z => Q w z)
        (product_performs recorded₂.good (LinearForm.reads_mono recorded.nextWire left)
          (LinearForm.reads_mono recorded.nextWire right))
        (fun xy b₃ recorded₃ read multiplied => ?_) (early recorded.nextWire)).congr (by simp)
      have reads := readsForm (recorded.trans recorded₃).nextWire read
      have result {w : Wire → Scalar F} (later : b₃.Satisfied W w) : Q w ((form xy).eval w) := by
        have second := recorded₃.satisfied later
        obtain ⟨s, bitX⟩ := Scalar.eq_zero_or_one_iff.mp (bitX w (recorded₂.satisfied second))
        obtain ⟨t, bitY⟩ := Scalar.eq_zero_or_one_iff.mp (bitY w second)
        exact ⟨s, t, bitX, bitY, forms bitX bitY (multiplied w later)⟩
      refine (Performs.demand (S := fun w z => z = (form xy).eval w)
        (markBoolean_performs recorded₃.good reads fun w later => ?_)
        (fun b₄ recorded₄ _ => ?_) (fun agree same => ?_)).congr fun {w z} later => ?_
      · obtain ⟨s, t, _, _, value⟩ := result later
        exact Scalar.eq_zero_or_one_iff.mpr ⟨_, value⟩
      · exact Performs.form recorded₄.good (LinearForm.reads_mono recorded₄.nextWire reads)
      · rwa [← eval_congr reads agree]
      · rw [true_and]
        constructor
        · rintro rfl
          exact result later
        · rintro ⟨s, t, bitX, bitY, rfl⟩
          exact (forms bitX bitY (multiplied w later)).symm
    · refine ⟨And.right, fun related => ⟨?_, related⟩⟩
      obtain ⟨s, t, _, bitY, _⟩ := related
      exact Scalar.eq_zero_or_one_iff.mpr ⟨t, bitY⟩
  · refine ⟨And.right, fun related => ⟨?_, related⟩⟩
    obtain ⟨s, t, bitX, _, _⟩ := related
    exact Scalar.eq_zero_or_one_iff.mpr ⟨s, bitX⟩

theorem and_performs (good : b.Good W) {x y : LinearForm F} (left : x.Reads b.nextWire) (right : y.Reads b.nextWire) :
    Performs W b (and x y) fun w z =>
      ∃ s t, x.eval w = Scalar.ofBool s ∧ y.eval w = Scalar.ofBool t ∧ z = Scalar.ofBool (s && t) := by
  refine bitGadget_performs good left right _ (fun p => p) (fun _ read => read) fun {p w s t} bitX bitY multiplied => ?_
  rw [multiplied, bitX, bitY]
  cases s <;> cases t <;> simp

theorem or_performs (good : b.Good W) {x y : LinearForm F} (left : x.Reads b.nextWire) (right : y.Reads b.nextWire) :
    Performs W b (or x y) fun w z =>
      ∃ s t, x.eval w = Scalar.ofBool s ∧ y.eval w = Scalar.ofBool t ∧ z = Scalar.ofBool (s || t) := by
  refine bitGadget_performs good left right _ (fun p => x + y - p) (fun le read => ?_) fun {p w s t} bitX bitY multiplied => ?_
  · exact ((LinearForm.reads_mono le left).add (LinearForm.reads_mono le right)).sub read
  · rw [LinearForm.eval_sub, LinearForm.eval_add, multiplied, bitX, bitY]
    cases s <;> cases t <;> simp

theorem xor_performs (good : b.Good W) {x y : LinearForm F} (left : x.Reads b.nextWire) (right : y.Reads b.nextWire) :
    Performs W b (xor x y) fun w z =>
      ∃ s t, x.eval w = Scalar.ofBool s ∧ y.eval w = Scalar.ofBool t ∧ z = Scalar.ofBool (s ^^ t) := by
  refine bitGadget_performs good left right _ (fun p => x + y - p.scale (.ofNat 2)) (fun le read => ?_)
    fun {p w s t} bitX bitY multiplied => ?_
  · exact ((LinearForm.reads_mono le left).add (LinearForm.reads_mono le right)).sub (read.scale _)
  · have two : (Scalar.ofNat 2 : Scalar F) = 1 + 1 := (Scalar.natCast_eq 2).symm.trans (by norm_num)
    rw [LinearForm.eval_sub, LinearForm.eval_add, LinearForm.eval_scale, multiplied, bitX, bitY, two]
    cases s <;> cases t <;> simp

/-- The three selections of a lookup, by forms that need not be bits. -/
theorem selections_performs (good : b.Good W) {c₀ c₁ v₀ v₁ v₂ v₃ : LinearForm F}
    (reads : ∀ e ∈ [c₀, c₁, v₀, v₁, v₂, v₃], e.Reads b.nextWire) :
    Performs W b (do
      let low ← select c₀ v₁ v₀
      let high ← select c₀ v₃ v₂
      select c₁ high low) fun w z => ∃ low, low = v₀.eval w + c₀.eval w * (v₁.eval w - v₀.eval w) ∧
        z = low + c₁.eval w * (v₂.eval w + c₀.eval w * (v₃.eval w - v₂.eval w) - low) := by
  simp only [List.forall_mem_cons, List.not_mem_nil, false_implies, implies_true, and_true] at reads
  obtain ⟨reads₀, reads₁, readsV₀, readsV₁, readsV₂, readsV₃⟩ := reads
  refine Performs.bind (S := fun w low z =>
      z = low + c₁.eval w * (v₂.eval w + c₀.eval w * (v₃.eval w - v₂.eval w) - low))
    (select_performs good reads₀ readsV₁ readsV₀) (fun low b₁ recorded readsL _ => ?_) (fun agree same => ?_)
  · have reads₀ := LinearForm.reads_mono recorded.nextWire reads₀
    have reads₁ := LinearForm.reads_mono recorded.nextWire reads₁
    refine (Performs.bind (S := fun w high z => z = low.eval w + c₁.eval w * (high - low.eval w))
      (select_performs recorded.good reads₀ (LinearForm.reads_mono recorded.nextWire readsV₃)
        (LinearForm.reads_mono recorded.nextWire readsV₂))
      (fun high b₂ recorded' readsH _ => ?_) (fun agree same => ?_)).congr (by simp)
    · exact select_performs recorded'.good (LinearForm.reads_mono recorded'.nextWire reads₁) readsH
        (LinearForm.reads_mono recorded'.nextWire readsL)
    · rwa [← eval_congr readsL agree, ← eval_congr reads₁ agree]
  · rwa [← eval_congr reads₀ agree, ← eval_congr reads₁ agree, ← eval_congr readsV₂ agree, ← eval_congr readsV₃ agree]

theorem lookup2_performs (good : b.Good W) {c₀ c₁ v₀ v₁ v₂ v₃ : LinearForm F}
    (reads : ∀ e ∈ [c₀, c₁, v₀, v₁, v₂, v₃], e.Reads b.nextWire) :
    Performs W b (lookup2 c₀ c₁ v₀ v₁ v₂ v₃) fun w z =>
      ∃ s t, c₀.eval w = Scalar.ofBool s ∧ c₁.eval w = Scalar.ofBool t ∧
        z = if t then if s then v₃.eval w else v₂.eval w else if s then v₁.eval w else v₀.eval w := by
  let T (w : Wire → Scalar F) (z : Scalar F) : Prop := ∃ low, low = v₀.eval w + c₀.eval w * (v₁.eval w - v₀.eval w) ∧
    z = low + c₁.eval w * (v₂.eval w + c₀.eval w * (v₃.eval w - v₂.eval w) - low)
  have early {n : Nat} (reads : ∀ e ∈ [c₀, c₁, v₀, v₁, v₂, v₃], e.Reads n) {w w' : Wire → Scalar F} {z : Scalar F}
      (agree : LinearForm.Agree n w w') (related : T w z) : T w' z := by
    have same (e : LinearForm F) (member : e ∈ [c₀, c₁, v₀, v₁, v₂, v₃]) : e.eval w = e.eval w' :=
      eval_congr (reads e member) agree
    simpa [T, same c₀, same c₁, same v₀, same v₁, same v₂, same v₃] using related
  refine (Performs.demand (S := fun w z => (c₁.eval w = 0 ∨ c₁.eval w = 1) ∧ T w z)
    (assertBoolean_performs good (reads c₀ (by simp))) (fun b₁ recorded _ => ?_) (fun agree same => ?_)).congr fun _ => ?_
  · have reads e member := LinearForm.reads_mono recorded.nextWire (reads e member)
    refine Performs.demand (assertBoolean_performs recorded.good (reads c₁ (by simp))) (fun b₂ recorded' _ => ?_) (early reads)
    exact selections_performs recorded'.good fun e member => LinearForm.reads_mono recorded'.nextWire (reads e member)
  · rw [← eval_congr (reads c₁ (by simp)) agree]
    exact ⟨same.1, early reads agree same.2⟩
  · rw [Scalar.eq_zero_or_one_iff, Scalar.eq_zero_or_one_iff]
    constructor
    · rintro ⟨⟨s, bit₀⟩, ⟨t, bit₁⟩, _, rfl, rfl⟩
      refine ⟨s, t, bit₀, bit₁, ?_⟩
      rw [bit₀, bit₁]
      cases s <;> cases t <;> simp
    · rintro ⟨s, t, bit₀, bit₁, rfl⟩
      refine ⟨⟨s, bit₀⟩, ⟨t, bit₁⟩, _, rfl, ?_⟩
      rw [bit₀, bit₁]
      cases s <;> cases t <;> simp

end Builder
end ArithCircuit
