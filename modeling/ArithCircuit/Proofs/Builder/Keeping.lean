import ArithCircuit.Builder.Gadgets
import ArithCircuit.Proofs.Builder.WellFormed

/-!
Every builder operation keeps the rules of builders, on operands that can be read. What an operation
makes can be read afterwards.
-/
namespace ArithCircuit
namespace Builder
variable {F : ScalarField} {b : Builder F}

open LinearForm (Readable)

/-! ### Recording -/

section
variable (wellFormed : b.WellFormed)

include wellFormed

theorem mul_keeps {x y : LinearForm F} (left : x.Readable b.nextWire) (right : y.Readable b.nextWire) :
    Keeps b (mul x y) := by
  refine .of_eq (c := b.extend (.product x y (.wrap b.nextWire)) 1) rfl (wellFormed.extend rfl ?_ trivial)
    (Readable.wire (wrap_lt_succ _))
  simp [Instruction.inputs, left, right]

theorem reify_keeps {e : LinearForm F} (readable : e.Readable b.nextWire) : Keeps b (reify e) := by
  refine .of_eq (c := b.extend (.linear e (.wrap b.nextWire)) 1) rfl (wellFormed.extend rfl ?_ trivial)
    (Readable.wire (wrap_lt_succ _))
  simp [Instruction.inputs, readable]

theorem recordBuiltin_keeps (hint : BuiltinHint) {inputs : List (LinearForm F)}
    (readable : ∀ e ∈ inputs, e.Readable b.nextWire) : Keeps b (recordBuiltin hint inputs) :=
  .of_eq (c := b.extend (.hint hint.name inputs [.wrap b.nextWire]) 1) rfl (wellFormed.extend rfl readable trivial)
    (Readable.wire (wrap_lt_succ _))

/-- An instruction that defines new wires. -/
theorem recordWires_keeps (mk : List Wire → Instruction F) (outputs : ∀ outs, (mk outs).outputs = outs) {count : Nat}
    (inputs : ∀ outs, ∀ e ∈ (mk outs).inputs, e.Readable b.nextWire)
    (fits : ∀ outs, outs.length = count → (mk outs).Fits ⟨b.subCircuits.circuits⟩) :
    Keeps b (do
      let outs ← newWires count
      recordInstruction (mk outs)
      return (outs.map LinearForm.wire : List (LinearForm F))) := by
  refine .of_eq (c := b.extend (mk (freshWires b.nextWire count)) count)
    (run_bind_eq_ok.mpr ⟨_, _, newWires_eq count b, rfl⟩) (wellFormed.extend (outputs _) (inputs _) (fits _ (by simp))) ?_
  intro e member
  obtain ⟨out, inside, rfl⟩ := List.mem_map.mp member
  exact Readable.wire (lt_of_mem_freshWires inside).1

theorem recordHint_keeps (name : String) {inputs : List (LinearForm F)} (readable : ∀ e ∈ inputs, e.Readable b.nextWire)
    (count : Nat) : Keeps b (recordHint name inputs count) :=
  recordWires_keeps wellFormed (.hint name inputs) (fun _ => rfl) (fun _ => readable) fun _ _ => trivial

theorem recordConstraint_keeps {e : LinearForm F} (readable : e.Readable b.nextWire) : Keeps b (recordConstraint e) := by
  refine .of_eq rfl (wellFormed.update ?_ wellFormed.outputs_readable wellFormed.booleans wellFormed.unsatisfiable) trivial
  simpa [or_imp, forall_and, readable] using wellFormed.constraints_readable

theorem reject_keeps (assertion : Assertion) (value : Scalar F) : Keeps b (reject assertion value) := by
  refine .of_eq rfl (wellFormed.update wellFormed.constraints_readable wellFormed.outputs_readable wellFormed.booleans ?_) trivial
  intro e found
  cases rejected : b.unsatisfiable with
  | none => exact ⟨assertion, value.val, by simpa [rejected, eq_comm] using found⟩
  | some first =>
    rw [rejected, Option.some_or] at found
    exact wellFormed.unsatisfiable e (rejected.trans found)

theorem noteBoolean_keeps {e : LinearForm F} (readable : e.Readable b.nextWire) : Keeps b (noteBoolean e) := by
  refine .of_eq rfl (wellFormed.update wellFormed.constraints_readable wellFormed.outputs_readable ?_
    wellFormed.unsatisfiable) trivial
  intro d noted
  rcases Std.TreeSet.mem_insert.mp noted with rank | old
  · obtain rfl : e = d := Std.LawfulEqCmp.eq_of_compare rank
    exact readable
  · exact wellFormed.booleans d old

theorem output_keeps {e : LinearForm F} (readable : e.Readable b.nextWire) : Keeps b (output e) := by
  refine .of_eq rfl (wellFormed.update wellFormed.constraints_readable ?_ wellFormed.booleans wellFormed.unsatisfiable) trivial
  simpa [or_imp, forall_and, readable] using wellFormed.outputs_readable

/-! ### Inputs, outputs and hints -/

theorem readable_input {index : Nat} (below : index < b.numInputs) :
    (LinearForm.wire (Wire.input index) : LinearForm F).Readable b.nextWire :=
  Readable.wire ((Nat.succ_le_of_lt below).trans_lt wellFormed.inputs_lt)

theorem input_keeps (index : Nat) : Keeps b (input index) := by
  refine .get ?_
  split
  · exact .throw wellFormed _
  · rename_i inside
    exact .pure wellFormed (readable_input wellFormed (Nat.lt_of_not_le inside))

theorem inputs_keeps : Keeps b inputs := by
  refine .get (.pure wellFormed ?_)
  intro e member
  obtain ⟨i, inside, rfl⟩ := List.mem_map.mp member
  exact readable_input wellFormed (List.mem_range.mp inside)

omit wellFormed in
theorem outputAll_keeps (wellFormed : b.WellFormed) {es : List (LinearForm F)} (readable : ∀ e ∈ es, e.Readable b.nextWire) :
    Keeps b (outputAll es) := by
  induction es generalizing b with
  | nil => exact .pure wellFormed trivial
  | cons e rest ih =>
    obtain ⟨first, later⟩ := List.forall_mem_cons.mp readable
    refine (output_keeps wellFormed first).bind fun next _ => ?_
    exact ih next.wellFormed fun e member => (later e member).mono next.nextWire

theorem hint_keeps (name : String) {inputs : List (LinearForm F)} (readable : ∀ e ∈ inputs, e.Readable b.nextWire)
    (count : Nat) : Keeps b (hint name inputs count) := by
  refine .get ?_
  split
  · exact recordHint_keeps wellFormed name readable count
  · exact .throw wellFormed _

/-! ### Products -/

theorem product_keeps {x y : LinearForm F} (left : x.Readable b.nextWire) (right : y.Readable b.nextWire) :
    Keeps b (product x y) := by
  unfold product
  split
  · exact .pure wellFormed (right.scale _)
  · exact .pure wellFormed (left.scale _)
  · exact mul_keeps wellFormed left right

omit wellFormed in
theorem addProducts_keeps (wellFormed : b.WellFormed) {sum : LinearForm F} {pairs : List (LinearForm F × LinearForm F)}
    (readable : sum.Readable b.nextWire) (all : ∀ p ∈ pairs, p.1.Readable b.nextWire ∧ p.2.Readable b.nextWire) :
    Keeps b (addProducts sum pairs) := by
  induction pairs generalizing b sum with
  | nil => exact .pure wellFormed readable
  | cons p rest ih =>
    obtain ⟨⟨left, right⟩, later⟩ := List.forall_mem_cons.mp all
    refine (mul_keeps wellFormed left right).bind fun next made => ?_
    refine ih next.wellFormed ((readable.mono next.nextWire).add made) fun q member => ?_
    exact ⟨(later q member).1.mono next.nextWire, (later q member).2.mono next.nextWire⟩

theorem innerProduct_keeps {xs ys : List (LinearForm F)} (left : ∀ e ∈ xs, e.Readable b.nextWire)
    (right : ∀ e ∈ ys, e.Readable b.nextWire) : Keeps b (innerProduct xs ys) := by
  unfold innerProduct
  split
  · exact .throw wellFormed _
  · refine addProducts_keeps wellFormed (.zero _) fun p member => ?_
    exact ⟨left _ (List.of_mem_zip member).1, right _ (List.of_mem_zip member).2⟩

theorem select_keeps {c t f : LinearForm F} (readsC : c.Readable b.nextWire) (readsT : t.Readable b.nextWire)
    (readsF : f.Readable b.nextWire) : Keeps b (select c t f) := by
  refine (mul_keeps wellFormed readsC (readsT.sub readsF)).bind fun next made => ?_
  exact .pure next.wellFormed ((readsF.mono next.nextWire).add made)

/-! ### Assertions -/

theorem requireZero_keeps (assertion : Assertion) {e : LinearForm F} (readable : e.Readable b.nextWire) :
    Keeps b (requireZero assertion e) := by
  unfold requireZero
  split
  · split
    · exact .pure wellFormed trivial
    · exact reject_keeps wellFormed assertion _
  · exact recordConstraint_keeps wellFormed readable

theorem assertEqual_keeps {x y : LinearForm F} (left : x.Readable b.nextWire) (right : y.Readable b.nextWire) :
    Keeps b (assertEqual x y) :=
  requireZero_keeps wellFormed .equal (left.sub right)

/-- A product that is compared with a form. -/
theorem compareProduct_keeps {x y expected : LinearForm F} (left : x.Readable b.nextWire) (right : y.Readable b.nextWire)
    (readable : expected.Readable b.nextWire) : Keeps b (do
      let prod ← mul x y
      recordConstraint (prod - expected)) :=
  (mul_keeps wellFormed left right).bind fun next made =>
    recordConstraint_keeps next.wellFormed (made.sub (readable.mono next.nextWire))

theorem assertDistinct_keeps {x y : LinearForm F} (left : x.Readable b.nextWire) (right : y.Readable b.nextWire) :
    Keeps b (assertDistinct x y) := by
  have difference := left.sub right
  unfold assertDistinct
  dsimp only
  split
  · split
    · exact reject_keeps wellFormed .distinct _
    · exact .pure wellFormed trivial
  · refine (recordBuiltin_keeps wellFormed .inverse (by simpa using difference)).bind fun next made => ?_
    exact compareProduct_keeps next.wellFormed (difference.mono next.nextWire) made (.constant next.wellFormed.positive 1)

theorem assertBoolean_keeps {e : LinearForm F} (readable : e.Readable b.nextWire) : Keeps b (assertBoolean e) := by
  unfold assertBoolean
  split
  · split
    · exact .pure wellFormed trivial
    · exact reject_keeps wellFormed .boolean _
  · refine (noteBoolean_keeps wellFormed readable).bind fun {known} _ next _ => ?_
    have readable := readable.mono next.nextWire
    split
    · exact .pure next.wellFormed trivial
    · refine (mul_keeps next.wellFormed readable (readable.sub (.constant next.wellFormed.positive 1))).bind fun after made => ?_
      exact recordConstraint_keeps after.wellFormed made

omit wellFormed in
theorem assertBoolean_succeeds (e : LinearForm F) (b : Builder F) : ∃ b', assertBoolean e b = .ok () b' := by
  rw [assertBoolean]
  cases e.constant? with
  | none =>
    have noted : noteBoolean e b = .ok (b.booleans.contains e) (b.note e) := rfl
    cases known : b.booleans.contains e with
    | true =>
      rw [known] at noted
      exact ⟨_, run_bind_eq_ok.mpr ⟨_, _, noted, rfl⟩⟩
    | false =>
      rw [known] at noted
      exact ⟨_, run_bind_eq_ok.mpr ⟨_, _, noted, rfl⟩⟩
  | some k => by_cases bit : k.isZero = true ∨ k = 1 <;> simp only [bit] <;> exact ⟨_, rfl⟩

theorem markBoolean_keeps {e : LinearForm F} (readable : e.Readable b.nextWire) : Keeps b (markBoolean e) := by
  unfold markBoolean
  split
  · exact .pure wellFormed trivial
  · exact (noteBoolean_keeps wellFormed readable).bind fun next _ => .pure next.wellFormed trivial

/-! ### Division -/

theorem inverse_keeps {x : LinearForm F} (readable : x.Readable b.nextWire) : Keeps b (inverse x) := by
  unfold inverse
  split
  · split
    · exact .pure wellFormed (.constant wellFormed.positive _)
    · exact .throw wellFormed _
  · refine (recordBuiltin_keeps wellFormed .inverse (by simpa using readable)).bind fun next made => ?_
    refine (mul_keeps next.wellFormed (readable.mono next.nextWire) made).bind fun after prod => ?_
    have one := Readable.constant after.wellFormed.positive (1 : Scalar F)
    refine (recordConstraint_keeps after.wellFormed (prod.sub one)).bind fun last _ => ?_
    exact .pure last.wellFormed (made.mono (after.nextWire.trans last.nextWire))

theorem div_keeps {x y : LinearForm F} (left : x.Readable b.nextWire) (right : y.Readable b.nextWire) : Keeps b (div x y) :=
  (inverse_keeps wellFormed right).bind fun next made => product_keeps next.wellFormed (left.mono next.nextWire) made

theorem divUnchecked_keeps {x y : LinearForm F} (left : x.Readable b.nextWire) (right : y.Readable b.nextWire) :
    Keeps b (divUnchecked x y) := by
  unfold divUnchecked
  split
  · split
    · exact .pure wellFormed (left.scale _)
    · exact .throw wellFormed _
  · refine (recordBuiltin_keeps wellFormed .quotient (by simp [left, right])).bind fun next made => ?_
    refine (mul_keeps next.wellFormed made (right.mono next.nextWire)).bind fun after prod => ?_
    have left := left.mono (next.nextWire.trans after.nextWire)
    refine (recordConstraint_keeps after.wellFormed (prod.sub left)).bind fun last _ => ?_
    exact .pure last.wellFormed (made.mono (after.nextWire.trans last.nextWire))

theorem isZero_keeps {x : LinearForm F} (readable : x.Readable b.nextWire) : Keeps b (isZero x) := by
  unfold isZero
  split
  · exact .pure wellFormed (.constant wellFormed.positive _)
  · refine (recordBuiltin_keeps wellFormed .isZero (by simpa using readable)).bind fun {r b₁} next₁ readsR => ?_
    have readable := readable.mono next₁.nextWire
    refine (recordBuiltin_keeps next₁.wellFormed .inverseOrZero (by simpa using readable)).bind fun {m b₂} next₂ readsM => ?_
    have readable := readable.mono next₂.nextWire
    have readsR := readsR.mono next₂.nextWire
    refine (mul_keeps next₂.wellFormed readable readsR).bind fun {xr b₃} next₃ readsXr => ?_
    refine (recordConstraint_keeps next₃.wellFormed readsXr).bind fun {_ b₄} next₄ _ => ?_
    have next := next₃.trans next₄
    have readsR := readsR.mono next.nextWire
    refine (mul_keeps next.wellFormed (readable.mono next.nextWire) (readsM.mono next.nextWire)).bind fun {xm b₅} next₅ readsXm => ?_
    have readsR := readsR.mono next₅.nextWire
    have one := Readable.constant next₅.wellFormed.positive (1 : Scalar F)
    refine (recordConstraint_keeps next₅.wellFormed ((readsXm.sub one).add readsR)).bind fun {_ b₆} next₆ _ => ?_
    have readsR := readsR.mono next₆.nextWire
    refine (markBoolean_keeps next₆.wellFormed readsR).bind fun {_ b₇} next₇ _ => ?_
    exact .pure next₇.wellFormed (readsR.mono next₇.nextWire)

/-! ### Booleans -/

/-- A gadget on two bits: their product, from which the result is made. -/
theorem bitGadget_keeps {x y : LinearForm F} (left : x.Readable b.nextWire) (right : y.Readable b.nextWire)
    (combine : LinearForm F → LinearForm F)
    (combined : ∀ {n xy}, b.nextWire ≤ n → xy.Readable n → (combine xy).Readable n) :
    Keeps b (do
      assertBoolean x
      assertBoolean y
      let xy ← product x y
      markBoolean (combine xy)
      return combine xy) := by
  refine (assertBoolean_keeps wellFormed left).bind fun next₁ _ => ?_
  refine (assertBoolean_keeps next₁.wellFormed (right.mono next₁.nextWire)).bind fun next₂ _ => ?_
  have next := next₁.trans next₂
  refine (product_keeps next.wellFormed (left.mono next.nextWire) (right.mono next.nextWire)).bind fun {xy b₃} next₃ readsXy => ?_
  have readable := combined (next.trans next₃).nextWire readsXy
  refine (markBoolean_keeps next₃.wellFormed readable).bind fun next₄ _ => ?_
  exact .pure next₄.wellFormed (readable.mono next₄.nextWire)

theorem and_keeps {x y : LinearForm F} (left : x.Readable b.nextWire) (right : y.Readable b.nextWire) : Keeps b (and x y) :=
  bitGadget_keeps wellFormed left right id fun _ readable => readable

theorem or_keeps {x y : LinearForm F} (left : x.Readable b.nextWire) (right : y.Readable b.nextWire) : Keeps b (or x y) :=
  bitGadget_keeps wellFormed left right (fun xy => x + y - xy) fun le readable =>
    ((left.mono le).add (right.mono le)).sub readable

theorem xor_keeps {x y : LinearForm F} (left : x.Readable b.nextWire) (right : y.Readable b.nextWire) : Keeps b (xor x y) :=
  bitGadget_keeps wellFormed left right (fun xy => x + y - xy.scale (.ofNat 2)) fun le readable =>
    ((left.mono le).add (right.mono le)).sub (readable.scale _)

theorem lookup2_keeps {c₀ c₁ v₀ v₁ v₂ v₃ : LinearForm F} (readable : ∀ e ∈ [c₀, c₁, v₀, v₁, v₂, v₃], e.Readable b.nextWire) :
    Keeps b (lookup2 c₀ c₁ v₀ v₁ v₂ v₃) := by
  have later {n : Nat} (le : b.nextWire ≤ n) : ∀ e ∈ [c₀, c₁, v₀, v₁, v₂, v₃], e.Readable n :=
    fun e member => (readable e member).mono le
  refine (assertBoolean_keeps wellFormed (readable c₀ (by simp))).bind fun next₁ _ => ?_
  refine (assertBoolean_keeps next₁.wellFormed (later next₁.nextWire c₁ (by simp))).bind fun next₂ _ => ?_
  have next := next₁.trans next₂
  have now := later next.nextWire
  refine (select_keeps next.wellFormed (now c₀ (by simp)) (now v₁ (by simp)) (now v₀ (by simp))).bind fun next₃ readsLow => ?_
  have next := next.trans next₃
  have now := later next.nextWire
  refine (select_keeps next.wellFormed (now c₀ (by simp)) (now v₃ (by simp)) (now v₂ (by simp))).bind fun next₄ readsHigh => ?_
  have next := next.trans next₄
  exact select_keeps next.wellFormed (later next.nextWire c₁ (by simp)) readsHigh (readsLow.mono next₄.nextWire)

/-! ### Binary numbers -/

omit wellFormed in
theorem readable_addWeighted {n : Nat} {weight : Scalar F} {sum : LinearForm F} {bits : List (LinearForm F)}
    (readsSum : sum.Readable n) (reads : ∀ e ∈ bits, e.Readable n) : (addWeighted weight sum bits).Readable n := by
  induction bits generalizing weight sum with
  | nil => exact readsSum
  | cons bit rest ih =>
    obtain ⟨first, later⟩ := List.forall_mem_cons.mp reads
    exact ih (readsSum.add (first.scale weight)) later

omit wellFormed in
theorem readable_fromBinary {n : Nat} {bits : List (LinearForm F)} (reads : ∀ e ∈ bits, e.Readable n) :
    (fromBinary bits).Readable n :=
  readable_addWeighted (.zero n) reads

omit wellFormed in
theorem assertAllBoolean_keeps (wellFormed : b.WellFormed) {bits : List (LinearForm F)}
    (readable : ∀ e ∈ bits, e.Readable b.nextWire) : Keeps b (assertAllBoolean bits) := by
  induction bits generalizing b with
  | nil => exact .pure wellFormed trivial
  | cons bit rest ih =>
    obtain ⟨first, later⟩ := List.forall_mem_cons.mp readable
    refine (assertBoolean_keeps wellFormed first).bind fun next _ => ?_
    exact ih next.wellFormed fun e member => (later e member).mono next.nextWire

theorem toBinary_keeps {e : LinearForm F} (readable : e.Readable b.nextWire) (count : Nat) : Keeps b (toBinary e count) := by
  unfold toBinary
  dsimp only
  split
  · exact .throw wellFormed _
  · refine (recordHint_keeps wellFormed _ (by simpa using readable) count).bind fun {bits b₁} next₁ made => ?_
    have made : ∀ bit ∈ bits, bit.Readable b₁.nextWire := made
    refine (assertAllBoolean_keeps next₁.wellFormed made).bind fun {_ b₂} next₂ _ => ?_
    have readable := readable.mono (next₁.trans next₂).nextWire
    have made : ∀ bit ∈ bits, bit.Readable b₂.nextWire := fun bit member => (made bit member).mono next₂.nextWire
    refine (assertEqual_keeps next₂.wellFormed (readable_fromBinary made) readable).bind fun {_ b₃} next₃ _ => ?_
    exact .pure next₃.wellFormed fun bit member => (made bit member).mono next₃.nextWire

/-! ### Sub-circuits -/

theorem call_keeps (id : CircuitId) {inputs : List (LinearForm F)} (readable : ∀ e ∈ inputs, e.Readable b.nextWire) :
    Keeps b (call id inputs) := by
  refine .get ?_
  split
  · exact .throw wellFormed _
  · rename_i callee found
    split
    · exact .throw wellFormed _
    · rename_i arity
      refine recordWires_keeps wellFormed (.call id inputs) (fun _ => rfl) (fun _ => readable) fun outs length => ?_
      exact ⟨callee, found, not_not.mp arity, length.symm⟩

omit wellFormed in
/-- A definition finds its key, or is refused, or ends what its body recorded. -/
theorem define_cases (key : String) (numInputs : Nat) (body : Build F Unit) (b : Builder F) :
    (∃ id, b.subCircuits.lookup? key = some id ∧ define key numInputs body b = .ok id b) ∨
    b.subCircuits.lookup? key = none ∧ ((∃ e, define key numInputs body b = .error e b) ∨
      checkInputCount numInputs = .ok () ∧ ∃ inner failure, Ends body (b.child numInputs) inner ∧
        ((∃ id, (b.adopt key inner failure).1 = .ok id ∧
          define key numInputs body b = .ok id (b.adopt key inner failure).2) ∨
        ∃ e, (b.adopt key inner failure).1 = .error e ∧
          define key numInputs body b = .error e (b.adopt key inner failure).2)) := by
  unfold define
  simp only [run_get_bind]
  cases b.subCircuits.lookup? key with
  | some id => exact .inl ⟨id, rfl, rfl⟩
  | none =>
    refine .inr ⟨rfl, ?_⟩
    cases checkInputCount numInputs with
    | error e => exact .inl ⟨e, rfl⟩
    | ok _ =>
      refine .inr ⟨rfl, ?_⟩
      cases ended : body (b.child numInputs) with
      | ok _ inner =>
        refine ⟨inner, none, .inl ⟨(), ended⟩, ?_⟩
        cases (b.adopt key inner none).1 with
        | ok id => exact .inl ⟨id, rfl, rfl⟩
        | error e => exact .inr ⟨e, rfl, rfl⟩
      | error e inner =>
        refine ⟨inner, some e, .inr ⟨e, ended⟩, ?_⟩
        cases (b.adopt key inner (some e)).1 with
        | ok id => exact .inl ⟨id, rfl, rfl⟩
        | error e => exact .inr ⟨e, rfl, rfl⟩

omit wellFormed in
/-- A definition does nothing, or it ends what its body recorded. -/
theorem define_ends {key : String} {numInputs : Nat} {body : Build F Unit} {b' : Builder F}
    (ends : Ends (define key numInputs body) b b') :
    b' = b ∨ b.subCircuits.lookup? key = none ∧
      ∃ inner failure, Ends body (b.child numInputs) inner ∧ b' = (b.adopt key inner failure).2 := by
  rcases define_cases key numInputs body b with
    ⟨id, -, found⟩ | ⟨free, ⟨e, refused⟩ | ⟨-, inner, failure, ended, ⟨id, -, added⟩ | ⟨e, -, undone⟩⟩⟩
  · exact .inl (ends.eq_of_ok found)
  · exact .inl (ends.eq_of_error refused)
  · exact .inr ⟨free, inner, failure, ended, ends.eq_of_ok added⟩
  · exact .inr ⟨free, inner, failure, ended, ends.eq_of_error undone⟩

/-- A definition keeps the rules if its body, where the key is new, does. -/
theorem define_keeps (key : String) (numInputs : Nat) {body : Build F Unit}
    (inside : b.subCircuits.lookup? key = none →
      ∀ {inner}, Ends body (b.child numInputs) inner → Continues (b.child numInputs) inner) :
    Keeps b (define key numInputs body) := by
  have continues {b' : Builder F} (ends : Ends (define key numInputs body) b b') : Continues b b' := by
    rcases define_ends ends with rfl | ⟨free, inner, failure, ended, rfl⟩
    · exact .refl wellFormed
    · exact wellFormed.adopt free (inside free ended) failure
  exact ⟨fun done => ⟨continues (.inl ⟨_, done⟩), trivial⟩, fun done => continues (.inr ⟨_, done⟩)⟩

end
end Builder
end ArithCircuit
