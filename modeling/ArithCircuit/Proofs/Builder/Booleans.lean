import ArithCircuit.Proofs.Builder.Keeping

/-!
Steps that note forms as boolean. On operands of any kind, a form is noted only where what is recorded
leaves it no other value than 0 and 1; hints and calls may give anything.
-/
namespace ArithCircuit
namespace Builder
variable {F : ScalarField} {α β : Type} {b b₁ b₂ : Builder F}

/-- An assignment satisfies what is recorded, hints and calls giving anything. -/
abbrev Permits (b : Builder F) (w : Wire → Scalar F) : Prop := b.Satisfied (.free .any) w

/-- What is recorded leaves a form no other value than 0 and 1. -/
def Boolean (b : Builder F) (e : LinearForm F) : Prop := ∀ w, b.Permits w → e.eval w = 0 ∨ e.eval w = 1

/-- Every form noted as boolean is. -/
def Truthful (b : Builder F) : Prop := ∀ e ∈ b.booleans, b.Boolean e

/-- A truthful builder that demands at least what an earlier one does. -/
structure Later (b b' : Builder F) : Prop where
  permits : ∀ {w}, b'.Permits w → b.Permits w
  truthful : b'.Truthful

namespace Later

theorem refl (truthful : b.Truthful) : Later b b := ⟨id, truthful⟩

theorem trans (first : Later b b₁) (second : Later b₁ b₂) : Later b b₂ :=
  ⟨fun permits => first.permits (second.permits permits), second.truthful⟩

theorem boolean (later : Later b b₁) {e : LinearForm F} (boolean : b.Boolean e) : b₁.Boolean e :=
  fun w permits => boolean w (later.permits permits)

/-- Recording more, and noting forms that are boolean then. -/
theorem of_recorded (truthful : b.Truthful) (possible : b₁.unsatisfiable = none → b.unsatisfiable = none)
    (instructions : b.instructions.toList ⊆ b₁.instructions.toList)
    (constraints : b.constraints.toList ⊆ b₁.constraints.toList)
    (noted : ∀ e ∈ b₁.booleans, e ∈ b.booleans ∨ b₁.Boolean e) : Later b b₁ := by
  have permits {w : Wire → Scalar F} (after : b₁.Permits w) : b.Permits w :=
    ⟨possible after.possible, after.one, fun i member => after.instructions i (instructions member),
      fun e member => after.constraints e (constraints member)⟩
  refine ⟨permits, fun e member => ?_⟩
  rcases noted e member with old | boolean
  · exact fun w after => truthful e old w (permits after)
  · exact boolean

/-- Wires, outputs, hints and sub-circuits do not matter. -/
theorem listing (truthful : b.Truthful) (nextWire : Nat) (outputs : Array (LinearForm F)) (hints : HintRegistry F)
    (subs : SubCircuits F) :
    Later b { b with nextWire := nextWire, outputs := outputs, hints := hints, subCircuits := subs } :=
  of_recorded truthful id (List.Subset.refl _) (List.Subset.refl _) fun _ member => .inl member

theorem extend (truthful : b.Truthful) (i : Instruction F) (count : Nat) : Later b (b.extend i count) := by
  refine of_recorded truthful id ?_ (List.Subset.refl _) fun _ member => .inl member
  simp [Builder.extend]

theorem note (truthful : b.Truthful) {e : LinearForm F} (boolean : b.Boolean e) : Later b (b.note e) := by
  refine of_recorded truthful id (List.Subset.refl _) (List.Subset.refl _) fun d member => ?_
  rcases Std.TreeSet.mem_insert.mp member with rank | old
  · obtain rfl : e = d := Std.LawfulEqCmp.eq_of_compare rank
    exact .inr fun w permits => boolean w (satisfied_note_iff.mp permits)
  · exact .inl old

end Later

/-- A later builder with the same sub-circuits and at most so many more wires. -/
structure Secured (b : Builder F) (wires : Nat) (b' : Builder F) : Prop extends Later b b' where
  nextWire : b'.nextWire ≤ b.nextWire + wires
  subCircuits : b'.subCircuits = b.subCircuits

namespace Secured
variable {k n : Nat}

theorem refl (truthful : b.Truthful) : Secured b n b := ⟨.refl truthful, Nat.le_add_right .., rfl⟩

theorem mono (secured : Secured b k b₁) (fits : k ≤ n) : Secured b n b₁ :=
  ⟨secured.toLater, secured.nextWire.trans (Nat.add_le_add_left fits _), secured.subCircuits⟩

theorem trans (first : Secured b k b₁) (fits : k ≤ n) (second : Secured b₁ (n - k) b₂) : Secured b n b₂ where
  toLater := first.toLater.trans second.toLater
  nextWire := by
    have early := first.nextWire
    have late := second.nextWire
    omega
  subCircuits := second.subCircuits.trans first.subCircuits

theorem extend (truthful : b.Truthful) (i : Instruction F) (count : Nat) : Secured b count (b.extend i count) :=
  ⟨.extend truthful i count, le_rfl, rfl⟩

theorem note (truthful : b.Truthful) {e : LinearForm F} (boolean : b.Boolean e) : Secured b n (b.note e) :=
  ⟨.note truthful boolean, Nat.le_add_right .., rfl⟩

end Secured

/-- A step succeeds, keeps a builder truthful, takes at most so many wires, and what it makes has a property under
    all that the builder then permits. -/
def Secures (b : Builder F) (wires : Nat) (step : Build F α) (Q : α → (Wire → Scalar F) → Prop) : Prop :=
  ∃ a b', step b = .ok a b' ∧ Secured b wires b' ∧ ∀ w, b'.Permits w → Q a w

namespace Secures
variable {k n : Nat}

theorem pure (truthful : b.Truthful) {a : α} {Q : α → (Wire → Scalar F) → Prop} (holds : ∀ w, b.Permits w → Q a w) :
    Secures b n (Pure.pure a) Q :=
  ⟨a, b, rfl, .refl truthful, holds⟩

theorem mono {step : Build F α} {Q R : α → (Wire → Scalar F) → Prop} (secures : Secures b k step Q) (fits : k ≤ n)
    (implied : ∀ {a w}, b.Permits w → Q a w → R a w) : Secures b n step R := by
  obtain ⟨a, b', done, secured, holds⟩ := secures
  exact ⟨a, b', done, secured.mono fits, fun w permits => implied (secured.permits permits) (holds w permits)⟩

/-- One step after another, which has the wires that are left. -/
theorem bind {step : Build F α} {next : α → Build F β} {Q : α → (Wire → Scalar F) → Prop}
    {R : β → (Wire → Scalar F) → Prop} (first : Secures b k step Q) (fits : k ≤ n)
    (second : ∀ {a b₁}, Later b b₁ → (∀ w, b₁.Permits w → Q a w) → Secures b₁ (n - k) (next a) R) :
    Secures b n (step >>= next) R := by
  obtain ⟨a, b₁, stepped, early, holds⟩ := first
  obtain ⟨c, b₂, continued, late, holds'⟩ := second early.toLater holds
  exact ⟨c, b₂, run_bind_eq_ok.mpr ⟨a, b₁, stepped, continued⟩, early.trans fits late, holds'⟩

end Secures

/-! ### Recording -/

section
variable (truthful : b.Truthful)

include truthful

theorem mul_secures (x y : LinearForm F) : Secures b 1 (mul x y) fun z w => z.eval w = x.eval w * y.eval w := by
  refine ⟨_, b.extend (.product x y (.wrap b.nextWire)) 1, rfl, .extend truthful .., fun w permits => ?_⟩
  have holds : [w (.wrap b.nextWire)] = [x.eval w * y.eval w] :=
    permits.instructions (.product x y (.wrap b.nextWire)) (by simp [extend])
  simpa using holds

theorem recordBuiltin_secures (hint : BuiltinHint) (inputs : List (LinearForm F)) :
    Secures b 1 (recordBuiltin hint inputs) fun _ _ => True :=
  ⟨_, b.extend (.hint hint.name inputs [.wrap b.nextWire]) 1, rfl, .extend truthful .., fun _ _ => trivial⟩

theorem recordConstraint_secures (e : LinearForm F) : Secures b 0 (recordConstraint e) fun _ w => e.eval w = 0 := by
  have later : Later b { b with constraints := b.constraints.push e } :=
    .of_recorded truthful id (List.Subset.refl _) (by simp) fun _ member => .inl member
  refine ⟨(), _, rfl, ⟨later, le_rfl, rfl⟩, fun w permits => ?_⟩
  exact permits.constraints e (by simp)

/-- Nothing is permitted once an assertion on a constant fails. -/
theorem reject_secures (assertion : Assertion) (value : Scalar F) : Secures b 0 (reject assertion value) fun _ _ => False := by
  have later : Later b { b with unsatisfiable := b.unsatisfiable.or (some (.unsatisfiable assertion value.val)) } :=
    .of_recorded truthful (fun none => (Option.or_eq_none_iff.mp none).1) (List.Subset.refl _) (List.Subset.refl _)
      fun _ member => .inl member
  refine ⟨(), _, rfl, ⟨later, le_rfl, rfl⟩, fun w permits => ?_⟩
  have possible := permits.possible
  cases rejected : b.unsatisfiable <;> simp [rejected] at possible

theorem requireZero_secures (assertion : Assertion) (e : LinearForm F) :
    Secures b 0 (requireZero assertion e) fun _ w => e.eval w = 0 := by
  unfold requireZero
  split
  · rename_i k constant
    split
    · rename_i zero
      refine .pure truthful fun w permits => ?_
      rw [LinearForm.eval_of_constant? constant permits.one, (Scalar.isZero_iff k).mp zero]
    · exact (reject_secures truthful assertion k).mono le_rfl fun _ impossible => impossible.elim
  · exact recordConstraint_secures truthful e

/-- An instruction that defines new wires. -/
theorem recordWires_secures (mk : List Wire → Instruction F) (count : Nat) :
    Secures b count (do
      let outs ← newWires count
      recordInstruction (mk outs)
      return (outs.map LinearForm.wire : List (LinearForm F))) fun es _ => es.length = count :=
  ⟨_, b.extend (mk (freshWires b.nextWire count)) count, run_bind_eq_ok.mpr ⟨_, _, newWires_eq count b, rfl⟩,
    .extend truthful .., fun _ _ => by simp⟩

theorem product_secures (x y : LinearForm F) : Secures b 1 (product x y) fun z w => z.eval w = x.eval w * y.eval w := by
  unfold product
  split
  · rename_i k constant
    refine .pure truthful fun w permits => ?_
    rw [LinearForm.eval_scale, LinearForm.eval_of_constant? constant permits.one]
  · rename_i k _ constant
    refine .pure truthful fun w permits => ?_
    rw [LinearForm.eval_scale, LinearForm.eval_of_constant? constant permits.one, mul_comm]
  · exact mul_secures truthful x y

theorem assertBoolean_secures (e : LinearForm F) :
    Secures b 1 (assertBoolean e) fun _ w => e.eval w = 0 ∨ e.eval w = 1 := by
  unfold assertBoolean
  split
  · rename_i k constant
    split
    · rename_i boolean
      refine .pure truthful fun w permits => ?_
      rw [LinearForm.eval_of_constant? constant permits.one]
      simpa using boolean
    · exact (reject_secures truthful .boolean k).mono (Nat.zero_le 1) fun _ impossible => impossible.elim
  · by_cases known : b.booleans.contains e
    · have boolean : b.Boolean e := truthful e known
      have noted := Later.note truthful boolean
      refine ⟨(), b.note e, run_bind_eq_ok.mpr ⟨_, _, rfl, ?_⟩, .note truthful boolean, noted.boolean boolean⟩
      rw [if_pos known]
      rfl
    · -- The note is made first, but what is recorded does not depend on it.
      have asserted : Secures b 1 (mul e (e - .constant 1) >>= recordConstraint) fun _ w =>
          e.eval w = 0 ∨ e.eval w = 1 := by
        refine (mul_secures truthful e _).bind le_rfl fun {prod b₁} later multiplied => ?_
        refine (recordConstraint_secures later.truthful prod).mono le_rfl fun {_ w} permits zero => ?_
        rw [multiplied w permits, mul_eq_zero, LinearForm.eval_sub, LinearForm.eval_constant permits.one, sub_eq_zero] at zero
        exact zero
      obtain ⟨_, c, done, secured, boolean⟩ := asserted
      have noted := Later.note secured.truthful boolean
      refine ⟨(), c.note e, run_bind_eq_ok.mpr ⟨_, _, rfl, ?_⟩, secured.trans le_rfl (.note secured.truthful boolean),
        noted.boolean boolean⟩
      rw [if_neg known]
      cases done
      rfl

omit truthful in
theorem assertAllBoolean_secures (truthful : b.Truthful) (bits : List (LinearForm F)) :
    Secures b bits.length (assertAllBoolean bits) fun _ w => ∀ e ∈ bits, e.eval w = 0 ∨ e.eval w = 1 := by
  induction bits generalizing b with
  | nil => exact .pure truthful fun _ _ => List.forall_mem_nil _
  | cons bit rest ih =>
    refine (assertBoolean_secures truthful bit).bind (Nat.le_add_left ..) fun later first => ?_
    obtain ⟨_, b₂, done, secured, others⟩ := ih later.truthful
    exact ⟨(), b₂, done, secured, fun w permits => List.forall_mem_cons.mpr
      ⟨first w (secured.permits permits), others w permits⟩⟩

theorem markBoolean_secures {e : LinearForm F} (boolean : b.Boolean e) : Secures b 0 (markBoolean e) fun _ _ => True := by
  unfold markBoolean
  split
  · exact .pure truthful fun _ _ => trivial
  · exact ⟨(), b.note e, rfl, .note truthful boolean, fun _ _ => trivial⟩

/-! ### Gadgets with boolean results -/

theorem isZero_secures (x : LinearForm F) : Secures b 4 (isZero x) fun r w => r.eval w = 0 ∨ r.eval w = 1 := by
  unfold isZero
  split
  · rename_i k _
    refine .pure truthful fun w permits => ?_
    rw [LinearForm.eval_constant permits.one]
    cases k.isZero <;> simp
  · refine (recordBuiltin_secures truthful ..).bind (by decide) fun {r _} later₁ _ => ?_
    refine (recordBuiltin_secures later₁.truthful ..).bind (by decide) fun {m _} later₂ _ => ?_
    refine (mul_secures later₂.truthful x r).bind (by decide) fun {xr _} later₃ multiplied => ?_
    refine (recordConstraint_secures later₃.truthful xr).bind (by decide) fun later₄ zero => ?_
    refine (mul_secures later₄.truthful x m).bind (by decide) fun {xm _} later₅ multiplied' => ?_
    refine (recordConstraint_secures later₅.truthful _).bind (by decide) fun {_ b₆} later₆ zero' => ?_
    have boolean : b₆.Boolean r := by
      intro w permits
      have permits₅ := later₆.permits permits
      have permits₄ := later₅.permits permits₅
      have either := (multiplied w (later₄.permits permits₄)).symm.trans (zero w permits₄)
      have complement := zero' w permits
      rw [LinearForm.eval_add, LinearForm.eval_sub, LinearForm.eval_constant permits.one, multiplied' w permits₅] at complement
      rcases mul_eq_zero.mp either with x0 | r0
      · rw [x0, zero_mul, zero_sub, neg_add_eq_zero] at complement
        exact .inr complement.symm
      · exact .inl r0
    refine (markBoolean_secures later₆.truthful boolean).bind (by decide) fun later₇ _ => ?_
    exact .pure later₇.truthful (later₇.boolean boolean)

/-- Two forms are asserted to be bits, and a form of them and their product is the result. -/
theorem bitGadget_secures (x y : LinearForm F) (form : LinearForm F → LinearForm F)
    (forms : ∀ {p w}, (x.eval w = 0 ∨ x.eval w = 1) → (y.eval w = 0 ∨ y.eval w = 1) → p.eval w = x.eval w * y.eval w →
      (form p).eval w = 0 ∨ (form p).eval w = 1) :
    Secures b 3 (do
      assertBoolean x
      assertBoolean y
      let xy ← product x y
      markBoolean (form xy)
      return form xy) fun r w => ∀ e ∈ [x, y, r], e.eval w = 0 ∨ e.eval w = 1 := by
  refine (assertBoolean_secures truthful x).bind (by decide) fun later₁ bitX => ?_
  refine (assertBoolean_secures later₁.truthful y).bind (by decide) fun later₂ bitY => ?_
  refine (product_secures later₂.truthful x y).bind (by decide) fun {xy b₃} later₃ multiplied => ?_
  have booleanX : b₃.Boolean x := (later₂.trans later₃).boolean bitX
  have booleanY : b₃.Boolean y := later₃.boolean bitY
  have boolean : b₃.Boolean (form xy) := fun w permits =>
    forms (booleanX w permits) (booleanY w permits) (multiplied w permits)
  refine (markBoolean_secures later₃.truthful boolean).bind (by decide) fun later₄ _ => ?_
  refine .pure later₄.truthful fun w permits => ?_
  have before := later₄.permits permits
  simp [booleanX w before, booleanY w before, boolean w before]

theorem and_secures (x y : LinearForm F) :
    Secures b 3 (and x y) fun r w => ∀ e ∈ [x, y, r], e.eval w = 0 ∨ e.eval w = 1 := by
  refine bitGadget_secures truthful x y (fun p => p) fun {p w} bitX bitY multiplied => ?_
  rcases bitX with hx | hx <;> rcases bitY with hy | hy <;> simp [multiplied, hx, hy]

theorem or_secures (x y : LinearForm F) :
    Secures b 3 (or x y) fun r w => ∀ e ∈ [x, y, r], e.eval w = 0 ∨ e.eval w = 1 := by
  refine bitGadget_secures truthful x y (fun p => x + y - p) fun {p w} bitX bitY multiplied => ?_
  rcases bitX with hx | hx <;> rcases bitY with hy | hy <;> simp [multiplied, hx, hy]

theorem xor_secures (x y : LinearForm F) :
    Secures b 3 (xor x y) fun r w => ∀ e ∈ [x, y, r], e.eval w = 0 ∨ e.eval w = 1 := by
  refine bitGadget_secures truthful x y (fun p => x + y - p.scale (.ofNat 2)) fun {p w} bitX bitY multiplied => ?_
  have two : (Scalar.ofNat 2 : Scalar F) = 1 + 1 := (Scalar.natCast_eq 2).symm.trans (by norm_num)
  rcases bitX with hx | hx <;> rcases bitY with hy | hy <;> simp [multiplied, hx, hy, two]

end

end Builder
end ArithCircuit
