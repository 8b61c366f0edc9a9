import Mathlib.Algebra.Field.ZMod
import Mathlib.Tactic.LinearCombination
import ArithCircuit.Proofs.Scalar.Prime
import ArithCircuit.Scalar.Arithmetic

/-!
Field elements form a field. Sums, products and differences of representatives are those of the
residues, and Euclid's algorithm finds the inverse of every element but zero.
-/
namespace ArithCircuit
namespace Scalar
variable {F : ScalarField}

@[ext] theorem ext {a b : Scalar F} (same : a.val = b.val) : a = b := by
  cases a
  cases b
  simpa using same

/-- The residue class of an element. -/
def toZMod (a : Scalar F) : ZMod F.modulus := a.val

theorem toZMod_injective : Function.Injective (toZMod : Scalar F → ZMod F.modulus) := by
  intro a b same
  have congruent : a.val % F.modulus = b.val % F.modulus :=
    (ZMod.natCast_eq_natCast_iff' _ _ _).mp same
  rw [Nat.mod_eq_of_lt a.isLt, Nat.mod_eq_of_lt b.isLt] at congruent
  exact ext congruent

@[simp] theorem toZMod_ofNat (n : Nat) : (ofNat n : Scalar F).toZMod = n := ZMod.natCast_mod n F.modulus

@[simp] theorem toZMod_zero : (0 : Scalar F).toZMod = 0 := Nat.cast_zero

@[simp] theorem toZMod_one : (1 : Scalar F).toZMod = 1 := Nat.cast_one

@[simp] theorem toZMod_add (a b : Scalar F) : (a + b).toZMod = a.toZMod + b.toZMod :=
  (toZMod_ofNat _).trans (Nat.cast_add _ _)

@[simp] theorem toZMod_mul (a b : Scalar F) : (a * b).toZMod = a.toZMod * b.toZMod :=
  (toZMod_ofNat _).trans (Nat.cast_mul _ _)

/-- Counting down from the modulus is negation. -/
private theorem cast_modulus_sub (a : Scalar F) :
    ((F.modulus - a.val : Nat) : ZMod F.modulus) = -a.toZMod := by
  rw [Nat.cast_sub a.isLt.le, ZMod.natCast_self, zero_sub, toZMod]

@[simp] theorem toZMod_neg (a : Scalar F) : (-a).toZMod = -a.toZMod :=
  (toZMod_ofNat _).trans (cast_modulus_sub a)

@[simp] theorem toZMod_sub (a b : Scalar F) : (a - b).toZMod = a.toZMod - b.toZMod := by
  have sum : (a - b).toZMod = ((a.val + (F.modulus - b.val) : Nat) : ZMod F.modulus) := toZMod_ofNat _
  rw [sum, Nat.cast_add, cast_modulus_sub, sub_eq_add_neg]
  rfl

instance : CommRing (Scalar F) where
  add_assoc a b c := toZMod_injective (by simp [add_assoc])
  zero_add a := toZMod_injective (by simp)
  add_zero a := toZMod_injective (by simp)
  add_comm a b := toZMod_injective (by simp [add_comm])
  neg_add_cancel a := toZMod_injective (by simp)
  sub_eq_add_neg a b := toZMod_injective (by simp [sub_eq_add_neg])
  mul_assoc a b c := toZMod_injective (by simp [mul_assoc])
  one_mul a := toZMod_injective (by simp)
  mul_one a := toZMod_injective (by simp)
  mul_comm a b := toZMod_injective (by simp [mul_comm])
  zero_mul a := toZMod_injective (by simp)
  mul_zero a := toZMod_injective (by simp)
  left_distrib a b c := toZMod_injective (by simp [mul_add])
  right_distrib a b c := toZMod_injective (by simp [add_mul])
  nsmul := nsmulRec
  zsmul := zsmulRec
  natCast n := ofNat n
  natCast_zero := toZMod_injective (by simp)
  natCast_succ n := toZMod_injective (by simp)

theorem natCast_eq (n : Nat) : (n : Scalar F) = ofNat n := rfl

@[simp] theorem val_natCast (n : Nat) : (n : Scalar F).val = n % F.modulus := rfl

@[simp] theorem val_zero : (0 : Scalar F).val = 0 := rfl

@[simp] theorem val_one : (1 : Scalar F).val = 1 := rfl

/-- Every element is the residue of its representative. -/
@[simp] theorem natCast_val (a : Scalar F) : (a.val : Scalar F) = a :=
  ext (Nat.mod_eq_of_lt a.isLt)

@[simp] theorem isZero_iff (a : Scalar F) : a.isZero = true ↔ a = 0 := by
  rw [isZero, beq_iff_eq]
  exact ⟨fun zero => ext zero, fun zero => congrArg Scalar.val zero⟩

@[simp] theorem isZero_eq_false_iff (a : Scalar F) : a.isZero = false ↔ a ≠ 0 := by
  rw [← Bool.not_eq_true, isZero_iff]

@[simp] theorem ofBool_true : (ofBool true : Scalar F) = 1 := rfl

@[simp] theorem ofBool_false : (ofBool false : Scalar F) = 0 := rfl

theorem val_ofBool (bit : Bool) : (ofBool bit : Scalar F).val = bit.toNat := by cases bit <;> rfl

theorem eq_zero_or_one_iff {a : Scalar F} : a = 0 ∨ a = 1 ↔ ∃ bit, a = ofBool bit := by
  rw [Bool.exists_bool, ofBool_false, ofBool_true]

theorem one_ne_zero' : (1 : Scalar F) ≠ 0 := fun same => Nat.one_ne_zero (congrArg Scalar.val same)

instance : Nontrivial (Scalar F) := ⟨⟨1, 0, one_ne_zero'⟩⟩

/-- Euclid's algorithm keeps each remainder equal to its quotient times the fixed element, so it
    ends with the quotient of the greatest common divisor. -/
theorem euclid_mul (a : Scalar F) (r₀ r₁ : Nat) (q₀ q₁ : Scalar F)
    (left : q₀ * a = (r₀ : Scalar F)) (right : q₁ * a = (r₁ : Scalar F)) :
    euclid r₀ r₁ q₀ q₁ * a = (Nat.gcd r₀ r₁ : Scalar F) := by
  fun_induction euclid r₀ r₁ q₀ q₁ with
  | case1 r₀ q₀ q₁ => simpa using left
  | case2 r₀ r₁ q₀ q₁ positive ih =>
    have divided : (r₀ : Scalar F) = (r₁ : Scalar F) * ofNat (r₀ / r₁) + ((r₀ % r₁ : Nat) : Scalar F) := by
      conv_lhs => rw [← Nat.div_add_mod r₀ r₁]
      rw [Nat.cast_add, Nat.cast_mul, natCast_eq (r₀ / r₁)]
    rw [ih right (by linear_combination left - ofNat (r₀ / r₁) * right + divided), Nat.gcd_comm r₁,
      ← Nat.gcd_rec, Nat.gcd_comm]

theorem modulus_cast : (F.modulus : Scalar F) = 0 := ext (Nat.mod_self _)

theorem euclid_mul_self {a : Scalar F} (nonzero : a ≠ 0) : euclid F.modulus a.val 0 1 * a = 1 := by
  have coprime : Nat.gcd F.modulus a.val = 1 := by
    refine (Nat.Prime.coprime_iff_not_dvd F.modulus_prime).mpr ?_
    intro divides
    exact nonzero (ext (Nat.eq_zero_of_dvd_of_lt divides a.isLt))
  rw [euclid_mul a F.modulus a.val 0 1 (by rw [modulus_cast, zero_mul]) (by simp), coprime, Nat.cast_one]

instance : Field (Scalar F) where
  inv a := a.inv?.getD 0
  mul_inv_cancel a nonzero := by
    have notZero : a.isZero = false := (isZero_eq_false_iff a).mpr nonzero
    show a * (a.inv?.getD 0) = 1
    rw [inv?, notZero, mul_comm]
    exact euclid_mul_self nonzero
  inv_zero := rfl
  nnqsmul := _
  qsmul := _

/-- Every element but zero has an inverse. -/
theorem inv?_of_ne_zero {a : Scalar F} (nonzero : a ≠ 0) : a.inv? = some a⁻¹ := by
  have notZero : a.isZero = false := (isZero_eq_false_iff a).mpr nonzero
  have inverse : a⁻¹ = a.inv?.getD 0 := rfl
  rw [inverse, inv?, notZero]
  rfl

@[simp] theorem inv?_zero : (0 : Scalar F).inv? = none := rfl

@[simp] theorem inv?_getD (a : Scalar F) : a.inv?.getD 0 = a⁻¹ := rfl

end Scalar
end ArithCircuit
