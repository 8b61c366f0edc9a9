import ArithCircuit.Scalar.Field
import ArithCircuit.Text.Decimal

/-!
Field elements, each held as its representative below the modulus, and their exact arithmetic.
Inverses come from Euclid's algorithm: every remainder it meets is a multiple of the element, and
the last one is the greatest common divisor.
-/
namespace ArithCircuit

/-- An element of a field, as its representative below the modulus. -/
structure Scalar (F : ScalarField) where
  val : Nat
  isLt : val < F.modulus
deriving DecidableEq

namespace Scalar
variable {F : ScalarField}

/-- The residue of a natural number. -/
def ofNat (n : Nat) : Scalar F := ⟨n % F.modulus, Nat.mod_lt _ F.modulus_pos⟩

instance : Zero (Scalar F) := ⟨⟨0, F.modulus_pos⟩⟩
instance : One (Scalar F) := ⟨⟨1, F.one_lt_modulus⟩⟩
instance : Inhabited (Scalar F) := ⟨0⟩
instance : Add (Scalar F) := ⟨fun a b => ofNat (a.val + b.val)⟩
instance : Mul (Scalar F) := ⟨fun a b => ofNat (a.val * b.val)⟩
instance : Neg (Scalar F) := ⟨fun a => ofNat (F.modulus - a.val)⟩
instance : Sub (Scalar F) := ⟨fun a b => ofNat (a.val + (F.modulus - b.val))⟩

def isZero (a : Scalar F) : Bool := a.val == 0

/-- One for true, zero for false. -/
def ofBool (b : Bool) : Scalar F := if b then 1 else 0

/-- The residue of an integer: negative numbers count down from the modulus. -/
def ofInt (i : Int) : Scalar F :=
  if i < 0 then -ofNat i.natAbs else ofNat i.natAbs

/-- The digits of a number in base `2 ^ 64`, lowest first. -/
def limbs (n : Nat) : List Nat :=
  if n = 0 then [] else n % Nat.pow 2 64 :: limbs (n / Nat.pow 2 64)
termination_by n
decreasing_by exact Nat.div_lt_self (Nat.pos_of_ne_zero (by assumption)) (by decide)

/-- The residue of a number given by its digits in base `2 ^ 64`, lowest first. -/
def ofLimbs (digits : List Nat) : Scalar F :=
  let base : Scalar F := ofNat (Nat.pow 2 32) * ofNat (Nat.pow 2 32)
  digits.foldr (fun digit acc => acc * base + ofNat digit) 0

/-- The residue of a number of any size, reduced digit by digit. -/
def reduce (n : Nat) : Scalar F := ofLimbs (limbs n)

/-- Euclid's algorithm on two remainders, each carried with its quotient by a fixed element. The
    result is the quotient of the last remainder that is not zero. -/
def euclid (r₀ r₁ : Nat) (q₀ q₁ : Scalar F) : Scalar F :=
  if r₁ = 0 then q₀ else euclid r₁ (r₀ % r₁) q₁ (q₀ - ofNat (r₀ / r₁) * q₁)
termination_by r₁
decreasing_by exact Nat.mod_lt _ (Nat.pos_of_ne_zero (by assumption))

/-- The inverse, which zero does not have. -/
def inv? (a : Scalar F) : Option (Scalar F) :=
  if a.isZero then none else some (euclid F.modulus a.val 0 1)

/-- The decimal representative. -/
def text (a : Scalar F) : String := decimal a.val

end Scalar
end ArithCircuit
