import ArithCircuit.BitLength

/-!
The prime fields a circuit can be written over.
-/
namespace ArithCircuit

/-- A supported prime field. -/
inductive ScalarField where
  /-- The scalar field of the BN254 curve. -/
  | bn254
  /-- The field of the Mersenne prime `2 ^ 31 - 1`. -/
  | mersenne31
deriving DecidableEq, Repr

namespace ScalarField

/-- The number of elements. -/
def modulus : ScalarField → Nat
  | bn254 => 21888242871839275222246405745257275088548364400416034343698204186575808495617
  | mersenne31 => 2147483647

theorem modulus_pos (F : ScalarField) : 0 < F.modulus := by
  cases F <;> decide

theorem one_lt_modulus (F : ScalarField) : 1 < F.modulus := by
  cases F <;> decide

/-- Every supported field. -/
def all : List ScalarField := [bn254, mersenne31]

/-- The number that stands for the field in stored artifacts. -/
def id : ScalarField → Nat
  | bn254 => 1
  | mersenne31 => 2

def ofId? (n : Nat) : Option ScalarField := all.find? fun F => F.id == n

/-- The field with exactly this many elements. -/
def ofModulus? (n : Nat) : Option ScalarField := all.find? fun F => F.modulus == n

/-- The bit length of the modulus. -/
def bits (F : ScalarField) : Nat := bitLength F.modulus

/-- How many bytes an element takes. -/
def byteLength (F : ScalarField) : Nat := (F.bits + 7) / 8

def name : ScalarField → String
  | bn254 => "BN254"
  | mersenne31 => "M31"

end ScalarField
end ArithCircuit
