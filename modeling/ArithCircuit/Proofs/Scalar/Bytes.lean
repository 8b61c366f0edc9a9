import Mathlib.Tactic.Ring
import ArithCircuit.Scalar.Bytes

/-!
Byte forms determine what they spell. A number below `256 ^ width` has exactly one spelling of `width`
bytes, so a field element has exactly one byte form.
-/
namespace ArithCircuit

@[simp] theorem length_littleEndian (width n : Nat) : (littleEndian width n).length = width := by
  induction width generalizing n with
  | zero => rfl
  | succ width ih => simp [littleEndian, ih]

theorem ofLittleEndian_littleEndian {width n : Nat} (below : n < 256 ^ width) :
    ofLittleEndian (littleEndian width n) = n := by
  induction width generalizing n with
  | zero =>
    have zero : n = 0 := by simpa using below
    simp [littleEndian, ofLittleEndian, zero]
  | succ width ih =>
    have quotient : n / 256 < 256 ^ width := by
      rw [Nat.pow_succ] at below
      omega
    rw [littleEndian, ofLittleEndian, ih quotient, UInt8.toNat_ofNat']
    omega

theorem ofLittleEndian_lt (bytes : List UInt8) : ofLittleEndian bytes < 256 ^ bytes.length := by
  induction bytes with
  | nil => simp [ofLittleEndian]
  | cons byte rest ih =>
    have small := byte.toNat_lt
    rw [ofLittleEndian, List.length_cons, Nat.pow_succ]
    omega

theorem littleEndian_ofLittleEndian (bytes : List UInt8) :
    littleEndian bytes.length (ofLittleEndian bytes) = bytes := by
  induction bytes with
  | nil => rfl
  | cons byte rest ih =>
    have small := byte.toNat_lt
    have high : (byte.toNat + 256 * ofLittleEndian rest) / 256 = ofLittleEndian rest := by omega
    have low : UInt8.ofNat (byte.toNat + 256 * ofLittleEndian rest) = byte := by
      apply UInt8.toNat_inj.mp
      rw [UInt8.toNat_ofNat']
      omega
    rw [List.length_cons, ofLittleEndian, littleEndian, high, low, ih]

namespace Scalar
variable {F : ScalarField}

theorem modulus_le_bytes (F : ScalarField) : F.modulus ≤ 256 ^ F.byteLength := by
  cases F <;> decide +kernel

@[simp] theorem length_toBytes (a : Scalar F) : a.toBytes.length = F.byteLength := length_littleEndian ..

/-- Bytes are the form of an element exactly when they are its own. -/
theorem ofBytes?_eq_some_iff {bytes : List UInt8} {a : Scalar F} : ofBytes? bytes = some a ↔ a.toBytes = bytes := by
  rw [ofBytes?]
  constructor
  · intro read
    split at read
    · rename_i length
      dsimp only at read
      split at read
      · cases read
        rw [toBytes, ← length, littleEndian_ofLittleEndian]
      · cases read
    · cases read
  · rintro rfl
    have value : ofLittleEndian a.toBytes = a.val :=
      ofLittleEndian_littleEndian (a.isLt.trans_le (modulus_le_bytes F))
    simp [value, a.isLt]

end Scalar
end ArithCircuit
