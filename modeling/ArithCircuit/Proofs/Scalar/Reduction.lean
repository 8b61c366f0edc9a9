import Mathlib.Data.Nat.Digits.Lemmas
import ArithCircuit.Proofs.Scalar.Bytes
import ArithCircuit.Proofs.Scalar.Ring

/-!
Numbers of any size as field elements, and field elements as bytes. Reduction works through the digits in base
`2 ^ 64` from the highest down and never leaves the field: each step keeps the residue of the digits it has seen. The
byte form is the representative's digits in base 256, filled up with zeros, so bytes of the right length stand for an
element exactly if the number that they spell is below the modulus.
-/
namespace ArithCircuit

/-! ### Residues -/

namespace Scalar
variable {F : ScalarField}

theorem limbs_eq_digits (n : Nat) : limbs n = Nat.digits (2 ^ 64) n := by
  induction n using limbs.induct with
  | case1 => rw [limbs, if_pos rfl, Nat.digits_zero]
  | case2 n positive ih =>
    rw [limbs, if_neg positive, ih, Nat.digits_def' (by decide) (Nat.pos_of_ne_zero positive)]
    rfl

/-- The base of the digits, which is squared in the field because it takes one bit more than a digit. -/
theorem limbBase_eq : (ofNat (Nat.pow 2 32) * ofNat (Nat.pow 2 32) : Scalar F) = ((2 ^ 64 : Nat) : Scalar F) := by
  rw [← natCast_eq, ← Nat.cast_mul]
  rfl

/-- One more digit below the others. -/
theorem ofLimbs_cons (digit : Nat) (digits : List Nat) :
    (ofLimbs (digit :: digits) : Scalar F) = (digit : Scalar F) + ((2 ^ 64 : Nat) : Scalar F) * ofLimbs digits := by
  rw [← limbBase_eq, mul_comm, add_comm]
  rfl

theorem ofLimbs_eq_ofDigits (digits : List Nat) : (ofLimbs digits : Scalar F) = (Nat.ofDigits (2 ^ 64) digits : Nat) := by
  induction digits with
  | nil => rfl
  | cons digit digits ih => rw [ofLimbs_cons, ih, Nat.ofDigits_cons, Nat.cast_add, Nat.cast_mul]

theorem reduce_eq_natCast (n : Nat) : (reduce n : Scalar F) = n := by
  rw [reduce, limbs_eq_digits, ofLimbs_eq_ofDigits, Nat.ofDigits_digits]

theorem ofInt_eq_intCast (i : Int) : (ofInt i : Scalar F) = i := by
  rw [ofInt, ← natCast_eq, ← Int.cast_natCast]
  split
  · rename_i negative
    rw [← Int.cast_neg, Int.ofNat_natAbs_of_nonpos negative.le, neg_neg]
  · rename_i nonnegative
    rw [Int.natAbs_of_nonneg (Int.not_lt.mp nonnegative)]

/-- The representative of an integer is its remainder, which is never negative. -/
theorem val_intCast (i : Int) : ((i : Scalar F).val : Int) = i % F.modulus := by
  have nonneg : 0 ≤ i % F.modulus := Int.emod_nonneg _ (Int.natCast_ne_zero.mpr F.modulus_pos.ne')
  have below : i % F.modulus < F.modulus := Int.emod_lt_of_pos _ (Int.natCast_pos.mpr F.modulus_pos)
  obtain ⟨remainder, same⟩ := Int.eq_ofNat_of_zero_le nonneg
  have cast : (i : Scalar F) = (remainder : Scalar F) := by
    calc (i : Scalar F) = ((i % F.modulus + F.modulus * (i / F.modulus) : Int) : Scalar F) := by rw [Int.emod_add_mul_ediv]
      _ = (remainder : Scalar F) := by
        rw [Int.cast_add, Int.cast_mul, Int.cast_natCast, modulus_cast, zero_mul, add_zero, same, Int.cast_natCast]
  rw [cast, val_natCast, same]
  rw [same] at below
  exact congrArg Nat.cast (Nat.mod_eq_of_lt (Int.ofNat_lt.mp below))

end Scalar

/-! ### Bytes -/

theorem ofLittleEndian_eq_ofDigits (bytes : List UInt8) :
    ofLittleEndian bytes = Nat.ofDigits 256 (bytes.map UInt8.toNat) := by
  induction bytes with
  | nil => rfl
  | cons byte rest ih => rw [ofLittleEndian, ih, List.map_cons, Nat.ofDigits_cons]

/-- The lowest digits in base 256, with zeros above the highest that is not zero. -/
theorem map_toNat_littleEndian {width n : Nat} (below : n < 256 ^ width) :
    (littleEndian width n).map UInt8.toNat = Nat.digitsAppend 256 width n := by
  have spelled : Nat.ofDigits 256 ((littleEndian width n).map UInt8.toNat) = n := by
    rw [← ofLittleEndian_eq_ofDigits, ofLittleEndian_littleEndian below]
  have bytes : ∀ digit ∈ (littleEndian width n).map UInt8.toNat, digit < 256 :=
    List.forall_mem_map.mpr fun byte _ => byte.toNat_lt
  have again := (Nat.setInvOn_digitsAppend_ofDigits (b := 256) (by decide) width).1 ⟨by simp, bytes⟩
  rw [← again, spelled]

namespace Scalar
variable {F : ScalarField}

theorem exists_ofBytes?_iff {bytes : List UInt8} :
    (∃ x : Scalar F, ofBytes? bytes = some x) ↔ bytes.length = F.byteLength ∧ ofLittleEndian bytes < F.modulus := by
  rw [ofBytes?]
  by_cases length : bytes.length = F.byteLength
  · by_cases below : ofLittleEndian bytes < F.modulus
    · simp [length, below]
    · simp [length, below]
  · simp [length]

/-- Numbers are reduced to their remainders, and bytes are the form of an element exactly if they have the right length
    and spell a number below the modulus. They are then the element's own digits. -/
theorem representation_exact (F : ScalarField) :
    (∀ n : Nat, (reduce n : Scalar F).val = n % F.modulus) ∧
    (∀ i : Int, ((ofInt i : Scalar F).val : Int) = i % F.modulus) ∧
    (∀ x : Scalar F, x.toBytes.length = F.byteLength ∧ ofBytes? x.toBytes = some x ∧
      x.toBytes.map UInt8.toNat = Nat.digitsAppend 256 F.byteLength x.val) ∧
    ∀ bytes : List UInt8,
      ((∃ x : Scalar F, ofBytes? bytes = some x) ↔
        bytes.length = F.byteLength ∧ Nat.ofDigits 256 (bytes.map UInt8.toNat) < F.modulus) ∧
      ∀ x : Scalar F, ofBytes? bytes = some x →
        x.toBytes = bytes ∧ x = reduce (Nat.ofDigits 256 (bytes.map UInt8.toNat)) := by
  have fits (x : Scalar F) : x.val < 256 ^ F.byteLength := x.isLt.trans_le (modulus_le_bytes F)
  refine ⟨fun n => ?_, fun i => ?_, fun x => ⟨length_toBytes x, ofBytes?_eq_some_iff.mpr rfl, ?_⟩, fun bytes => ⟨?_, ?_⟩⟩
  · rw [reduce_eq_natCast, val_natCast]
  · rw [ofInt_eq_intCast, val_intCast]
  · exact map_toNat_littleEndian (fits x)
  · rw [← ofLittleEndian_eq_ofDigits, exists_ofBytes?_iff]
  · intro x read
    obtain rfl := ofBytes?_eq_some_iff.mp read
    refine ⟨rfl, ?_⟩
    rw [← ofLittleEndian_eq_ofDigits, toBytes, ofLittleEndian_littleEndian (fits x), reduce_eq_natCast, natCast_val]

/-- The lowest integer of 64 bits leaves two less than the modulus; the last bytes in use are those of the number below
    the modulus, and the next ones are refused. -/
theorem representation_exact_mersenne31 :
    ((ofInt (-2 ^ 63) : Scalar .mersenne31).val : Int) = 2147483645 ∧
    (∃ x : Scalar .mersenne31, ofBytes? [254, 255, 255, 127] = some x ∧ x.toBytes = [254, 255, 255, 127] ∧
      x = reduce (2 ^ 31 - 2)) ∧
    ¬ ∃ x : Scalar .mersenne31, ofBytes? [255, 255, 255, 127] = some x := by
  obtain ⟨-, integers, -, forms⟩ := representation_exact .mersenne31
  refine ⟨(integers (-2 ^ 63)).trans (by decide), ?_, fun accepted => ?_⟩
  · obtain ⟨accepted, own⟩ := forms [254, 255, 255, 127]
    obtain ⟨x, read⟩ := accepted.mpr (by decide)
    exact ⟨x, read, own x read⟩
  · exact absurd ((forms [255, 255, 255, 127]).1.mp accepted) (by decide)

end Scalar
end ArithCircuit
