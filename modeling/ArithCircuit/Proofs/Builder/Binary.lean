import ArithCircuit.Proofs.Builder.Gadgets

/-!
Binary numbers in a field. A list of bits stands for one number below the modulus as long as there are
fewer bits than the modulus has, so the bits of a value are its own.
-/
namespace ArithCircuit
variable {F : ScalarField}

namespace Scalar

/-- The sum of elements with weights 1, 2, 4 and so on. -/
def ofBinary : List (Scalar F) → Scalar F
  | [] => 0
  | x :: rest => x + 2 * ofBinary rest

/-- The lowest `count` bits of an element, lowest first. -/
def toBinary (count : Nat) (x : Scalar F) : List (Scalar F) :=
  (List.range count).map fun i => ofBool (x.val.testBit i)

end Scalar

theorem lt_two_pow_iff_bitLength_le {n k : Nat} : n < 2 ^ k ↔ bitLength n ≤ k := by
  unfold bitLength
  split
  · rename_i zero
    subst zero
    exact ⟨fun _ => Nat.zero_le _, fun _ => Nat.two_pow_pos k⟩
  · rename_i nonzero
    rw [Nat.succ_le_iff, Nat.log2_lt nonzero]

/-- The number with the given bits, lowest first. -/
def natOfBits : List Bool → Nat
  | [] => 0
  | bit :: rest => bit.toNat + 2 * natOfBits rest

theorem natOfBits_lt (bits : List Bool) : natOfBits bits < 2 ^ bits.length := by
  induction bits with
  | nil => simp [natOfBits]
  | cons bit rest ih =>
    have small := bit.toNat_lt
    rw [natOfBits, List.length_cons, Nat.pow_succ]
    omega

/-- Bits are determined by their number and by how many they are. -/
theorem natOfBits_eq_iff {bits : List Bool} {n : Nat} :
    natOfBits bits = n ↔ n < 2 ^ bits.length ∧ bits = (List.range bits.length).map n.testBit := by
  induction bits generalizing n with
  | nil => simp [natOfBits, eq_comm]
  | cons bit rest ih =>
    have tail : (List.range rest.length).map (n.testBit ∘ Nat.succ) = (List.range rest.length).map (n / 2).testBit :=
      List.map_congr_left fun i _ => Nat.testBit_succ n i
    have head : bit = n.testBit 0 ↔ bit.toNat = n % 2 := by
      rw [Nat.testBit_zero]
      cases bit <;> rcases Nat.mod_two_eq_zero_or_one n with even | odd <;> simp [*]
    have small := bit.toNat_lt
    rw [natOfBits, List.length_cons, List.range_succ_eq_map, List.map_cons, List.map_map, tail, List.cons.injEq, head,
      Nat.pow_succ]
    have half := ih (n := n / 2)
    constructor
    · intro total
      obtain ⟨below, same⟩ := half.mp (by omega)
      exact ⟨by omega, by omega, same⟩
    · rintro ⟨below, parity, same⟩
      have halved := half.mpr ⟨by omega, same⟩
      omega

namespace Scalar

theorem ofBinary_ofBool (bits : List Bool) : ofBinary (bits.map ofBool) = ((natOfBits bits : Nat) : Scalar F) := by
  induction bits with
  | nil => simp [ofBinary, natOfBits]
  | cons bit rest ih =>
    rw [List.map_cons, ofBinary, ih, natOfBits]
    cases bit <;> simp

theorem two_pow_le_modulus {count : Nat} (small : count ≤ F.bits - 1) : 2 ^ count ≤ F.modulus := by
  by_contra above
  have wide : F.bits ≤ count := lt_two_pow_iff_bitLength_le.mp (Nat.lt_of_not_le above)
  have positive : F.bits ≠ 0 := by
    intro zero
    have none := lt_two_pow_iff_bitLength_le.mpr zero.le
    exact absurd none (by simpa using F.modulus_pos.ne')
  omega

theorem toBinary_eq_map (count : Nat) (x : Scalar F) :
    toBinary count x = ((List.range count).map x.val.testBit).map ofBool := by
  rw [toBinary, List.map_map]
  rfl

theorem length_toBinary (count : Nat) (x : Scalar F) : (toBinary count x).length = count := by simp [toBinary]

/-- Bits that add up to an element are its own bits, if there are fewer of them than the modulus has. -/
theorem ofBinary_eq_iff {ys : List (Scalar F)} {x : Scalar F} {count : Nat} (length : ys.length = count)
    (few : count ≤ F.bits - 1) :
    ((∀ y ∈ ys, y = 0 ∨ y = 1) ∧ ofBinary ys = x) ↔ x.val < 2 ^ count ∧ ys = toBinary count x := by
  have fits := two_pow_le_modulus few
  constructor
  · rintro ⟨boolean, total⟩
    obtain ⟨bits, rfl⟩ : ys ∈ Set.range (List.map ofBool) := by
      rw [Set.range_list_map]
      exact fun y member => (eq_zero_or_one_iff.mp (boolean y member)).imp fun _ => Eq.symm
    rw [List.length_map] at length
    rw [ofBinary_ofBool] at total
    subst length
    have value : natOfBits bits = x.val := by
      rw [← total, val_natCast, Nat.mod_eq_of_lt ((natOfBits_lt bits).trans_le fits)]
    obtain ⟨below, same⟩ := natOfBits_eq_iff.mp value
    exact ⟨below, by rw [toBinary_eq_map, ← same]⟩
  · rintro ⟨below, same⟩
    subst same
    rw [toBinary_eq_map, ofBinary_ofBool, natOfBits_eq_iff.mpr ⟨by simpa using below, by simp⟩, natCast_val]
    refine ⟨List.forall_mem_map.mpr fun bit _ => ?_, rfl⟩
    exact eq_zero_or_one_iff.mpr ⟨bit, rfl⟩

end Scalar

/-- The hint for bits gives those of a value that has no more of them. -/
theorem Hint.toBinary_eq (x : Scalar F) (count : Nat) : Hint.toBinary [x] count =
    if x.val < 2 ^ count then .ok (Scalar.toBinary count x) else .error (.valueOutOfRange count) := by
  simp only [Hint.toBinary, lt_two_pow_iff_bitLength_le, Scalar.toBinary]

namespace Builder
variable {W : World F} {b : Builder F}

open LinearForm (eval_congr)

theorem eval_addWeighted (weight : Scalar F) (sum : LinearForm F) (bits : List (LinearForm F)) (w : Wire → Scalar F) :
    (addWeighted weight sum bits).eval w = sum.eval w + weight * Scalar.ofBinary (bits.map (·.eval w)) := by
  induction bits generalizing weight sum with
  | nil => simp [addWeighted, Scalar.ofBinary]
  | cons bit rest ih =>
    rw [addWeighted, ih, LinearForm.eval_add, LinearForm.eval_scale, List.map_cons, Scalar.ofBinary]
    ring

theorem eval_fromBinary (bits : List (LinearForm F)) (w : Wire → Scalar F) :
    (fromBinary bits).eval w = Scalar.ofBinary (bits.map (·.eval w)) := by
  rw [fromBinary, eval_addWeighted, LinearForm.eval_zero, zero_add, one_mul]

theorem reads_addWeighted {n : Nat} {weight : Scalar F} {sum : LinearForm F} {bits : List (LinearForm F)}
    (readsSum : sum.Reads n) (reads : ∀ e ∈ bits, e.Reads n) : (addWeighted weight sum bits).Reads n := by
  induction bits generalizing weight sum with
  | nil => exact readsSum
  | cons bit rest ih =>
    obtain ⟨first, others⟩ := List.forall_mem_cons.mp reads
    exact ih (readsSum.add (first.scale weight)) others

theorem reads_fromBinary {n : Nat} {bits : List (LinearForm F)} (reads : ∀ e ∈ bits, e.Reads n) :
    (fromBinary bits).Reads n :=
  reads_addWeighted (LinearForm.reads_zero n) reads

theorem assertAllBoolean_performs (good : b.Good W) {bits : List (LinearForm F)} (reads : ∀ e ∈ bits, e.Reads b.nextWire) :
    Performs W b (assertAllBoolean bits) fun w (_ : Unit) => ∀ e ∈ bits, e.eval w = 0 ∨ e.eval w = 1 := by
  induction bits generalizing b with
  | nil => exact (Performs.done good).congr (by simp)
  | cons bit rest ih =>
    obtain ⟨first, others⟩ := List.forall_mem_cons.mp reads
    refine (Performs.demand (S := fun w (_ : Unit) => ∀ e ∈ rest, e.eval w = 0 ∨ e.eval w = 1)
      (assertBoolean_performs good first) (fun b₁ recorded _ => ?_) (fun agree same => ?_)).congr (by simp)
    · exact ih recorded.good fun e member => LinearForm.reads_mono recorded.nextWire (others e member)
    · intro e member
      rw [← eval_congr (others e member) agree]
      exact same e member

theorem toBinary_performs (allows : W.rule.Allows) (good : b.Good W) {e : LinearForm F} (reads : e.Reads b.nextWire)
    (count : Nat) :
    Performs W b (toBinary e count) fun w ys => (e.eval w).val < 2 ^ count ∧ ys = Scalar.toBinary count (e.eval w) := by
  rw [toBinary]
  split
  · exact .failed _ nofun
  · rename_i few
    refine (Performs.bind (S := fun w ys zs => (∀ y ∈ ys, y = 0 ∨ y = 1) ∧ Scalar.ofBinary ys = e.eval w ∧ zs = ys)
      (recordHint_performs good .toBinary (List.forall_mem_singleton.mpr reads) count)
      (fun bits b₁ recorded read _ => ?_) (fun agree same => ?_)).congr fun {w zs} _ => ?_
    · have reads := LinearForm.reads_mono recorded.nextWire reads
      refine (Performs.demand (S := fun w zs => Scalar.ofBinary (bits.map (·.eval w)) = e.eval w ∧
          zs = bits.map (·.eval w)) (assertAllBoolean_performs recorded.good read)
        (fun b₂ recorded' _ => ?_) (fun {w w'} _ agree same => ?_)).congr (by simp)
      · have read := fun d member => LinearForm.reads_mono recorded'.nextWire (read d member)
        refine (Performs.demand (S := fun w zs => zs = bits.map (·.eval w))
          (assertEqual_performs recorded'.good (reads_fromBinary read) (LinearForm.reads_mono recorded'.nextWire reads))
          (fun b₃ recorded'' _ => ?_) (fun agree same => ?_)).congr fun _ => ?_
        · exact Performs.pure recorded''.good fun d member => LinearForm.reads_mono recorded''.nextWire (read d member)
        · exact same.trans (Readout.value_congr (a := bits) read agree)
        · rw [eval_fromBinary]
      · have kept : bits.map (·.eval w) = bits.map (·.eval w') := Readout.value_congr (a := bits) read agree
        rwa [← kept, ← eval_congr reads agree]
    · rwa [← eval_congr reads agree]
    · constructor
      · rintro ⟨ys, ⟨rfl, _⟩, boolean, total, rfl⟩
        exact (Scalar.ofBinary_eq_iff rfl (Nat.le_of_not_lt few)).mp ⟨boolean, total⟩
      · rintro ⟨below, rfl⟩
        have length := Scalar.length_toBinary count (e.eval w)
        obtain ⟨boolean, total⟩ := (Scalar.ofBinary_eq_iff length (Nat.le_of_not_lt few)).mpr ⟨below, rfl⟩
        refine ⟨_, ⟨length, allows .toBinary [e.eval w] _ ?_⟩, boolean, total, rfl⟩
        rw [length, BuiltinHint.run, Hint.toBinary_eq, if_pos below]

end Builder
end ArithCircuit
