import ArithCircuit.Proofs.Gadget.Word

/-!
The operations on words are the bitwise operations on numbers of 32 bits. Each bit of an operand may be a
constant or not, and a constant one is decided when the operation is recorded; on every such pattern the
result is the same number.
-/
namespace ArithCircuit
variable {F : ScalarField}

namespace Word

/-- All bits of a word are 0 or 1. -/
def Boolean (w : Wire → Scalar F) (X : Word F) : Prop := ∀ e ∈ X.bits.toList, e.eval w = 0 ∨ e.eval w = 1

/-- The number that the bits of a word make. -/
def number (w : Wire → Scalar F) (X : Word F) : BitVec 32 := .ofNat 32 (numeral w X.bits.toList)

/-- The bits of one of the four bytes of a word, the lowest byte being the first. -/
def byte (X : Word F) (i : Nat) : List (LinearForm F) := (X.bits.toList.drop (8 * i)).take 8

/-- A step succeeds, records products only and makes a word. Wherever the products are kept and the operands
    are made of bits, the word is made of bits and has a given number. -/
def Calculates (step : Build F (Word F)) (operands : List (Word F)) (value : (Wire → Scalar F) → BitVec 32) : Prop :=
  ∀ b, ∃ R pairs, step b = .ok R (b.multiplied pairs) ∧
    ∀ W w, w Wire.one = 1 → (∀ i ∈ Builder.products b.nextWire pairs, i.Holds W w) →
      (∀ X ∈ operands, X.Boolean w) → R.Boolean w ∧ R.number w = value w

section
variable {w : Wire → Scalar F} {X : Word F} {x : BitVec 32}

theorem shows_iff : X.Shows w x ↔ X.Boolean w ∧ X.number w = x := by
  constructor
  · intro shows
    have spells := shows_iff_spells.mp shows
    refine ⟨spells.boolean, ?_⟩
    rw [number, spells.numeral_eq, BitVec.ofNat_toNat, BitVec.setWidth_eq]
  · rintro ⟨boolean, rfl⟩
    obtain ⟨x, spells⟩ : ∃ x : BitVec 32, Spells w X.bits.toList x := exists_spells boolean X.bits.length_toList
    rw [number, spells.numeral_eq, BitVec.ofNat_toNat, BitVec.setWidth_eq]
    exact shows_iff_spells.mpr spells

theorem Boolean.shows (boolean : X.Boolean w) : X.Shows w (X.number w) := shows_iff.mpr ⟨boolean, rfl⟩

theorem Boolean.toNat_number (boolean : X.Boolean w) : (X.number w).toNat = numeral w X.bits.toList :=
  (shows_iff_spells.mp boolean.shows).numeral_eq.symm

/-- A byte always fits in the field. -/
theorem Boolean.val_littleEndianBytes (boolean : X.Boolean w) :
    X.littleEndianBytes.map (fun e => (e.eval w).val) = (List.range 4).map fun i => (X.number w).toNat / 256 ^ i % 256 := by
  have values : X.littleEndianBytes.map (fun e => (e.eval w).val) = (X.littleEndianBytes.map (·.eval w)).map Scalar.val := by
    rw [List.map_map]
    rfl
  rw [values, boolean.shows.map_littleEndianBytes, List.map_map]
  refine List.map_congr_left fun i _ => ?_
  have small : ((X.number w).extractLsb' (8 * i) 8).toNat < F.modulus := by
    have room : 2 ^ 8 ≤ F.modulus := by cases F <;> decide
    exact (BitVec.isLt _).trans_le room
  rw [Function.comp_apply, Scalar.val_natCast, Nat.mod_eq_of_lt small, BitVec.extractLsb'_toNat, Nat.shiftRight_eq_div_pow,
    Nat.pow_mul]

end

/-- A step that records products and makes the word of a number calculates it. -/
theorem calculates {step : Build F (Word F)} {operands : List (Word F)} {value : (Wire → Scalar F) → BitVec 32}
    {Q : Word F → (Wire → Scalar F) → Prop} (multiplies : Builder.Multiplies step (fun _ => True) Q)
    (shows : ∀ {R w}, (∀ X ∈ operands, X.Shows w (X.number w)) → Q R w → R.Shows w (value w)) :
    Calculates step operands value := by
  intro b
  obtain ⟨R, pairs, done, -, holds⟩ := multiplies b
  refine ⟨R, pairs, done, fun W w one kept boolean => shows_iff.mp ?_⟩
  exact shows (fun X member => (boolean X member).shows) (holds W w one kept)

theorem bytes_append (X : Word F) : X.byte 0 ++ X.byte 1 ++ X.byte 2 ++ X.byte 3 = X.bits.toList := by
  have length : X.bits.toList.length ≤ 32 := X.bits.length_toList.le
  calc X.byte 0 ++ X.byte 1 ++ X.byte 2 ++ X.byte 3 = X.bits.toList.take (8 + 8 + 8 + 8) := by
        rw [List.take_add, List.take_add, List.take_add]
        rfl
    _ = X.bits.toList := List.take_of_length_le length

theorem length_byte (X : Word F) {i : Nat} (below : i < 4) : (X.byte i).length = 8 := by
  have length : X.bits.toList.length = 32 := X.bits.length_toList
  rw [byte, List.length_take, List.length_drop, length]
  omega

/-- Four bytes of eight bits make the word that has these bytes. -/
theorem exists_ofBigEndian {b₃ b₂ b₁ b₀ : List (LinearForm F)} (lengths : ∀ bits ∈ [b₃, b₂, b₁, b₀], bits.length = 8) :
    ∃ X, ofBigEndian b₃ b₂ b₁ b₀ = .ok X ∧ [X.byte 3, X.byte 2, X.byte 1, X.byte 0] = [b₃, b₂, b₁, b₀] := by
  have length₃ : b₃.length = 8 := lengths b₃ (by simp)
  have length₂ : b₂.length = 8 := lengths b₂ (by simp)
  have length₁ : b₁.length = 8 := lengths b₁ (by simp)
  have length₀ : b₀.length = 8 := lengths b₀ (by simp)
  have length : (b₀ ++ b₁ ++ b₂ ++ b₃).length = wordBits := by
    simp only [List.length_append, length₀, length₁, length₂, length₃]
    rfl
  obtain ⟨X, made⟩ : ∃ X, ofBigEndian b₃ b₂ b₁ b₀ = .ok X := ⟨_, dif_pos length⟩
  -- Both sides spell the bits of the word, in pieces of the same lengths.
  have same : X.byte 0 ++ X.byte 1 ++ X.byte 2 ++ X.byte 3 = b₀ ++ b₁ ++ b₂ ++ b₃ :=
    (bytes_append X).trans (ofBits_eq_ok_iff.mp made)
  obtain ⟨same, same₃⟩ := List.append_inj' same ((X.length_byte (by decide)).trans length₃.symm)
  obtain ⟨same, same₂⟩ := List.append_inj' same ((X.length_byte (by decide)).trans length₂.symm)
  obtain ⟨same₀, same₁⟩ := List.append_inj' same ((X.length_byte (by decide)).trans length₁.symm)
  exact ⟨X, made, by rw [same₃, same₂, same₁, same₀]⟩

/-- The operations on words are those on numbers of 32 bits, whichever of the bits of the operands are constants.
    The bytes of a word make it again. -/
theorem operations_exact (C X Y Z : Word F) :
    Calculates (xor X Y) [X, Y] (fun w => X.number w ^^^ Y.number w) ∧
    Calculates (and X Y) [X, Y] (fun w => X.number w &&& Y.number w) ∧
    Calculates (select C X Y) [C, X, Y] (fun w => C.number w &&& X.number w ||| ~~~C.number w &&& Y.number w) ∧
    Calculates (majority X Y Z) [X, Y, Z] (fun w =>
      X.number w &&& Y.number w ||| X.number w &&& Z.number w ||| Y.number w &&& Z.number w) ∧
    (∀ w, w Wire.one = 1 → X.Boolean w →
      (X.number w).toNat = numeral w X.bits.toList ∧
      (X.not.Boolean w ∧ X.not.number w = ~~~X.number w) ∧
      (∀ n, (X.rotateRight n).Boolean w ∧ (X.rotateRight n).number w = (X.number w).rotateRight (n % 32)) ∧
      (∀ n, (X.shiftRight n).Boolean w ∧ (X.shiftRight n).number w = X.number w >>> n ∧
        (32 ≤ n → (X.shiftRight n).number w = 0)) ∧
      ((X.number w).toNat < F.modulus → (X.value.eval w).val = (X.number w).toNat) ∧
      X.littleEndianBytes.map (fun e => (e.eval w).val) = (List.range 4).map fun i => (X.number w).toNat / 256 ^ i % 256) ∧
    ofBigEndian (X.byte 3) (X.byte 2) (X.byte 1) (X.byte 0) = .ok X ∧
    ∀ b₃ b₂ b₁ b₀ : List (LinearForm F), (∀ bits ∈ [b₃, b₂, b₁, b₀], bits.length = 8) →
      ∃ R, ofBigEndian b₃ b₂ b₁ b₀ = .ok R ∧ [R.byte 3, R.byte 2, R.byte 1, R.byte 0] = [b₃, b₂, b₁, b₀] := by
  refine ⟨?_, ?_, ?_, ?_, fun w one boolean => ?_, ofBits_eq_ok_iff.mpr X.bytes_append.symm, fun _ _ _ _ => exists_ofBigEndian⟩
  · exact calculates (xor_multiplies X Y) fun shows made => made (shows X (by simp)) (shows Y (by simp))
  · exact calculates (and_multiplies X Y) fun shows made => made (shows X (by simp)) (shows Y (by simp))
  · exact calculates (select_multiplies C X Y) fun shows made =>
      made (shows C (by simp)) (shows X (by simp)) (shows Y (by simp))
  · exact calculates (majority_multiplies X Y Z) fun shows made =>
      made (shows X (by simp)) (shows Y (by simp)) (shows Z (by simp))
  · have shows := boolean.shows
    refine ⟨boolean.toNat_number, shows_iff.mp (shows.not one), fun n => ?_, fun n => ?_, fun below => ?_,
      boolean.val_littleEndianBytes⟩
    · rw [BitVec.rotateRight_mod_eq_rotateRight]
      exact shows_iff.mp (shows.rotateRight n)
    · obtain ⟨bits, same⟩ := shows_iff.mp (shows.shiftRight n)
      exact ⟨bits, same, fun many => same.trans (BitVec.ushiftRight_eq_zero many)⟩
    · rw [shows.eval_value, Scalar.val_natCast, Nat.mod_eq_of_lt below]

/-- The word of a number, with a wire for its lowest bit. -/
def partly (n : Nat) (v : Wire) : Word F := ⟨(constant n).bits.set 0 (.wire v) (by decide)⟩

theorem shows_partly {w : Wire → Scalar F} (one : w Wire.one = 1) {n : Nat} {v : Wire} (lowest : w v = .ofBool (n.testBit 0)) :
    (partly n v).Shows w (BitVec.ofNat 32 n) := by
  intro i below
  rw [← shows_constant one n i below, partly, Vector.getElem_set]
  by_cases first : 0 = i
  · subst first
    rw [if_pos rfl, LinearForm.eval_wire, lowest, shows_constant one n 0 below, BitVec.getLsbD_ofNat]
    rfl
  · rw [if_neg first]

theorem legible_partly {b : Builder F} (wellFormed : b.WellFormed) (n : Nat) {v : Wire} (below : v < b.nextWire) :
    Legible.At b.nextWire (partly n v : Word F) := by
  intro e member
  have member : e ∈ (constant n).bits.set 0 (.wire v) (by decide) := member
  rcases Vector.mem_or_eq_of_mem_set member with constant | rfl
  · exact legible_constant wellFormed n e constant
  · exact .wire below

/-- What two of 13, 6 and 10 have, with wires for the lowest bits of the first two. -/
theorem operations_exact_majority : ∃ (b : Builder .mersenne31) (X Y Z R : Word .mersenne31)
    (pairs : List (LinearForm .mersenne31 × LinearForm .mersenne31)) (w : Wire → Scalar .mersenne31),
    X.bits[0] = .wire 1 ∧ X.bits[1] = .constant 0 ∧ X.bits[2] = .constant 1 ∧ Y.bits[0] = .wire 2 ∧
    majority X Y Z b = .ok R (b.multiplied pairs) ∧ w Wire.one = 1 ∧
    (∀ i ∈ Builder.products b.nextWire pairs, i.Holds (.free .any) w) ∧ (∀ V ∈ [X, Y, Z], V.Boolean w) ∧
    X.number w = 13 ∧ Y.number w = 6 ∧ Z.number w = 10 ∧ R.number w = 14 := by
  let b : Builder .mersenne31 := .blank 2 0 ∅ .empty
  have wellFormed : b.WellFormed := Builder.wellFormed_blank SubCircuits.wellFormed_empty (Nat.zero_le _) _
  obtain ⟨-, -, -, majority, -⟩ := operations_exact (constant 0) (partly 13 1) (partly 6 2) (constant 10 : Word .mersenne31)
  obtain ⟨R, pairs, done, exactly⟩ := majority b
  have keeps := majority_keeps wellFormed (legible_partly wellFormed 13 (by decide : (1 : Wire) < 3))
    (legible_partly wellFormed 6 (by decide : (2 : Wire) < 3)) (legible_constant wellFormed 10)
  have taken := (majority_behaves ..).nextWire (Builder.truthful_blank _ _ _ _) (.inl ⟨R, done⟩)
  obtain ⟨w, agree, kept⟩ := wellFormed.exists_kept (keeps.made done).1.wellFormed (taken.trans (by decide)) (.free .any)
    fun v => .ofBool (v ≠ 2)
  have value {v : Wire} (below : v < 3) : w v = .ofBool (v ≠ 2) := (agree v below).symm
  have one : w Wire.one = 1 := value (by decide)
  obtain ⟨bitsX, numberX⟩ := shows_iff.mp (shows_partly one (n := 13) (value (by decide : (1 : Wire) < 3)))
  obtain ⟨bitsY, numberY⟩ := shows_iff.mp (shows_partly one (n := 6) (value (by decide : (2 : Wire) < 3)))
  obtain ⟨bitsZ, numberZ⟩ := shows_iff.mp (shows_constant one 10)
  have bits : ∀ V ∈ [partly 13 1, partly 6 2, constant 10], V.Boolean w := by
    simp [bitsX, bitsY, bitsZ]
  refine ⟨b, _, _, _, R, pairs, w, rfl, rfl, rfl, rfl, done, one, kept, bits, numberX, numberY, numberZ, ?_⟩
  refine (exactly _ w one kept bits).2.trans ?_
  beta_reduce
  rw [numberX, numberY, numberZ]
  decide

end Word
end ArithCircuit
