import ArithCircuit.Proofs.Gadget.Products
import Mathlib.Data.BitVec
import Mathlib.Data.Nat.Digits.Defs

/-!
Words compute as numbers of 32 bits do. Under an assignment that makes the bits of the operands 0 or 1,
the bits of a result are those of the number that the operation says; sums are taken modulo `2 ^ 32`.
-/
namespace ArithCircuit
variable {F : ScalarField} {W : World F} {b : Builder F}

open Builder (Makes Multiplies Sound Satisfied)
open LinearForm (Readable)

/-! ### Bits -/

namespace Bit

/-- Where two forms are bits, a third is the bit that an operation makes of them. -/
def Binary (op : Bool → Bool → Bool) (x y z : LinearForm F) (w : Wire → Scalar F) : Prop :=
  ∀ ⦃s t⦄, x.eval w = .ofBool s → y.eval w = .ofBool t → z.eval w = .ofBool (op s t)

/-- Where three forms are bits, a fourth is the bit that an operation makes of them. -/
def Ternary (op : Bool → Bool → Bool → Bool) (c x y z : LinearForm F) (w : Wire → Scalar F) : Prop :=
  ∀ ⦃r s t⦄, c.eval w = .ofBool r → x.eval w = .ofBool s → y.eval w = .ofBool t → z.eval w = .ofBool (op r s t)

theorem binary_xor {x y z : LinearForm F} {w : Wire → Scalar F}
    (total : z.eval w = x.eval w + y.eval w - 2 * (x.eval w * y.eval w)) : Binary Bool.xor x y z w := by
  intro s t bitX bitY
  rw [total, bitX, bitY]
  cases s <;> cases t <;> norm_num

theorem binary_and {x y z : LinearForm F} {w : Wire → Scalar F} (product : z.eval w = x.eval w * y.eval w) :
    Binary Bool.and x y z w := by
  intro s t bitX bitY
  rw [product, bitX, bitY]
  cases s <;> cases t <;> simp

theorem xor_multiplies (x y : LinearForm F) : Multiplies (xor x y) (fun _ => True) (Binary Bool.xor x y) := by
  rcases xor_cases x y with ⟨z, -, decided, total⟩ | multiplied
  · rw [decided]
    exact .pure trivial fun w one => binary_xor (total w one)
  · rw [multiplied]
    refine (Builder.mul_multiplies x y).bind fun xy _ => .pure trivial fun w _ product => binary_xor ?_
    rw [LinearForm.eval_sub, LinearForm.eval_add, LinearForm.eval_scale, product]
    rfl

theorem and_multiplies (x y : LinearForm F) : Multiplies (and x y) (fun _ => True) (Binary Bool.and x y) := by
  unfold and
  dsimp only
  split
  · rename_i zero
    refine .pure trivial fun w one => binary_and ?_
    rcases zero with zero | zero
    · rw [LinearForm.eval_of_constant? zero one, LinearForm.eval_zero, zero_mul]
    · rw [LinearForm.eval_of_constant? zero one, LinearForm.eval_zero, mul_zero]
  · split
    · rename_i isOne
      refine .pure trivial fun w one => binary_and ?_
      rw [LinearForm.eval_of_constant? isOne one, one_mul]
    · split
      · rename_i isOne
        refine .pure trivial fun w one => binary_and ?_
        rw [LinearForm.eval_of_constant? isOne one, mul_one]
      · exact (Builder.mul_multiplies x y).mono (fun _ => id) fun _ _ _ => binary_and

theorem select_multiplies (c x y : LinearForm F) : Multiplies (select c x y) (fun _ => True) (Ternary cond c x y) := by
  have exact : Multiplies (select c x y) (fun _ => True) fun z w =>
      z.eval w = y.eval w + c.eval w * (x.eval w - y.eval w) := by
    unfold select
    dsimp only
    split
    · rename_i zero
      refine .pure trivial fun w one => ?_
      rw [LinearForm.eval_of_constant? zero one]
      ring
    · split
      · rename_i isOne
        refine .pure trivial fun w one => ?_
        rw [LinearForm.eval_of_constant? isOne one]
        ring
      · exact Builder.select_multiplies c x y
  refine exact.mono (fun _ => id) fun z w _ chosen r s t bitC bitX bitY => ?_
  rw [chosen, bitC, bitX, bitY]
  cases r <;> simp

/-- Where two bits differ, a third decides. -/
theorem majority_multiplies (x y z : LinearForm F) :
    Multiplies (xor x y >>= fun differ => select differ z x) (fun _ => True) (Ternary Bool.atLeastTwo x y z) := by
  refine (xor_multiplies x y).bind fun differ _ => (select_multiplies differ z x).mono (fun _ => id) ?_
  intro r w _ selected differs s t u bitX bitY bitZ
  refine (selected (differs bitX bitY) bitZ bitX).trans (congrArg _ ?_)
  cases s <;> cases t <;> simp

end Bit

/-! ### Numbers -/

/-- Forms that show the bits of a number, lowest first. -/
def Spells (w : Wire → Scalar F) (bits : List (LinearForm F)) {n : Nat} (x : BitVec n) : Prop :=
  bits.map (·.eval w) = ((List.range n).map x.getLsbD).map .ofBool

/-- The number whose bits are the values of forms, lowest first. -/
def numeral (w : Wire → Scalar F) (bits : List (LinearForm F)) : Nat := Nat.ofDigits 2 (bits.map fun e => (e.eval w).val)

theorem natOfBits_getLsbD {n : Nat} (x : BitVec n) : natOfBits ((List.range n).map x.getLsbD) = x.toNat := by
  refine natOfBits_eq_iff.mpr ⟨by simpa using x.isLt, ?_⟩
  simp [BitVec.testBit_toNat]

theorem map_getLsbD_ofNat (n v : Nat) :
    (List.range n).map (BitVec.ofNat n v).getLsbD = (List.range n).map v.testBit := by
  refine List.map_congr_left fun i member => ?_
  rw [BitVec.getLsbD_ofNat, decide_eq_true (List.mem_range.mp member), Bool.true_and]

theorem ofDigits_ofBool (bits : List Bool) :
    Nat.ofDigits 2 (bits.map fun bit => (Scalar.ofBool bit : Scalar F).val) = natOfBits bits := by
  induction bits with
  | nil => rfl
  | cons bit rest ih =>
    rw [List.map_cons, Nat.ofDigits_cons, ih, natOfBits, Scalar.val_ofBool]

/-- Forms with bits for values show a number. -/
theorem exists_spells {w : Wire → Scalar F} {bits : List (LinearForm F)} (boolean : ∀ e ∈ bits, e.eval w = 0 ∨ e.eval w = 1)
    {n : Nat} (length : bits.length = n) : ∃ x : BitVec n, Spells w bits x := by
  obtain ⟨values, same⟩ : bits.map (·.eval w) ∈ Set.range (List.map Scalar.ofBool) := by
    rw [Set.range_list_map]
    refine List.forall_mem_map.mpr fun e member => ?_
    exact (Scalar.eq_zero_or_one_iff.mp (boolean e member)).imp fun _ => Eq.symm
  have size : values.length = n := by simpa [length] using congrArg List.length same
  obtain ⟨-, spelled⟩ := natOfBits_eq_iff.mp (rfl : natOfBits values = natOfBits values)
  refine ⟨BitVec.ofNat n (natOfBits values), ?_⟩
  rw [size] at spelled
  rw [Spells, ← same, map_getLsbD_ofNat, ← spelled]

namespace Spells
variable {w : Wire → Scalar F} {bits : List (LinearForm F)} {m n : Nat} {x : BitVec n}

theorem numeral_eq (spells : Spells w bits x) : numeral w bits = x.toNat := by
  have values : bits.map (fun e => (e.eval w).val) = (bits.map (·.eval w)).map Scalar.val := by
    rw [List.map_map]
    rfl
  rw [numeral, values, spells, List.map_map, ← natOfBits_getLsbD, ← ofDigits_ofBool]
  rfl

theorem boolean (spells : Spells w bits x) : ∀ e ∈ bits, e.eval w = 0 ∨ e.eval w = 1 := by
  intro e member
  have value : e.eval w ∈ bits.map (·.eval w) := List.mem_map_of_mem member
  rw [spells] at value
  obtain ⟨bit, -, same⟩ := List.mem_map.mp value
  exact Scalar.eq_zero_or_one_iff.mpr ⟨bit, same.symm⟩

theorem eval_getElem (spells : Spells w bits x) {i : Nat} (below : i < bits.length) :
    (bits.get ⟨i, below⟩).eval w = .ofBool (x.getLsbD i) := by
  have same := List.getElem_of_eq spells (by simpa using below)
  simpa using same

theorem append (low : Spells w bits x) {high : List (LinearForm F)} {y : BitVec m} (spells : Spells w high y) :
    Spells w (bits ++ high) (y ++ x) := by
  have lower : (List.range n).map (y ++ x).getLsbD = (List.range n).map x.getLsbD := by
    refine List.map_congr_left fun i member => ?_
    rw [BitVec.getLsbD_append, if_pos (List.mem_range.mp member)]
  have upper : ((List.range m).map (n + ·)).map (y ++ x).getLsbD = (List.range m).map y.getLsbD := by
    rw [List.map_map]
    refine List.map_congr_left fun i _ => ?_
    rw [Function.comp_apply, BitVec.getLsbD_append, if_neg (by omega), Nat.add_sub_cancel_left]
  have places : List.range (m + n) = List.range n ++ (List.range m).map (n + ·) := by rw [Nat.add_comm, List.range_add]
  rw [Spells, List.map_append, low, spells, places, List.map_append, lower, upper, List.map_append]

theorem eval_fromBinary (spells : Spells w bits x) : (Builder.fromBinary bits).eval w = (x.toNat : Scalar F) := by
  rw [Builder.eval_fromBinary, spells, Scalar.ofBinary_ofBool, natOfBits_getLsbD]

theorem of_toBinary {v : Scalar F} (same : bits.map (·.eval w) = Scalar.toBinary n v) :
    Spells w bits (BitVec.ofNat n v.val) := by
  rw [Spells, same, Scalar.toBinary_eq_map, map_getLsbD_ofNat]

/-- Part of the forms show part of the bits. -/
theorem slice (spells : Spells w bits x) (start count : Nat) (inside : start + count ≤ n) :
    Spells w ((bits.drop start).take count) (x.extractLsb' start count) := by
  rw [Spells, List.map_take, List.map_drop, spells]
  refine List.ext_getElem (by simp; omega) fun i left right => ?_
  have below : i < count := by simpa using right
  simp [below]

end Spells

/-! ### Words -/

namespace Word

/-- The bits of a word are those of a number. -/
def Shows (w : Wire → Scalar F) (X : Word F) (x : BitVec 32) : Prop :=
  ∀ i (_ : i < wordBits), X.bits[i].eval w = .ofBool (x.getLsbD i)

section
variable {w : Wire → Scalar F} {X : Word F} {x : BitVec 32}

theorem shows_iff_spells : X.Shows w x ↔ Spells w X.bits.toList x := by
  have length : X.bits.toList.length = 32 := X.bits.length_toList
  constructor
  · intro shows
    refine List.ext_getElem (by simpa using length) fun i left right => ?_
    have below : i < wordBits := by simpa using left
    simpa using shows i below
  · intro spells i below
    have inside : i < X.bits.toList.length := by simpa using below
    simpa using spells.eval_getElem inside

theorem ofBits_eq_ok_iff {bits : List (LinearForm F)} : ofBits bits = .ok X ↔ X.bits.toList = bits := by
  unfold ofBits
  constructor
  · intro made
    split at made
    · cases made
      rfl
    · cases made
  · rintro rfl
    rw [dif_pos X.bits.length_toList]
    rfl

theorem shows_of_ofBits {bits : List (LinearForm F)} (made : ofBits bits = .ok X) (spells : Spells w bits x) :
    X.Shows w x := by
  rw [shows_iff_spells, ofBits_eq_ok_iff.mp made]
  exact spells

theorem shows_constant (one : w Wire.one = 1) (k : Nat) : (constant k).Shows w (BitVec.ofNat 32 k) := by
  intro i below
  have below : i < 32 := below
  simp only [constant, Vector.getElem_ofFn, LinearForm.eval_constant one, BitVec.getLsbD_ofNat, below, decide_true,
    Bool.true_and]

theorem Shows.rotateRight (shows : X.Shows w x) (k : Nat) : (X.rotateRight k).Shows w (x.rotateRight k) := by
  intro i below
  have below : i < 32 := below
  have rotated : (X.rotateRight k).bits[i].eval w = .ofBool (x.getLsbD ((i + k) % 32)) := by
    simp only [Word.rotateRight, Vector.getElem_ofFn]
    exact shows _ _
  refine rotated.trans ?_
  rw [BitVec.getLsbD_rotateRight]
  by_cases low : i < 32 - k % 32
  · have same : (i + k) % 32 = k % 32 + i := by omega
    simp [low, same]
  · have same : (i + k) % 32 = i - (32 - k % 32) := by omega
    simp [low, same, below]

theorem Shows.shiftRight (shows : X.Shows w x) (k : Nat) : (X.shiftRight k).Shows w (x >>> k) := by
  intro i below
  simp only [Word.shiftRight, Vector.getElem_ofFn, BitVec.getLsbD_ushiftRight]
  by_cases inside : i + k < wordBits
  · rw [Vector.getElem?_eq_getElem inside, Option.getD_some, shows _ inside, Nat.add_comm]
  · have outside : 32 ≤ k + i := by
      have : ¬ i + k < 32 := inside
      omega
    rw [Vector.getElem?_eq_none (Nat.le_of_not_lt inside), Option.getD_none, LinearForm.eval_zero,
      BitVec.getLsbD_of_ge _ _ outside, Scalar.ofBool_false]

theorem Shows.not (shows : X.Shows w x) (one : w Wire.one = 1) : X.not.Shows w (~~~x) := by
  intro i below
  have inside : i < 32 := below
  rw [Word.not, Vector.getElem_map, Bit.eval_not _ one, shows i below, BitVec.getLsbD_not, decide_eq_true inside,
    Bool.true_and]
  cases x.getLsbD i <;> simp

theorem Shows.eval_value (shows : X.Shows w x) : X.value.eval w = (x.toNat : Scalar F) :=
  (shows_iff_spells.mp shows).eval_fromBinary

/-- The bytes of a word are those of its number. -/
theorem Shows.map_littleEndianBytes (shows : X.Shows w x) :
    X.littleEndianBytes.map (·.eval w) = (List.range 4).map fun i => ((x.extractLsb' (8 * i) 8).toNat : Scalar F) := by
  rw [littleEndianBytes, List.map_map]
  refine List.map_congr_left fun i member => ?_
  have below := List.mem_range.mp member
  exact ((shows_iff_spells.mp shows).slice (8 * i) 8 (by omega)).eval_fromBinary

end

section
variable (X Y Z : Word F)

/-- An operation on bits, taken bit by bit. -/
theorem zip_multiplies {step : LinearForm F → LinearForm F → Build F (LinearForm F)} {op : Bool → Bool → Bool}
    (each : ∀ x y, Multiplies (step x y) (fun _ => True) (Bit.Binary op x y)) :
    Multiplies ((X.bits.zip Y.bits).mapM (fun p => step p.1 p.2) >>= fun bits => pure (Word.mk bits)) (fun _ => True)
      fun R w => ∀ {x y : BitVec 32}, X.Shows w x → Y.Shows w y →
        ∀ i (_ : i < wordBits), R.bits[i].eval w = .ofBool (op (x.getLsbD i) (y.getLsbD i)) := by
  refine (Multiplies.vectorMapM fun p _ => each p.1 p.2).bind fun bits _ => .pure trivial ?_
  intro w _ made x y showsX showsY i below
  have bit := made i below
  rw [Vector.getElem_zip] at bit
  exact bit (showsX i below) (showsY i below)

theorem xor_multiplies : Multiplies (xor X Y) (fun _ => True) fun R w =>
    ∀ {x y}, X.Shows w x → Y.Shows w y → R.Shows w (x ^^^ y) := by
  refine (zip_multiplies X Y Bit.xor_multiplies).mono (fun _ => id) ?_
  intro R w _ bits x y showsX showsY i below
  rw [BitVec.getLsbD_xor]
  exact bits showsX showsY i below

theorem and_multiplies : Multiplies (and X Y) (fun _ => True) fun R w =>
    ∀ {x y}, X.Shows w x → Y.Shows w y → R.Shows w (x &&& y) := by
  refine (zip_multiplies X Y Bit.and_multiplies).mono (fun _ => id) ?_
  intro R w _ bits x y showsX showsY i below
  rw [BitVec.getLsbD_and]
  exact bits showsX showsY i below

/-- An operation on three bits, taken bit by bit. -/
theorem zip_multiplies₃ {step : LinearForm F → LinearForm F → LinearForm F → Build F (LinearForm F)}
    {op : Bool → Bool → Bool → Bool} (each : ∀ x y z, Multiplies (step x y z) (fun _ => True) (Bit.Ternary op x y z)) :
    Multiplies ((X.bits.zip (Y.bits.zip Z.bits)).mapM (fun p => step p.1 p.2.1 p.2.2) >>= fun bits => pure (Word.mk bits))
      (fun _ => True) fun R w => ∀ {x y z : BitVec 32}, X.Shows w x → Y.Shows w y → Z.Shows w z →
        ∀ i (_ : i < wordBits), R.bits[i].eval w = .ofBool (op (x.getLsbD i) (y.getLsbD i) (z.getLsbD i)) := by
  refine (Multiplies.vectorMapM fun p _ => each p.1 p.2.1 p.2.2).bind fun bits _ => .pure trivial ?_
  intro w _ made x y z showsX showsY showsZ i below
  have bit := made i below
  rw [Vector.getElem_zip, Vector.getElem_zip] at bit
  exact bit (showsX i below) (showsY i below) (showsZ i below)

/-- Choosing bit by bit. -/
theorem select_multiplies : Multiplies (select X Y Z) (fun _ => True) fun R w =>
    ∀ {x y z}, X.Shows w x → Y.Shows w y → Z.Shows w z → R.Shows w (x &&& y ||| ~~~x &&& z) := by
  refine (zip_multiplies₃ X Y Z Bit.select_multiplies).mono (fun _ => id) ?_
  intro R w _ bits x y z showsX showsY showsZ i below
  refine (bits showsX showsY showsZ i below).trans (congrArg _ ?_)
  have inside : i < 32 := below
  simp only [BitVec.getLsbD_or, BitVec.getLsbD_and, BitVec.getLsbD_not, inside, decide_true, Bool.true_and]
  cases x.getLsbD i <;> simp

/-- What at least two of three words have. -/
theorem majority_multiplies : Multiplies (majority X Y Z) (fun _ => True) fun R w =>
    ∀ {x y z}, X.Shows w x → Y.Shows w y → Z.Shows w z → R.Shows w (x &&& y ||| x &&& z ||| y &&& z) := by
  refine (zip_multiplies₃ X Y Z Bit.majority_multiplies).mono (fun _ => id) ?_
  intro R w _ bits x y z showsX showsY showsZ i below
  refine (bits showsX showsY showsZ i below).trans (congrArg _ ?_)
  simp only [BitVec.getLsbD_or, BitVec.getLsbD_and, Bool.atLeastTwo]

end

section
variable (sound : b.Sound W) {X Y Z : Word F} (readsX : Legible.At b.nextWire X) (readsY : Legible.At b.nextWire Y)

include sound readsX readsY

theorem xor_makes : Makes W b (xor X Y) fun R w => ∀ {x y}, X.Shows w x → Y.Shows w y → R.Shows w (x ^^^ y) :=
  (xor_multiplies X Y).makes sound (xor_keeps sound.wellFormed readsX readsY)

theorem select_makes (readsZ : Legible.At b.nextWire Z) : Makes W b (select X Y Z) fun R w =>
    ∀ {x y z}, X.Shows w x → Y.Shows w y → Z.Shows w z → R.Shows w (x &&& y ||| ~~~x &&& z) :=
  (select_multiplies X Y Z).makes sound (select_keeps sound.wellFormed readsX readsY readsZ)

theorem majority_makes (readsZ : Legible.At b.nextWire Z) : Makes W b (majority X Y Z) fun R w =>
    ∀ {x y z}, X.Shows w x → Y.Shows w y → Z.Shows w z → R.Shows w (x &&& y ||| x &&& z ||| y &&& z) :=
  (majority_multiplies X Y Z).makes sound (majority_keeps sound.wellFormed readsX readsY readsZ)

end

/-! ### Sums -/

/-- The form that a sum of words splits into bits. -/
def total (words : List (Word F)) : LinearForm F := words.foldl (fun total X => total + X.value) .zero

theorem eval_total {w : Wire → Scalar F} {words : List (Word F)} {xs : List (BitVec 32)}
    (shows : List.Forall₂ (Shows w) words xs) : (total words).eval w = ((xs.map BitVec.toNat).sum : Nat) := by
  have accumulated (e : LinearForm F) : (words.foldl (fun total X => total + X.value) e).eval w =
      e.eval w + ((xs.map BitVec.toNat).sum : Nat) := by
    induction shows generalizing e with
    | nil => simp
    | cons first _ ih =>
      rw [List.foldl_cons, ih, LinearForm.eval_add, first.eval_value, List.map_cons, List.sum_cons, Nat.cast_add, add_assoc]
  rw [total, accumulated, LinearForm.eval_zero, zero_add]

/-- The carries of a sum fit in the bits that are left for them. -/
theorem sum_toNat_lt (xs : List (BitVec 32)) : (xs.map BitVec.toNat).sum < 2 ^ (wordBits + bitLength (xs.length - 1)) := by
  have bound : (xs.map BitVec.toNat).sum ≤ xs.length * 4294967295 := by
    induction xs with
    | nil => simp
    | cons x rest ih =>
      have := x.isLt
      rw [List.map_cons, List.sum_cons, List.length_cons]
      omega
  have count : xs.length - 1 < 2 ^ bitLength (xs.length - 1) := lt_two_pow_iff_bitLength_le.mpr le_rfl
  rw [pow_add, show 2 ^ wordBits = 4294967296 from rfl]
  omega

theorem ofNat_sum_toNat (xs : List (BitVec 32)) : BitVec.ofNat 32 (xs.map BitVec.toNat).sum = xs.sum := by
  induction xs with
  | nil => rfl
  | cons x rest ih =>
    rw [List.map_cons, List.sum_cons, List.sum_cons, BitVec.ofNat_add, ih, BitVec.ofNat_toNat, BitVec.setWidth_eq]

theorem extractLsb'_ofNat {m n k : Nat} (le : 0 + m ≤ n) : (BitVec.ofNat n k).extractLsb' 0 m = BitVec.ofNat m k := by
  refine BitVec.eq_of_toNat_eq ?_
  rw [BitVec.extractLsb'_toNat, BitVec.toNat_ofNat, BitVec.toNat_ofNat, Nat.shiftRight_zero,
    Nat.mod_mod_of_dvd _ (Nat.pow_dvd_pow 2 (by omega))]

section
variable {w : Wire → Scalar F} {words : List (Word F)} {xs : List (BitVec 32)}
  (few : wordBits + bitLength (words.length - 1) ≤ F.bits - 1) (shows : List.Forall₂ (Shows w) words xs)

include few shows

/-- The sum of few words does not wrap around in the field. -/
theorem val_total : ((total words).eval w).val = (xs.map BitVec.toNat).sum := by
  have fits := (sum_toNat_lt xs).trans_le (Scalar.two_pow_le_modulus (shows.length_eq ▸ few))
  rw [eval_total shows, Scalar.val_natCast, Nat.mod_eq_of_lt fits]

theorem val_total_lt : ((total words).eval w).val < 2 ^ (wordBits + bitLength (words.length - 1)) := by
  rw [val_total few shows, shows.length_eq]
  exact sum_toNat_lt xs

/-- The lowest bits of the sum make the word of its number. -/
theorem shows_sum {bits : List (LinearForm F)} {R : Word F} (built : ofBits (bits.take wordBits) = .ok R)
    (digits : bits.map (·.eval w) = Scalar.toBinary (wordBits + bitLength (words.length - 1)) ((total words).eval w)) :
    R.Shows w xs.sum := by
  have room : 0 + 32 ≤ wordBits + bitLength (words.length - 1) := Nat.le_add_right 32 _
  have spells := (Spells.of_toBinary digits).slice 0 32 room
  rw [val_total few shows, List.drop_zero, extractLsb'_ofNat room, ofNat_sum_toNat] at spells
  exact shows_of_ofBits built spells

end

/-- Enough bits make a word. -/
theorem exists_ofBits {bits : List (LinearForm F)} {count : Nat} (length : bits.length = wordBits + count) :
    ∃ R, ofBits (bits.take wordBits) = .ok R := by
  rw [ofBits, dif_pos (by simp [length])]
  exact ⟨_, rfl⟩

/-- A sum takes its word from the bits of the total. -/
theorem sum_of_toBinary {words : List (Word F)} {bits : List (LinearForm F)} {b' : Builder F}
    (done : Builder.toBinary (total words) (wordBits + bitLength (words.length - 1)) b = .ok bits b') :
    ∃ R, ofBits (bits.take wordBits) = .ok R ∧ sum words b = .ok R b' := by
  obtain ⟨R, built⟩ := exists_ofBits (Builder.length_of_toBinary done)
  refine ⟨R, built, run_bind_eq_ok.mpr ⟨bits, b', done, ?_⟩⟩
  rw [build, built]
  rfl

/-- A sum of words that are numbers, few enough for the field, is the sum of the numbers. -/
theorem sum_makes (allows : W.rule.Allows) (sound : b.Sound W) {words : List (Word F)}
    (legible : Legible.At b.nextWire words) (few : wordBits + bitLength (words.length - 1) ≤ F.bits - 1)
    (numbers : ∀ w, b.Satisfied W w → ∃ xs, List.Forall₂ (Shows w) words xs) :
    Makes W b (sum words) fun R w => ∀ {xs}, List.Forall₂ (Shows w) words xs → R.Shows w xs.sum := by
  obtain ⟨bits, b₁, done, next, made, holds⟩ :=
    Builder.toBinary_makes allows sound (readable_total legible (.zero _)) few fun w satisfied =>
      val_total_lt few (numbers w satisfied).choose_spec
  obtain ⟨R, built, summed⟩ := sum_of_toBinary done
  refine ⟨R, b₁, summed, next, legible_ofBits (fun e member => made e (List.mem_of_mem_take member)) built, ?_⟩
  exact fun w satisfied xs shows => shows_sum few shows built (holds w satisfied)

end Word
end ArithCircuit
