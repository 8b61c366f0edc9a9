import ArithCircuit.Gadget.Bit

/-!
Words of 32 bits, each bit a form that is trusted to be 0 or 1. Rotations and shifts only rename
bits; bitwise operations take at most one product per bit and operand; sums are split into bits
again, with room for the carries.
-/
namespace ArithCircuit

/-- The number of bits of a word. -/
def wordBits : Nat := 32

/-- A word, lowest bit first. -/
structure Word (F : ScalarField) where
  bits : Vector (LinearForm F) wordBits
deriving DecidableEq

namespace Word
variable {F : ScalarField}

/-- The word of a number below `2 ^ 32`. -/
def constant (n : Nat) : Word F := ⟨.ofFn fun i => .constant (.ofBool (n.testBit i))⟩

instance : Inhabited (Word F) := ⟨constant 0⟩

/-- Takes exactly 32 bits. -/
def ofBits (bits : List (LinearForm F)) : Except BuildError (Word F) :=
  if h : bits.length = wordBits then .ok ⟨⟨bits.toArray, by simp [h]⟩⟩
  else .error (.dimension wordBits bits.length)

/-- The same as a recording step. -/
def build (bits : List (LinearForm F)) : Build F (Word F) :=
  match ofBits bits with
  | .ok word => return word
  | .error e => throw e

/-- Splits a form, which must be below `2 ^ 32`. -/
def decompose (e : LinearForm F) : Build F (Word F) := do
  let bits ← Builder.toBinary e wordBits
  build bits

/-- The word of four bytes, highest byte first, each lowest bit first. -/
def ofBigEndian (b₃ b₂ b₁ b₀ : List (LinearForm F)) : Except BuildError (Word F) :=
  ofBits (b₀ ++ b₁ ++ b₂ ++ b₃)

/-- The number of the word. -/
def value (w : Word F) : LinearForm F := Builder.fromBinary w.bits.toList

/-- The four bytes, lowest first. -/
def littleEndianBytes (w : Word F) : List (LinearForm F) :=
  (List.range 4).map fun i => Builder.fromBinary ((w.bits.toList.drop (8 * i)).take 8)

/-- Rotation towards the lowest bit. -/
def rotateRight (w : Word F) (n : Nat) : Word F :=
  ⟨.ofFn fun i => w.bits.get ⟨(i.val + n) % wordBits, Nat.mod_lt _ (by decide)⟩⟩

/-- Shift towards the lowest bit. -/
def shiftRight (w : Word F) (n : Nat) : Word F := ⟨.ofFn fun i => w.bits[i.val + n]?.getD .zero⟩

def not (w : Word F) : Word F := ⟨w.bits.map Bit.not⟩

def xor (x y : Word F) : Build F (Word F) := do
  let bits ← (x.bits.zip y.bits).mapM fun (a, b) => Bit.xor a b
  return ⟨bits⟩

def and (x y : Word F) : Build F (Word F) := do
  let bits ← (x.bits.zip y.bits).mapM fun (a, b) => Bit.and a b
  return ⟨bits⟩

/-- Bit by bit, `t` where `c` is one and `f` where it is zero. -/
def select (c t f : Word F) : Build F (Word F) := do
  let bits ← (c.bits.zip (t.bits.zip f.bits)).mapM fun (c, t, f) => Bit.select c t f
  return ⟨bits⟩

/-- Bit by bit, what at least two of three words have. -/
def majority (x y z : Word F) : Build F (Word F) := do
  let bits ← (x.bits.zip (y.bits.zip z.bits)).mapM fun (x, y, z) => do
    let differ ← Bit.xor x y
    Bit.select differ z x
  return ⟨bits⟩

/-- The sum of words modulo `2 ^ 32`. -/
def sum (words : List (Word F)) : Build F (Word F) := do
  let carryBits := bitLength (words.length - 1)
  let total := words.foldl (fun total w => total + w.value) LinearForm.zero
  let bits ← Builder.toBinary total (wordBits + carryBits)
  build (bits.take wordBits)

end Word
end ArithCircuit
