import ArithCircuit.Chunks
import ArithCircuit.Gadget.Word

/-!
SHA-256 of a message whose length is known when the circuit is recorded, so that the padding is
constant.
-/
namespace ArithCircuit
namespace Sha256

/-- The eight words that a block is mixed into. -/
structure State (α : Type) where
  a : α
  b : α
  c : α
  d : α
  e : α
  f : α
  g : α
  h : α

namespace State
variable {α β : Type}

def toList (s : State α) : List α := [s.a, s.b, s.c, s.d, s.e, s.f, s.g, s.h]

def map (f : α → β) (s : State α) : State β :=
  ⟨f s.a, f s.b, f s.c, f s.d, f s.e, f s.f, f s.g, f s.h⟩

end State

/-- The state before the first block. -/
def initial : State Nat :=
  ⟨0x6a09e667, 0xbb67ae85, 0x3c6ef372, 0xa54ff53a, 0x510e527f, 0x9b05688c, 0x1f83d9ab, 0x5be0cd19⟩

/-- The constant of each round. -/
def roundConstants : List Nat := [
  0x428a2f98, 0x71374491, 0xb5c0fbcf, 0xe9b5dba5, 0x3956c25b, 0x59f111f1, 0x923f82a4, 0xab1c5ed5,
  0xd807aa98, 0x12835b01, 0x243185be, 0x550c7dc3, 0x72be5d74, 0x80deb1fe, 0x9bdc06a7, 0xc19bf174,
  0xe49b69c1, 0xefbe4786, 0x0fc19dc6, 0x240ca1cc, 0x2de92c6f, 0x4a7484aa, 0x5cb0a9dc, 0x76f988da,
  0x983e5152, 0xa831c66d, 0xb00327c8, 0xbf597fc7, 0xc6e00bf3, 0xd5a79147, 0x06ca6351, 0x14292967,
  0x27b70a85, 0x2e1b2138, 0x4d2c6dfc, 0x53380d13, 0x650a7354, 0x766a0abb, 0x81c2c92e, 0x92722c85,
  0xa2bfe8a1, 0xa81a664b, 0xc24b8b70, 0xc76c51a3, 0xd192e819, 0xd6990624, 0xf40e3585, 0x106aa070,
  0x19a4c116, 0x1e376c08, 0x2748774c, 0x34b0bcb5, 0x391c0cb3, 0x4ed8aa4a, 0x5b9cca4f, 0x682e6ff3,
  0x748f82ee, 0x78a5636f, 0x84c87814, 0x8cc70208, 0x90befffa, 0xa4506ceb, 0xbef9a3f7, 0xc67178f2]

/-- The length of a message of `length` bytes with its padding: whole blocks of 64 bytes with room
    for a mark and the length. -/
def paddedLength (length : Nat) : Nat := (length + 9 + 63) / 64 * 64

/-- The number as eight bytes, highest first, modulo `2 ^ 64`. -/
def bigEndian64 (n : Nat) : List Nat := (List.range 8).reverse.map fun i => n / Nat.pow 256 i % 256

/-- The bytes that follow a message: a mark, zeros, and the length in bits. -/
def padding (length : Nat) : List Nat :=
  0x80 :: List.replicate (paddedLength length - length - 9) 0 ++ bigEndian64 (length * 8)

variable {F : ScalarField}

/-- The bits of a constant byte. -/
def constantByte (n : Nat) : List (LinearForm F) :=
  (List.range 8).map fun i => .constant (.ofBool (n.testBit i))

def xor3 (x y z : Word F) : Build F (Word F) := do
  let xy ← x.xor y
  xy.xor z

def bigSigma0 (x : Word F) : Build F (Word F) :=
  xor3 (x.rotateRight 2) (x.rotateRight 13) (x.rotateRight 22)

def bigSigma1 (x : Word F) : Build F (Word F) :=
  xor3 (x.rotateRight 6) (x.rotateRight 11) (x.rotateRight 25)

def smallSigma0 (x : Word F) : Build F (Word F) :=
  xor3 (x.rotateRight 7) (x.rotateRight 18) (x.shiftRight 3)

def smallSigma1 (x : Word F) : Build F (Word F) :=
  xor3 (x.rotateRight 17) (x.rotateRight 19) (x.shiftRight 10)

/-- Extends the words of a block by `count` more, each mixed from four of the sixteen before it. -/
def extendSchedule : (count : Nat) → Array (Word F) → Build F (Array (Word F))
  | 0, words => return words
  | count + 1, words => do
    let t := words.size
    let s₀ ← smallSigma0 (words.getD (t - 15) default)
    let s₁ ← smallSigma1 (words.getD (t - 2) default)
    let next ← Word.sum [words.getD (t - 16) default, s₀, words.getD (t - 7) default, s₁]
    extendSchedule count (words.push next)

/-- One round, with its constant and its word of the schedule. -/
def round (s : State (Word F)) (k : Nat) (w : Word F) : Build F (State (Word F)) := do
  let sigmaE ← bigSigma1 s.e
  let choice ← Word.select s.e s.f s.g
  let constant : Word F := .constant k
  let sigmaA ← bigSigma0 s.a
  let majority ← Word.majority s.a s.b s.c
  let newE ← Word.sum [s.h, sigmaE, choice, constant, w, s.d]
  let newA ← Word.sum [s.h, sigmaE, choice, constant, w, sigmaA, majority]
  return ⟨newA, s.a, s.b, s.c, newE, s.e, s.f, s.g⟩

def rounds : State (Word F) → List (Nat × Word F) → Build F (State (Word F))
  | s, [] => return s
  | s, (k, w) :: rest => do
    let s ← round s k w
    rounds s rest

/-- Adds two states word by word. -/
def addStates (s t : State (Word F)) : Build F (State (Word F)) := do
  let a ← Word.sum [s.a, t.a]
  let b ← Word.sum [s.b, t.b]
  let c ← Word.sum [s.c, t.c]
  let d ← Word.sum [s.d, t.d]
  let e ← Word.sum [s.e, t.e]
  let f ← Word.sum [s.f, t.f]
  let g ← Word.sum [s.g, t.g]
  let h ← Word.sum [s.h, t.h]
  return ⟨a, b, c, d, e, f, g, h⟩

/-- Mixes a block of sixteen words into a state. -/
def compress (s : State (Word F)) (block : List (Word F)) : Build F (State (Word F)) := do
  let words ← extendSchedule 48 block.toArray
  let mixed ← rounds s (roundConstants.zip words.toList)
  addStates s mixed

/-- The words of a block, from the bits of its bytes. -/
def blockWords : List (List (List (LinearForm F))) → Build F (List (Word F))
  | [] => return []
  | bytes :: rest =>
    match bytes with
    | [b₃, b₂, b₁, b₀] => do
      match Word.ofBigEndian b₃ b₂ b₁ b₀ with
      | .error e => throw e
      | .ok w => return w :: (← blockWords rest)
    | _ => blockWords rest

/-- Mixes blocks of bytes into a state, in order. -/
def compressAll : State (Word F) → List (List (List (LinearForm F))) → Build F (State (Word F))
  | s, [] => return s
  | s, block :: rest => do
    let words ← blockWords (chunks 4 block)
    let s ← compress s words
    compressAll s rest

/-- Splits each byte of a message into its bits. -/
def splitBytes : List (LinearForm F) → Build F (List (List (LinearForm F)))
  | [] => return []
  | byte :: rest => do
    let bits ← Builder.toBinary byte 8
    return bits :: (← splitBytes rest)

/-- The digest of a message, given as one form per byte. -/
def digest (message : List (LinearForm F)) : Build F (State (Word F)) := do
  let bytes ← splitBytes message
  let padded := bytes ++ (padding message.length).map constantByte
  compressAll (initial.map .constant) (chunks 64 padded)

end Sha256
end ArithCircuit
