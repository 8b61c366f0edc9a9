import ArithCircuit.Gadget.Sha256
import Mathlib.Data.Nat.NthRoot.Defs
import Mathlib.Data.Nat.Prime.Basic

/-!
SHA-256 as the standard tells it, on bytes and on words of 32 bits, without circuits. Its constants are
binary places of roots of the first primes. Main statements: the constants of the gadget are these, and
its padding is the one of the standard.
-/
namespace ArithCircuit
namespace Sha256.Standard

/-! ### Functions and constants -/

/-- Bit by bit, `y` where `x` is one and `z` where it is zero. -/
def ch (x y z : BitVec 32) : BitVec 32 := (x &&& y) ^^^ (~~~x &&& z)

def maj (x y z : BitVec 32) : BitVec 32 := (x &&& y) ^^^ (x &&& z) ^^^ (y &&& z)

def bigSigma0 (x : BitVec 32) : BitVec 32 := x.rotateRight 2 ^^^ x.rotateRight 13 ^^^ x.rotateRight 22

def bigSigma1 (x : BitVec 32) : BitVec 32 := x.rotateRight 6 ^^^ x.rotateRight 11 ^^^ x.rotateRight 25

def smallSigma0 (x : BitVec 32) : BitVec 32 := x.rotateRight 7 ^^^ x.rotateRight 18 ^^^ x >>> 3

def smallSigma1 (x : BitVec 32) : BitVec 32 := x.rotateRight 17 ^^^ x.rotateRight 19 ^^^ x >>> 10

/-- The first 32 binary places of a root of `n`. -/
def rootPlaces (degree n : Nat) : BitVec 32 := .ofNat 32 (Nat.nthRoot degree (n * 2 ^ (32 * degree)))

/-- The first 64 primes. -/
def primes : List Nat := (List.range 312).filter Nat.Prime

/-- The constant of each round. -/
def constants : List (BitVec 32) := primes.map (rootPlaces 3)

/-- The words before the first block, from the first eight primes. -/
def start : State (BitVec 32) :=
  ⟨rootPlaces 2 2, rootPlaces 2 3, rootPlaces 2 5, rootPlaces 2 7, rootPlaces 2 11, rootPlaces 2 13, rootPlaces 2 17,
    rootPlaces 2 19⟩

theorem prime_iff_of_lt {p : Nat} (small : p < 18 * 18) : p.Prime ↔ 2 ≤ p ∧ ∀ m < 18, 2 ≤ m → m < p → ¬ m ∣ p := by
  constructor
  · intro prime
    refine ⟨prime.two_le, fun m _ two below divides => ?_⟩
    rcases (Nat.dvd_prime prime).mp divides with one | same <;> omega
  · rintro ⟨two, none⟩
    refine Nat.prime_def_le_sqrt.mpr ⟨two, fun m large le divides => ?_⟩
    have small : m < 18 := le.trans_lt (Nat.sqrt_lt.mpr small)
    exact none m small large (le.trans_lt (Nat.sqrt_lt_self two)) divides

theorem primes_eq : primes = [
    2, 3, 5, 7, 11, 13, 17, 19, 23, 29, 31, 37, 41, 43, 47, 53, 59, 61, 67, 71, 73, 79, 83, 89, 97, 101, 103, 107, 109, 113,
    127, 131, 137, 139, 149, 151, 157, 163, 167, 173, 179, 181, 191, 193, 197, 199, 211, 223, 227, 229, 233, 239, 241, 251,
    257, 263, 269, 271, 277, 281, 283, 293, 307, 311] := by
  have listed : primes = (List.range 312).filter fun p => 2 ≤ p ∧ ∀ m < 18, 2 ≤ m → m < p → ¬ m ∣ p := by
    refine List.filter_congr fun p member => decide_eq_decide.mpr (prime_iff_of_lt ?_)
    exact (List.mem_range.mp member).trans (by decide)
  rw [listed]
  decide +kernel

theorem constants_eq : constants = roundConstants.map (BitVec.ofNat 32) := by
  rw [constants, primes_eq]
  decide +kernel

theorem start_eq : start = initial.map (BitVec.ofNat 32) := by
  simp only [start, initial, State.map, State.mk.injEq]
  decide +kernel

/-! ### Blocks -/

/-- The next word of a schedule, from four of the sixteen words that end it, the first of them at `t`. -/
def nextWord (words : List (BitVec 32)) (t : Nat) : BitVec 32 :=
  smallSigma1 (words.getD (t + 14) 0) + words.getD (t + 9) 0 + smallSigma0 (words.getD (t + 1) 0) + words.getD t 0

/-- The words of a schedule, sixteen of a block and 48 more. -/
def schedule (block : List (BitVec 32)) : List (BitVec 32) :=
  (List.range 48).foldl (fun words t => words ++ [nextWord words t]) block

/-- One round, with its constant and its word of the schedule. -/
def round (s : State (BitVec 32)) (k w : BitVec 32) : State (BitVec 32) :=
  let t₁ := s.h + bigSigma1 s.e + ch s.e s.f s.g + k + w
  let t₂ := bigSigma0 s.a + maj s.a s.b s.c
  ⟨t₁ + t₂, s.a, s.b, s.c, s.d + t₁, s.e, s.f, s.g⟩

def rounds (s : State (BitVec 32)) (inputs : List (BitVec 32 × BitVec 32)) : State (BitVec 32) :=
  inputs.foldl (fun s kw => round s kw.1 kw.2) s

/-- The words after a block of sixteen words. -/
def compress (s : State (BitVec 32)) (block : List (BitVec 32)) : State (BitVec 32) :=
  let t := rounds s (constants.zip (schedule block))
  ⟨s.a + t.a, s.b + t.b, s.c + t.c, s.d + t.d, s.e + t.e, s.f + t.f, s.g + t.g, s.h + t.h⟩

/-! ### Messages -/

/-- The number of zero bytes between the mark and the length: the least that ends a block. -/
def zeros (length : Nat) : Nat := (119 - length % 64) % 64

/-- A message with a mark, zeros and its length in bits, as a number of eight bytes, highest first. -/
def pad (message : List (BitVec 8)) : List (BitVec 8) :=
  message ++ 0x80 :: List.replicate (zeros message.length) 0 ++
    (List.range 8).map fun i => (BitVec.ofNat 64 (8 * message.length)).extractLsb' (56 - 8 * i) 8

/-- The word of four bytes, highest first. -/
def word : List (BitVec 8) → BitVec 32
  | [b₃, b₂, b₁, b₀] => b₃ ++ b₂ ++ b₁ ++ b₀
  | _ => 0

/-- The bytes of a word, highest first. -/
def bytes (w : BitVec 32) : List (BitVec 8) := (List.range 4).map fun i => w.extractLsb' (24 - 8 * i) 8

/-- The words after some blocks of 64 bytes. -/
def compressAll (s : State (BitVec 32)) (blocks : List (List (BitVec 8))) : State (BitVec 32) :=
  blocks.foldl (fun s block => compress s ((chunks 4 block).map word)) s

/-- The 32 bytes of the digest of a message. -/
def digest (message : List (BitVec 8)) : List (BitVec 8) :=
  (compressAll start (chunks 64 (pad message))).toList.flatMap bytes

example : digest [0x61, 0x62, 0x63] = [
    0xba, 0x78, 0x16, 0xbf, 0x8f, 0x01, 0xcf, 0xea, 0x41, 0x41, 0x40, 0xde, 0x5d, 0xae, 0x22, 0x23,
    0xb0, 0x03, 0x61, 0xa3, 0x96, 0x17, 0x7a, 0x9c, 0xb4, 0x10, 0xff, 0x61, 0xf2, 0x00, 0x15, 0xad] := by
  simp only [digest, compressAll, compress, constants_eq]
  decide +kernel

/-- With the mark and the length, the zeros fill whole blocks, and no fewer zeros do. -/
theorem zeros_least (length : Nat) :
    64 ∣ length + 1 + zeros length + 8 ∧ ∀ count, 64 ∣ length + 1 + count + 8 → zeros length ≤ count := by
  unfold zeros
  constructor
  · omega
  · intro count whole
    omega

/-- One byte of a number of eight bytes. -/
theorem extractLsb'_ofNat_64 {i : Nat} (inside : i < 8) (n : Nat) :
    (BitVec.ofNat 64 n).extractLsb' (8 * i) 8 = BitVec.ofNat 8 (n / Nat.pow 256 i % 256) := by
  refine BitVec.eq_of_getLsbD_eq fun j below => ?_
  have power : Nat.pow 256 i = 2 ^ (8 * i) := by rw [pow_mul]; rfl
  have place : 8 * i + j < 64 := by omega
  rw [BitVec.getLsbD_extractLsb', BitVec.getLsbD_ofNat, BitVec.getLsbD_ofNat, power, show 256 = 2 ^ 8 from rfl,
    Nat.testBit_mod_two_pow, Nat.testBit_div_two_pow]
  simp [below, place, Nat.add_comm j]

/-- The bytes that the gadget adds to a message are those of the standard. -/
theorem pad_eq (message : List (BitVec 8)) :
    pad message = message ++ (padding message.length).map (BitVec.ofNat 8) := by
  have count : paddedLength message.length - message.length - 9 = zeros message.length := by
    unfold paddedLength zeros
    omega
  have size : ((List.range 8).map fun i => (BitVec.ofNat 64 (8 * message.length)).extractLsb' (56 - 8 * i) 8) =
      (bigEndian64 (message.length * 8)).map (BitVec.ofNat 8) := by
    have reversed : (List.range 8).reverse = (List.range 8).map (7 - ·) := by decide
    rw [bigEndian64, reversed, List.map_map, List.map_map]
    refine List.map_congr_left fun i member => ?_
    have below := List.mem_range.mp member
    have place : 56 - 8 * i = 8 * (7 - i) := by omega
    rw [place, extractLsb'_ofNat_64 (by omega), Nat.mul_comm]
    rfl
  rw [pad, padding, count, size]
  simp

end Sha256.Standard
end ArithCircuit
