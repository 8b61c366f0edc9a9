import ArithCircuit.Gadget.Bit

/-!
Adding binary numbers by parallel prefixes. A span of bits generates a carry, or propagates one from
below; joining adjacent spans is associative, so all carries come from two sweeps over a tree of
spans. A span never does both, so its carry is a plain sum.
-/
namespace ArithCircuit

/-- Whether a span of bits yields a carry by itself, and whether it passes one on. -/
structure Span (F : ScalarField) where
  generate : LinearForm F
  propagate : LinearForm F

namespace Span
variable {F : ScalarField}

instance : Inhabited (Span F) := ⟨⟨.zero, .zero⟩⟩

/-- The span of two adjacent spans. -/
def join (high low : Span F) : Build F (Span F) := do
  let carried ← Builder.mul high.propagate low.generate
  let propagate ← Builder.mul high.propagate low.propagate
  return ⟨high.generate + carried, propagate⟩

/-- The numbers from `first` to below `bound`, in steps of `step`. -/
def stride (first bound step : Nat) : List Nat :=
  (List.range ((bound - first + step - 1) / step)).map fun i => first + step * i

/-- Joins the spans that end at the given positions with those that end `distance` below. -/
def joinAt (distance : Nat) : List Nat → Array (Span F) → Build F (Array (Span F))
  | [], spans => return spans
  | i :: rest, spans => do
    let joined ← join (spans.getD i default) (spans.getD (i - distance) default)
    joinAt distance rest (spans.setIfInBounds i joined)

/-- Joins the spans of each level `d`, which end at the positions that `first` gives. -/
def sweep (first : Nat → Nat) : List Nat → Array (Span F) → Build F (Array (Span F))
  | [], spans => return spans
  | level :: rest, spans => do
    let d := 2 ^ level
    let spans ← joinAt d (stride (first d) spans.size (2 * d)) spans
    sweep first rest spans

/-- Turns the spans of single bits into the spans from bit 0 up to each bit: a sweep up joins spans
    of doubling length, a sweep down fills in the others. -/
def prefixes (spans : Array (Span F)) : Build F (Array (Span F)) := do
  let levels := bitLength (spans.size - 1)
  let spans ← sweep (fun d => 2 * d - 1) (List.range levels) spans
  sweep (fun d => 3 * d - 1) (List.range (levels - 1)).reverse spans

end Span

namespace PrefixAdder
variable {F : ScalarField}

/-- What each pair of bits propagates. -/
def propagateAll : List (LinearForm F × LinearForm F) → Build F (List (LinearForm F))
  | [] => return []
  | (x, y) :: rest => do
    let p ← Bit.xor x y
    return p :: (← propagateAll rest)

/-- What each pair of bits generates. -/
def generateAll : List (LinearForm F × LinearForm F) → Build F (List (LinearForm F))
  | [] => return []
  | (x, y) :: rest => do
    let g ← Builder.mul x y
    return g :: (← generateAll rest)

/-- The bits of the sum: what a position propagates, flipped by the carry that comes in. Returns the
    last carry too. -/
def sumBits : LinearForm F → List (LinearForm F × Span F) →
    Build F (List (LinearForm F) × LinearForm F)
  | carry, [] => return ([], carry)
  | carry, (p, span) :: rest => do
    let bit ← Bit.xor p carry
    let (bits, last) ← sumBits span.generate rest
    return (bit :: bits, last)

/-- Adds two binary numbers of equal width and a carry. Returns the bits of the sum, lowest first,
    and the carry out. -/
def add (a b : List (LinearForm F)) (carry : LinearForm F) :
    Build F (List (LinearForm F) × LinearForm F) := do
  if a.length ≠ b.length then throw (.dimension a.length b.length)
  let pairs := a.zip b
  let propagate ← propagateAll pairs
  let generate ← generateAll pairs
  match propagate, generate with
  | p :: ps, g :: gs =>
    -- The carry in is one more way for the lowest bit to generate a carry.
    let absorbed ← Builder.mul p carry
    let spans := ⟨g + absorbed, p⟩ :: (gs.zip ps).map fun (g, p) => ⟨g, p⟩
    let spans ← Span.prefixes spans.toArray
    sumBits carry (propagate.zip spans.toList)
  | _, _ => return ([], carry)

end PrefixAdder
end ArithCircuit
