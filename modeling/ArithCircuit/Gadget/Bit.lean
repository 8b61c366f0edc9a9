import ArithCircuit.Builder.Gadgets

/-!
Operations on bits that are trusted to be 0 or 1. A constant operand costs nothing.
-/
namespace ArithCircuit
namespace Bit
variable {F : ScalarField}

def not (x : LinearForm F) : LinearForm F := .constant 1 - x

/-- `x + y - 2xy`. -/
def xor (x y : LinearForm F) : Build F (LinearForm F) :=
  let a := x.constant?
  let b := y.constant?
  if a = some 0 then return y
  else if b = some 0 then return x
  else if a = some 1 then return not y
  else if b = some 1 then return not x
  else do
    let xy ← Builder.mul x y
    return x + y - xy.scale (.ofNat 2)

/-- `xy`. -/
def and (x y : LinearForm F) : Build F (LinearForm F) :=
  let a := x.constant?
  let b := y.constant?
  if a = some 0 ∨ b = some 0 then return .zero
  else if a = some 1 then return y
  else if b = some 1 then return x
  else Builder.mul x y

/-- `t` where `c` is one, `f` where it is zero. -/
def select (c t f : LinearForm F) : Build F (LinearForm F) :=
  let k := c.constant?
  if k = some 0 then return f
  else if k = some 1 then return t
  else Builder.select c t f

end Bit
end ArithCircuit
