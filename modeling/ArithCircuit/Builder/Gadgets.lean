import ArithCircuit.Builder.State

/-!
Recording arithmetic, assertions and small gadgets. Sums and multiples stay linear forms and record
nothing; a product takes one instruction. Gadgets whose result the circuit cannot compute take it
from a hint and record the constraints that leave it no other value. Constant operands are decided
at once.
-/
namespace ArithCircuit
namespace Builder
variable {F : ScalarField}

/-- The form of an external input. -/
def input (index : Nat) : Build F (LinearForm F) := do
  let b ← get
  if b.numInputs ≤ index then throw (.inputOutOfRange index b.numInputs)
  return .wire (.input index)

/-- The forms of all external inputs. -/
def inputs : Build F (List (LinearForm F)) := do
  let b ← get
  return (List.range b.numInputs).map fun i => .wire (.input i)

/-- Exposes a form as an output. -/
def output (e : LinearForm F) : Build F Unit :=
  modify fun b => { b with outputs := b.outputs.push e }

/-- Exposes forms as outputs, in order. -/
def outputAll : List (LinearForm F) → Build F Unit
  | [] => return ()
  | e :: rest => do
    output e
    outputAll rest

/-- Records a product. -/
def mul (lhs rhs : LinearForm F) : Build F (LinearForm F) := do
  let out ← newWire
  recordInstruction (.product lhs rhs out)
  return .wire out

/-- Gives a form a wire of its own. -/
def reify (e : LinearForm F) : Build F (LinearForm F) := do
  let out ← newWire
  recordInstruction (.linear e out)
  return .wire out

/-- A product, or a multiple where a factor is constant. -/
def product (lhs rhs : LinearForm F) : Build F (LinearForm F) :=
  match lhs.constant?, rhs.constant? with
  | some k, _ => return rhs.scale k
  | none, some k => return lhs.scale k
  | none, none => mul lhs rhs

/-- Adds the products of two lists to a sum, in order. -/
def addProducts : LinearForm F → List (LinearForm F × LinearForm F) → Build F (LinearForm F)
  | sum, [] => return sum
  | sum, (x, y) :: rest => do
    let xy ← mul x y
    addProducts (sum + xy) rest

/-- The sum of the products of two lists of equal length. -/
def innerProduct (xs ys : List (LinearForm F)) : Build F (LinearForm F) := do
  if xs.length ≠ ys.length then throw (.dimension xs.length ys.length)
  addProducts .zero (xs.zip ys)

/-- `f + b * (t - f)`: `t` where `b` is one, `f` where it is zero. -/
def select (b t f : LinearForm F) : Build F (LinearForm F) := do
  let scaled ← mul b (t - f)
  return f + scaled

/-! ### Hints -/

/-- Records a hint, which need not be registered. -/
def recordHint (name : String) (inputs : List (LinearForm F)) (count : Nat) :
    Build F (List (LinearForm F)) := do
  let outputs ← newWires count
  recordInstruction (.hint name inputs outputs)
  return outputs.map .wire

/-- Records a builtin hint of one output. -/
def recordBuiltin (hint : BuiltinHint) (inputs : List (LinearForm F)) : Build F (LinearForm F) := do
  let out ← newWire
  recordInstruction (.hint hint.name inputs [out])
  return .wire out

/-- Records a registered hint. Nothing binds its outputs but constraints on them. -/
def hint (name : String) (inputs : List (LinearForm F)) (count : Nat) :
    Build F (List (LinearForm F)) := do
  let b ← get
  if Table.contains b.hints name then recordHint name inputs count
  else throw (.unknownHint name)

/-! ### Assertions -/

/-- Requires a form to vanish, on behalf of an assertion. -/
def requireZero (assertion : Assertion) (e : LinearForm F) : Build F Unit :=
  match e.constant? with
  | some k => if k.isZero then return () else reject assertion k
  | none => recordConstraint e

def assertZero (e : LinearForm F) : Build F Unit := requireZero .zero e

def assertEqual (lhs rhs : LinearForm F) : Build F Unit := requireZero .equal (lhs - rhs)

/-- Requires two forms to differ: their difference has an inverse. -/
def assertDistinct (lhs rhs : LinearForm F) : Build F Unit := do
  let difference := lhs - rhs
  match difference.constant? with
  | some k => if k.isZero then reject .distinct k
  | none =>
    let inverse ← recordBuiltin .inverse [difference]
    let prod ← mul difference inverse
    recordConstraint (prod - .constant 1)

/-- Requires a form to be 0 or 1, once for each form. -/
def assertBoolean (e : LinearForm F) : Build F Unit :=
  match e.constant? with
  | some k => if k.isZero ∨ k = 1 then return () else reject .boolean k
  | none => do
    if ← noteBoolean e then return
    let prod ← mul e (e - .constant 1)
    recordConstraint prod

/-- Notes a form that is 0 or 1 by what is recorded. -/
def markBoolean (e : LinearForm F) : Build F Unit :=
  if e.isConstant then return () else discard (noteBoolean e)

/-! ### Division -/

/-- The inverse of a form, which must not be zero. -/
def inverse (x : LinearForm F) : Build F (LinearForm F) :=
  match x.constant? with
  | some k =>
    match k.inv? with
    | some y => return .constant y
    | none => throw (.divisionByZero .inverse)
  | none => do
    let y ← recordBuiltin .inverse [x]
    let prod ← mul x y
    recordConstraint (prod - .constant 1)
    return y

/-- `a / b`, where `b` must not be zero. -/
def div (a b : LinearForm F) : Build F (LinearForm F) := do
  let y ← inverse b
  product a y

/-- A form `q` with `q * b = a`. Where both are zero, `q` can be anything. -/
def divUnchecked (a b : LinearForm F) : Build F (LinearForm F) :=
  match b.constant? with
  | some k =>
    match k.inv? with
    | some y => return a.scale y
    | none => throw (.divisionByZero .quotient)
  | none => do
    let q ← recordBuiltin .quotient [a, b]
    let prod ← mul q b
    recordConstraint (prod - a)
    return q

/-- One where a form is zero, and zero elsewhere. -/
def isZero (x : LinearForm F) : Build F (LinearForm F) :=
  match x.constant? with
  | some k => return .constant (.ofBool k.isZero)
  | none => do
    let r ← recordBuiltin .isZero [x]
    let m ← recordBuiltin .inverseOrZero [x]
    let xr ← mul x r
    recordConstraint xr
    let xm ← mul x m
    recordConstraint (xm - .constant 1 + r)
    markBoolean r
    return r

/-! ### Booleans -/

def and (a b : LinearForm F) : Build F (LinearForm F) := do
  assertBoolean a
  assertBoolean b
  let result ← product a b
  markBoolean result
  return result

def or (a b : LinearForm F) : Build F (LinearForm F) := do
  assertBoolean a
  assertBoolean b
  let ab ← product a b
  let result := a + b - ab
  markBoolean result
  return result

def xor (a b : LinearForm F) : Build F (LinearForm F) := do
  assertBoolean a
  assertBoolean b
  let ab ← product a b
  let result := a + b - ab.scale (.ofNat 2)
  markBoolean result
  return result

/-- One of four values, chosen by two bits, the first of which is the lower. -/
def lookup2 (b₀ b₁ v₀ v₁ v₂ v₃ : LinearForm F) : Build F (LinearForm F) := do
  assertBoolean b₀
  assertBoolean b₁
  let low ← select b₀ v₁ v₀
  let high ← select b₀ v₃ v₂
  select b₁ high low

/-! ### Binary numbers -/

/-- Adds `bits` to a sum, the first with the given weight and each next with twice the weight. -/
def addWeighted : Scalar F → LinearForm F → List (LinearForm F) → LinearForm F
  | _, sum, [] => sum
  | weight, sum, bit :: rest => addWeighted (weight + weight) (sum + bit.scale weight) rest

/-- The number with the given bits, lowest first. -/
def fromBinary (bits : List (LinearForm F)) : LinearForm F := addWeighted 1 .zero bits

def assertAllBoolean : List (LinearForm F) → Build F Unit
  | [] => return ()
  | bit :: rest => do
    assertBoolean bit
    assertAllBoolean rest

/-- The bits of a form, lowest first. The form must be less than `2 ^ count`, and `count` must be
    less than the bits of the field, so that only one choice of bits fits. -/
def toBinary (e : LinearForm F) (count : Nat) : Build F (List (LinearForm F)) := do
  let limit := F.bits - 1
  if limit < count then throw (.tooManyBits limit count)
  let bits ← recordHint BuiltinHint.toBinary.name [e] count
  assertAllBoolean bits
  assertEqual (fromBinary bits) e
  return bits

end Builder
end ArithCircuit
