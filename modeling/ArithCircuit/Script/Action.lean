import ArithCircuit.Gadget.PrefixAdder
import ArithCircuit.Sample

/-!
Actions of a script. What an action makes, forms or words, is stored and can be an operand of later
actions.
-/
namespace ArithCircuit

/-- A form: one that was stored, or one that is given. A negative position counts from the end. -/
inductive Operand (F : ScalarField) where
  | stored (position : Int)
  | form (e : LinearForm F)

/-- The position of a stored word. A negative position counts from the end. -/
abbrev WordOperand := Int

inductive Action (F : ScalarField) where
  | form (e : LinearForm F)
  | input (index : Nat)
  | inputs
  | add (a b : Operand F)
  | sub (a b : Operand F)
  | neg (a : Operand F)
  | scale (a : Operand F) (c : Scalar F)
  | mul (a b : Operand F)
  | reify (a : Operand F)
  | innerProduct (xs ys : List (Operand F))
  | assertZero (a : Operand F)
  | assertEqual (a b : Operand F)
  | assertDistinct (a b : Operand F)
  | assertBoolean (a : Operand F)
  | select (b t f : Operand F)
  | inverse (a : Operand F)
  | div (a b : Operand F)
  | divUnchecked (a b : Operand F)
  | isZero (a : Operand F)
  | and (a b : Operand F)
  | or (a b : Operand F)
  | xor (a b : Operand F)
  | lookup2 (b₀ b₁ v₀ v₁ v₂ v₃ : Operand F)
  | toBinary (a : Operand F) (count : Nat)
  | fromBinary (bits : List (Operand F))
  | output (es : List (Operand F))
  | hint (name : String) (args : List (Operand F)) (count : Nat)
  | call (id : CircuitId) (args : List (Operand F))
  /-- Fails with a message. -/
  | refuse (message : String)
  /-- Shows the builder's inputs and hints. -/
  | info
  | sample (s : Sample)
  | addBits (a b : List (Operand F)) (carry : Operand F)
  | sha256 (message : List (Operand F))
  | wordConstant (n : Nat)
  | wordOfBits (bits : List (Operand F))
  | wordDecompose (a : Operand F)
  | wordOfBigEndian (b₃ b₂ b₁ b₀ : List (Operand F))
  | wordRotateRight (w : WordOperand) (n : Nat)
  | wordShiftRight (w : WordOperand) (n : Nat)
  | wordNot (w : WordOperand)
  | wordXor (x y : WordOperand)
  | wordAnd (x y : WordOperand)
  | wordSelect (c t f : WordOperand)
  | wordMajority (x y z : WordOperand)
  | wordSum (ws : List WordOperand)
  | wordValue (w : WordOperand)
  | wordBytes (w : WordOperand)
  | wordBits (w : WordOperand)

/-- What an action makes. -/
inductive Product (F : ScalarField) where
  | forms (es : List (LinearForm F))
  | word (w : Word F)
  | words (ws : List (Word F))
  | info (numInputs numPublic : Nat) (hints : List String)

/-- What the actions so far have made. -/
structure Store (F : ScalarField) where
  forms : Array (LinearForm F)
  words : Array (Word F)

namespace Store
variable {F : ScalarField} {α : Type}

def empty : Store F := ⟨#[], #[]⟩

/-- The item at a position, which counts from the end if it is negative. -/
def item? (items : Array α) (position : Int) : Option α :=
  let index := if position < 0 then position + items.size else position
  if 0 ≤ index then items[index.toNat]? else none

/-- The value of an operand. A position without a form reads as zero. -/
def form (store : Store F) : Operand F → LinearForm F
  | .stored position => (item? store.forms position).getD .zero
  | .form e => e

/-- The stored word at a position. A position without a word reads as zero. -/
def word (store : Store F) (w : WordOperand) : Word F := (item? store.words w).getD (.constant 0)

def extend (store : Store F) : Product F → Store F
  | .forms es => { store with forms := store.forms ++ es }
  | .word w => { store with words := store.words.push w }
  | .words ws => { store with words := store.words ++ ws }
  | .info _ _ _ => store

end Store

namespace Action
variable {F : ScalarField}

/-- A step that makes one form. -/
def one (step : Build F (LinearForm F)) : Build F (Product F) := return .forms [← step]

/-- A step that makes forms. -/
def many (step : Build F (List (LinearForm F))) : Build F (Product F) := return .forms (← step)

/-- A step that makes nothing. -/
def done (step : Build F Unit) : Build F (Product F) := do
  step
  return .forms []

/-- A step that makes a word. -/
def oneWord (step : Build F (Word F)) : Build F (Product F) := return .word (← step)

/-- Performs an action with what is stored. -/
def run (store : Store F) : Action F → Build F (Product F)
  | .form e => return .forms [e]
  | .input index => one (Builder.input index)
  | .inputs => many Builder.inputs
  | .add a b => return .forms [store.form a + store.form b]
  | .sub a b => return .forms [store.form a - store.form b]
  | .neg a => return .forms [-store.form a]
  | .scale a c => return .forms [(store.form a).scale c]
  | .mul a b => one (Builder.mul (store.form a) (store.form b))
  | .reify a => one (Builder.reify (store.form a))
  | .innerProduct xs ys => one (Builder.innerProduct (xs.map store.form) (ys.map store.form))
  | .assertZero a => done (Builder.assertZero (store.form a))
  | .assertEqual a b => done (Builder.assertEqual (store.form a) (store.form b))
  | .assertDistinct a b => done (Builder.assertDistinct (store.form a) (store.form b))
  | .assertBoolean a => done (Builder.assertBoolean (store.form a))
  | .select b t f => one (Builder.select (store.form b) (store.form t) (store.form f))
  | .inverse a => one (Builder.inverse (store.form a))
  | .div a b => one (Builder.div (store.form a) (store.form b))
  | .divUnchecked a b => one (Builder.divUnchecked (store.form a) (store.form b))
  | .isZero a => one (Builder.isZero (store.form a))
  | .and a b => one (Builder.and (store.form a) (store.form b))
  | .or a b => one (Builder.or (store.form a) (store.form b))
  | .xor a b => one (Builder.xor (store.form a) (store.form b))
  | .lookup2 b₀ b₁ v₀ v₁ v₂ v₃ =>
    one (Builder.lookup2 (store.form b₀) (store.form b₁) (store.form v₀) (store.form v₁)
      (store.form v₂) (store.form v₃))
  | .toBinary a count => many (Builder.toBinary (store.form a) count)
  | .fromBinary bits => return .forms [Builder.fromBinary (bits.map store.form)]
  | .output es => done (Builder.outputAll (es.map store.form))
  | .hint name args count => many (Builder.hint name (args.map store.form) count)
  | .call id args => many (Builder.call id (args.map store.form))
  | .refuse message => throw (.refused message)
  | .info => do
    let b ← get
    return .info b.numInputs b.numPublic b.hints.names
  | .sample s => done s.define
  | .addBits a b carry => do
    let (sum, carry) ← PrefixAdder.add (a.map store.form) (b.map store.form) (store.form carry)
    return .forms (sum ++ [carry])
  | .sha256 message => return .words (← Sha256.digest (message.map store.form)).toList
  | .wordConstant n => return .word (.constant n)
  | .wordOfBits bits => oneWord (Word.build (bits.map store.form))
  | .wordDecompose a => oneWord (Word.decompose (store.form a))
  | .wordOfBigEndian b₃ b₂ b₁ b₀ =>
    match Word.ofBigEndian (b₃.map store.form) (b₂.map store.form) (b₁.map store.form)
        (b₀.map store.form) with
    | .ok w => return .word w
    | .error e => throw e
  | .wordRotateRight w n => return .word ((store.word w).rotateRight n)
  | .wordShiftRight w n => return .word ((store.word w).shiftRight n)
  | .wordNot w => return .word (store.word w).not
  | .wordXor x y => oneWord ((store.word x).xor (store.word y))
  | .wordAnd x y => oneWord ((store.word x).and (store.word y))
  | .wordSelect c t f => oneWord (Word.select (store.word c) (store.word t) (store.word f))
  | .wordMajority x y z => oneWord (Word.majority (store.word x) (store.word y) (store.word z))
  | .wordSum ws => oneWord (Word.sum (ws.map store.word))
  | .wordValue w => return .forms [(store.word w).value]
  | .wordBytes w => return .forms (store.word w).littleEndianBytes
  | .wordBits w => return .forms (store.word w).bits.toList

end Action
end ArithCircuit
