import ArithCircuit.Scalar.Arithmetic

/-!
Linear forms over the wires of a circuit. Wire 0 carries the constant one, so a constant is a
multiple of wire 0. A canonical form lists its wires in strictly increasing order with non-zero
coefficients, which gives every linear form one spelling.
-/
namespace ArithCircuit

/-- The position of a wire in a circuit's value vector. -/
abbrev Wire := Nat

namespace Wire

/-- The wire of a position. Wire numbers have four bytes, so past the last of them they start over. -/
def wrap (position : Nat) : Wire := position % Nat.pow 2 32

/-- The wire that carries the constant one. -/
def one : Wire := 0

/-- The wire of an external input. -/
def input (index : Nat) : Wire := index + 1

def name (w : Wire) : String := s!"w{w}"

end Wire

/-- A coefficient times a wire. -/
structure Term (F : ScalarField) where
  coef : Scalar F
  wire : Wire
deriving DecidableEq

namespace Term
variable {F : ScalarField}

def scale (c : Scalar F) (t : Term F) : Term F := ⟨t.coef * c, t.wire⟩

/-- By wire, then by coefficient. -/
def compare (a b : Term F) : Ordering :=
  (Ord.compare a.wire b.wire).then (Ord.compare a.coef.val b.coef.val)

/-- A constant is written as its value, a wire of coefficient one as its name. -/
def text (t : Term F) : String :=
  if t.wire = Wire.one then t.coef.text
  else if t.coef = 1 then t.wire.name
  else s!"{t.coef.text}*{t.wire.name}"

end Term

/-- A sum of terms. -/
structure LinearForm (F : ScalarField) where
  terms : List (Term F)
deriving DecidableEq

namespace LinearForm
variable {F : ScalarField}

def zero : LinearForm F := ⟨[]⟩

/-- One term, or nothing when the coefficient is zero. -/
def term (coef : Scalar F) (wire : Wire) : LinearForm F :=
  if coef.isZero then zero else ⟨[⟨coef, wire⟩]⟩

def constant (value : Scalar F) : LinearForm F := term value Wire.one

def wire (w : Wire) : LinearForm F := term 1 w

/-- Adds a term at its place in a list sorted by wire, and drops it if it cancels. -/
def insertTerm (t : Term F) : List (Term F) → List (Term F)
  | [] => if t.coef.isZero then [] else [t]
  | first :: rest =>
    if t.wire < first.wire then
      if t.coef.isZero then first :: rest else t :: first :: rest
    else if first.wire < t.wire then first :: insertTerm t rest
    else
      let coef := t.coef + first.coef
      if coef.isZero then rest else ⟨coef, t.wire⟩ :: rest

/-- The canonical form of any sum of terms. -/
def ofTerms (terms : List (Term F)) : LinearForm F := ⟨terms.foldr insertTerm []⟩

/-- Whether wires strictly increase and no coefficient is zero. -/
def canonicalTerms : List (Term F) → Bool
  | [] => true
  | [t] => !t.coef.isZero
  | t :: u :: rest => !t.coef.isZero && decide (t.wire < u.wire) && canonicalTerms (u :: rest)

def isCanonical (e : LinearForm F) : Bool := canonicalTerms e.terms

/-- Takes terms as they are, if they are canonical. -/
def ofCanonical? (terms : List (Term F)) : Option (LinearForm F) :=
  if canonicalTerms terms then some ⟨terms⟩ else none

/-- The number of terms. -/
def size (e : LinearForm F) : Nat := e.terms.length

def isEmpty (e : LinearForm F) : Bool := e.terms.isEmpty

/-- The value of a form that reads no wire but the constant one. -/
def constant? (e : LinearForm F) : Option (Scalar F) :=
  match e.terms with
  | [] => some 0
  | [t] => if t.wire = Wire.one then some t.coef else none
  | _ => none

def isConstant (e : LinearForm F) : Bool := e.constant?.isSome

/-- The wire of a form that is exactly one wire other than the constant one. -/
def singleWire? (e : LinearForm F) : Option Wire :=
  match e.terms with
  | [t] => if t.wire ≠ Wire.one ∧ t.coef = 1 then some t.wire else none
  | _ => none

def wires (e : LinearForm F) : List Wire := e.terms.map (·.wire)

/-- The wire of the last term, the largest of a canonical form. -/
def maxWire? (e : LinearForm F) : Option Wire := e.terms.getLast?.map (·.wire)

/-- The largest wire, if it is not among the first `defined` wires. -/
def undefined? (e : LinearForm F) (defined : Nat) : Option Wire :=
  e.maxWire?.filter fun w => decide (defined ≤ w)

/-- Joins two lists sorted by wire, the second scaled, and drops terms that cancel. -/
def merge (c : Scalar F) : List (Term F) → List (Term F) → List (Term F)
  | [], ys => ys.map (Term.scale c)
  | x :: xs, [] => x :: xs
  | x :: xs, y :: ys =>
    if x.wire < y.wire then x :: merge c xs (y :: ys)
    else if y.wire < x.wire then y.scale c :: merge c (x :: xs) ys
    else
      let coef := x.coef + y.coef * c
      if coef.isZero then merge c xs ys else ⟨coef, x.wire⟩ :: merge c xs ys
termination_by xs ys => xs.length + ys.length

def add (a b : LinearForm F) : LinearForm F := ⟨merge 1 a.terms b.terms⟩

def sub (a b : LinearForm F) : LinearForm F := ⟨merge (-1) a.terms b.terms⟩

def scale (c : Scalar F) (e : LinearForm F) : LinearForm F :=
  if c.isZero then zero else ⟨e.terms.map (Term.scale c)⟩

def neg (e : LinearForm F) : LinearForm F := e.scale (-1)

instance : Zero (LinearForm F) := ⟨zero⟩
instance : Inhabited (LinearForm F) := ⟨zero⟩
instance : Add (LinearForm F) := ⟨add⟩
instance : Sub (LinearForm F) := ⟨sub⟩
instance : Neg (LinearForm F) := ⟨neg⟩

/-- The value under an assignment of values to wires. -/
def eval (e : LinearForm F) (assign : Wire → Scalar F) : Scalar F :=
  e.terms.foldl (fun acc t => acc + t.coef * assign t.wire) 0

/-- By terms, first difference first. -/
def compare (a b : LinearForm F) : Ordering := List.compareLex Term.compare a.terms b.terms

/-- The terms, joined by plus signs. -/
def text (e : LinearForm F) : String :=
  if e.terms.isEmpty then "0" else " + ".intercalate (e.terms.map Term.text)

end LinearForm
end ArithCircuit
