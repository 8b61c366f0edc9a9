import ArithCircuit.Layered.Arena

/-!
Folding a linear form into one gate. Substituting wire values turns a form over wires into a form
over gates; a tree of sums then joins its gates, always the two shallowest first, which keeps the
tree as shallow as it can be.
-/
namespace ArithCircuit

/-- A gate and its coefficient, waiting to be joined. -/
structure Summand (F : ScalarField) where
  depth : Nat
  gate : Nat
  coef : Scalar F

namespace Summand
variable {F : ScalarField}

/-- Puts a summand after all that are not deeper. -/
def enqueue (s : Summand F) : List (Summand F) → List (Summand F)
  | [] => [s]
  | first :: rest => if s.depth < first.depth then s :: first :: rest else first :: enqueue s rest

/-- Puts a summand before all that are not shallower. -/
def enqueueFirst (s : Summand F) : List (Summand F) → List (Summand F)
  | [] => [s]
  | first :: rest =>
    if first.depth < s.depth then first :: enqueueFirst s rest else s :: first :: rest

theorem length_enqueue (s : Summand F) (queue : List (Summand F)) :
    (enqueue s queue).length = queue.length + 1 := by
  induction queue with
  | nil => rfl
  | cons first rest ih => simp only [enqueue]; split <;> simp [ih]

/-- The terms of a form over gates, shallowest first; gates of equal depth keep their order. -/
def queue (arena : Arena F) (form : LinearForm F) : List (Summand F) :=
  form.terms.foldr (fun t rest => enqueueFirst ⟨arena.depth t.wire, t.wire, t.coef⟩ rest) []

/-- Joins the summands of a queue, two at a time from its front. -/
def join (site : Site) (form : LinearForm F) (queue : List (Summand F)) (arena : Arena F) :
    Except Error (WireValue F × Arena F) :=
  match queue with
  | [] => .error (site.error (.unfoldable form.text))
  | [s] => .ok (.scaled s.gate s.coef, arena)
  | s :: t :: rest =>
    match s.coef.inv? with
    | none => .error (site.error (.zeroCoefficient form.text))
    | some inverse =>
      let (gate, arena) := arena.push (.add s.gate t.gate (t.coef * inverse))
      join site form (enqueue ⟨arena.depth gate, gate, s.coef⟩ rest) arena
termination_by queue.length
decreasing_by simp [length_enqueue]

end Summand

/-- The value of a linear form over wire values: a constant and terms over gates. -/
structure GateSum (F : ScalarField) where
  constant : Scalar F
  terms : List (Term F)

namespace GateSum
variable {F : ScalarField}

/-- Substitutes wire values into a form. The terms of gates keep the order of the form. -/
def ofForm (form : LinearForm F) (values : Array (WireValue F)) : GateSum F :=
  form.terms.foldr (fun t sum =>
    match values.getD t.wire (.constant 0) with
    | .constant k => { sum with constant := t.coef * k + sum.constant }
    | .scaled gate coef => { sum with terms := ⟨t.coef * coef, gate⟩ :: sum.terms }) ⟨0, []⟩

end GateSum

namespace Arena
variable {F : ScalarField}

/-- Folds a form into one wire value. A constant next to gates is a multiple of the gate one. -/
def fold (site : Site) (form : LinearForm F) (values : Array (WireValue F)) (arena : Arena F) :
    Except Error (WireValue F × Arena F) :=
  let sum := GateSum.ofForm form values
  if sum.terms.isEmpty then .ok (.constant sum.constant, arena)
  else
    let (terms, arena) :=
      if sum.constant.isZero then (sum.terms, arena)
      else
        let (one, arena) := arena.constant 1
        (sum.terms ++ [⟨sum.constant, one⟩], arena)
    let gates := LinearForm.ofTerms terms
    if gates.isEmpty then .ok (.constant 0, arena)
    else Summand.join site form (Summand.queue arena gates) arena

end Arena
end ArithCircuit
