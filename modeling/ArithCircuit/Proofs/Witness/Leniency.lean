import ArithCircuit.Proofs.Witness.Safety

/-!
Lenient solving goes wherever strict solving goes. An interpretation that does what another does
wherever that one succeeds runs every design to the same end where that one succeeds, however deep in
the calls a failure of the other may be (`Interp.RefinedBy.run`). The two modes of the solver are such a
pair, as they differ only where a hint fails.
-/
namespace ArithCircuit
variable {F : ScalarField}

/-- Where the first computation succeeds, the second gives the same result. -/
def Refines {ε α : Type} (x y : Except ε α) : Prop := ∀ a, x = .ok a → y = .ok a

namespace Refines
variable {ε α β : Type}

theorem refl (x : Except ε α) : Refines x x := fun _ done => done

theorem bind {x y : Except ε α} {f g : α → Except ε β} (first : Refines x y) (second : ∀ a, Refines (f a) (g a)) :
    Refines (x >>= f) (y >>= g) := by
  intro b done
  obtain ⟨a, made, rest⟩ := bind_eq_ok.mp done
  exact bind_eq_ok.mpr ⟨a, first a made, second a b rest⟩

/-- The same computation, and what comes after it. -/
theorem after (x : Except ε α) {f g : α → Except ε β} (second : ∀ a, Refines (f a) (g a)) :
    Refines (x >>= f) (x >>= g) := (refl x).bind second

end Refines

/-! ### Running -/

namespace Interp
variable {V S : Type} {I J : Interp F V S}

/-- Where an operation of the first interpretation succeeds, the second does the same. -/
structure RefinedBy (I J : Interp F V S) : Prop where
  one : J.one = I.one
  form : ∀ site form values s, Refines (I.form site form values s) (J.form site form values s)
  product : J.product = I.product
  hint : ∀ name inputs count values s, Refines (I.hint name inputs count values s) (J.hint name inputs count values s)
  constrain : ∀ site form values s, Refines (I.constrain site form values s) (J.constrain site form values s)

namespace RefinedBy
variable (refined : I.RefinedBy J)
include refined

theorem read (site : Site) (form : LinearForm F) (values : Array V) (s : S) :
    Refines (I.read site form values s) (J.read site form values s) :=
  .after _ fun _ => refined.form site form values s

theorem readAll (site : Nat → Site) (values : Array V) (i : Nat) (forms : List (LinearForm F)) (s : S) :
    Refines (I.readAll site values i forms s) (J.readAll site values i forms s) := by
  induction forms generalizing i s with
  | nil => exact .refl _
  | cons form rest ih =>
    exact (refined.read (site i) form values s).bind fun first => (ih (i + 1) first.2).bind fun _ => .refl _

theorem readFactors (site : Site) (lhs rhs : LinearForm F) (values : Array V) (s : S) :
    Refines (I.readFactors site lhs rhs values s) (J.readFactors site lhs rhs values s) := by
  refine (refined.read site lhs values s).bind fun first => ?_
  dsimp only
  split
  · exact .refl _
  · exact (refined.read site rhs values first.2).bind fun _ => .refl _

theorem constrainAll (circuit : CircuitId) (values : Array V) (i : Nat) (forms : List (LinearForm F)) (s : S) :
    Refines (I.constrainAll circuit values i forms s) (J.constrainAll circuit values i forms s) := by
  induction forms generalizing i s with
  | nil => exact .refl _
  | cons form rest ih =>
    exact .after _ fun _ => (refined.constrain _ form values s).bind fun s => ih (i + 1) s

variable {D : Design F}

section
variable {run run' : CircuitId → List V → S → Except Error (Run V S)}
  (runs : ∀ id args s, Refines (run id args s) (run' id args s))
include runs

/-- Instruction by instruction; what is called is refined as well. -/
theorem execute (circuit : CircuitId) (i : Nat) (instructions : List (Instruction F)) (values : Array V)
    (calls : Array (CallTree V)) (s : S) :
    Refines (I.execute D run circuit i instructions values calls s) (J.execute D run' circuit i instructions values calls s) := by
  induction instructions generalizing i values calls s with
  | nil => exact .refl _
  | cons instruction rest ih =>
    cases instruction with
    | linear form out =>
      simp only [Interp.execute]
      exact (refined.read _ form values s).bind fun read => .after _ fun values => ih (i + 1) values calls read.2
    | product lhs rhs out =>
      simp only [Interp.execute, refined.product]
      exact (refined.readFactors _ lhs rhs values s).bind fun read => .after _ fun values => ih (i + 1) values calls _
    | hint name inputs outputs =>
      simp only [Interp.execute]
      refine .after _ fun _ => (refined.hint name inputs outputs.length values s).bind fun given => ?_
      exact .after _ fun values => ih (i + 1) values calls given.2
    | call callee inputs outputs =>
      simp only [Interp.execute]
      refine (refined.readAll _ values 0 inputs s).bind fun args => .after _ fun c => ?_
      split
      · refine (runs callee args.1 args.2).bind fun result => ?_
        exact .after _ fun values => ih (i + 1) values _ result.state
      · exact .refl _

theorem runCircuit (id : CircuitId) (c : Circuit F) (inputs : List V) (s : S) :
    Refines (I.runCircuit D run id c inputs s) (J.runCircuit D run' id c inputs s) := by
  rw [Interp.runCircuit, Interp.runCircuit, refined.one]
  refine (refined.execute runs id 0 c.instructions _ #[] s).bind fun reached => ?_
  refine (refined.constrainAll id reached.1 0 c.constraints reached.2.2).bind fun s => ?_
  exact (refined.readAll _ reached.1 0 c.outputs s).bind fun _ => .refl _

end

/-- Along the nesting of calls. -/
theorem run (depth : Nat) (id : CircuitId) (inputs : List V) (s : S) :
    Refines (I.run D depth id inputs s) (J.run D depth id inputs s) := by
  induction depth generalizing id inputs s with
  | zero => exact .refl _
  | succ depth ih => exact .after _ fun c => refined.runCircuit ih id c inputs s

end RefinedBy
end Interp

/-! ### The two modes -/

namespace HintRegistry

theorem outputs_strict (hints : HintRegistry F) (name : String) (inputs : List (Scalar F)) (count : Nat) :
    hints.outputs .strict name inputs count = hints.call name inputs count := by
  unfold outputs
  cases hints.call name inputs count with
  | ok outputs => rfl
  | error e => cases e <;> rfl

theorem outputs_lenient (hints : HintRegistry F) (name : String) (inputs : List (Scalar F)) (count : Nat) :
    Refines (hints.outputs .strict name inputs count) (hints.outputs .lenient name inputs count) := by
  intro given made
  rw [outputs_strict] at made
  rw [outputs, made]

end HintRegistry

theorem Interp.solve_refinedBy (hints : HintRegistry F) : (solve hints .strict).RefinedBy (solve hints .lenient) where
  one := rfl
  form _ _ _ _ := .refl _
  product := rfl
  hint name _ count _ _ := (hints.outputs_lenient name _ count).bind fun _ => .refl _
  constrain _ _ _ _ := .refl _

namespace Solver

/-- What strict solving says about lenient solving. -/
structure Forgives (strict lenient : Except Error (Witness F)) : Prop where
  solved : ∀ w, strict = .ok w → lenient = .ok w
  violated : ∀ circuit index value,
    strict = .error (.violated circuit index value) → lenient = .error (.violated circuit index value)
  hintFailed : ∀ name args failure, strict = .error (.hintFailed name args failure) →
    (∃ w, lenient = .ok w) ∨ ∃ circuit index value, lenient = .error (.violated circuit index value)
  lenient : ∀ name args failure, lenient ≠ .error (.hintFailed name args failure)

section
variable {D : Design F} (valid : D.Valid) {hints : HintRegistry F} {solver : Solver F} (made : new D hints = .ok solver)
  {inputs : List (Scalar F)}
include valid made

/-- If no hint fails in strict mode, then both modes end in the same way. -/
theorem solve_lenient_eq (length : inputs.length = solver.numInputs) (workers workers' : Nat)
    (unfailed : ∀ name args failure, solver.solve inputs ⟨workers, .strict⟩ ≠ .error (.hintFailed name args failure)) :
    solver.solve inputs ⟨workers', .lenient⟩ = solver.solve inputs ⟨workers, .strict⟩ := by
  rcases solve_cases valid made ⟨workers, .strict⟩ length with ⟨given, R, -, computed, -⟩ | ⟨-, -, name, args, failure, -, failed⟩
  · obtain ⟨result, ran, -⟩ := bind_eq_ok.mp computed
    have ran' := (Interp.solve_refinedBy solver.hints).run _ .entry inputs #[] result ran
    rw [solve_eq length, solve_eq length, ran, ran', ok_bind, ok_bind]
    dsimp only
    rw [firstViolation_eq, firstViolation_eq]
  · exact absurd failed (unfailed name args failure)

/-- In lenient mode only a constraint can fail. -/
theorem lenient_ends (length : inputs.length = solver.numInputs) (workers : Nat) :
    (∃ w, solver.solve inputs ⟨workers, .lenient⟩ = .ok w) ∨
      ∃ circuit index value, solver.solve inputs ⟨workers, .lenient⟩ = .error (.violated circuit index value) := by
  rcases ends valid made length ⟨workers, .lenient⟩ with solved | violated | ⟨strict, -⟩
  · exact .inl solved
  · exact .inr violated
  · cases strict

end

/-- Lenient solving forgives failed hints and changes nothing else, whatever the numbers of workers. -/
theorem solve_forgives {D : Design F} (checked : D.validate = .ok ()) {hints : HintRegistry F}
    (registered : ∀ name ∈ D.hintNames, Table.contains hints name = true) :
    ∃ solver, new D hints = .ok solver ∧ ∀ (inputs : List (Scalar F)) (workers workers' : Nat),
      Forgives (solver.solve inputs ⟨workers, .strict⟩) (solver.solve inputs ⟨workers', .lenient⟩) := by
  have valid := D.valid_of_validate checked
  obtain ⟨entry, found⟩ := valid.entry
  have made := new_eq_ok_iff.mpr ⟨registered, entry, found, rfl⟩
  refine ⟨_, made, fun inputs workers workers' => ?_⟩
  constructor
  · intro w solved
    have length := length_eq_of_solve solved (by simp)
    exact (solve_lenient_eq valid made length workers workers' (by simp [solved])).trans solved
  · intro circuit index value violated
    have length := length_eq_of_solve violated (by simp)
    exact (solve_lenient_eq valid made length workers workers' (by simp [violated])).trans violated
  · intro name args failure failed
    have length := length_eq_of_solve failed (by simp)
    exact lenient_ends valid made length workers'
  · intro name args failure failed
    have length := length_eq_of_solve failed (by simp)
    rcases lenient_ends valid made length workers' with ⟨w, solved⟩ | ⟨_, _, _, violated⟩
    · cases failed.symm.trans solved
    · cases failed.symm.trans violated

/-- A hint that gives the reciprocal of its input, and fails on zero. -/
def guardedHints : HintRegistry .mersenne31 :=
  HintRegistry.register ∅ "guess" fun inputs _ =>
    if inputs.any (·.isZero) then .error .divisionByZero else .ok (inputs.map (·⁻¹))

/-- Two is solved alike in both modes. For zero the hint fails inside a call, and lenient solving goes on to
    the constraint that zero violates. -/
theorem solve_forgives_reciprocal : ∃ solver, new Design.reciprocal guardedHints = .ok solver ∧
    (∃ w, solver.solve [2] ⟨1, .strict⟩ = .ok w ∧ solver.solve [2] ⟨3, .lenient⟩ = .ok w) ∧
    solver.solve [0] ⟨1, .strict⟩ = .error (.hintFailed "guess" [0] .divisionByZero) ∧
    ((∃ w, solver.solve [0] ⟨3, .lenient⟩ = .ok w) ∨
      ∃ circuit index value, solver.solve [0] ⟨3, .lenient⟩ = .error (.violated circuit index value)) := by
  have checked : Design.reciprocal.validate = .ok () := by decide
  have registered : ∀ name ∈ Design.reciprocal.hintNames, Table.contains guardedHints name = true := by decide
  obtain ⟨solver, made, forgives⟩ := solve_forgives checked registered
  have same : solver = ⟨Design.reciprocal, guardedHints, 1, 0⟩ := Except.ok.inj (made.symm.trans rfl)
  obtain ⟨w, solved⟩ : ∃ w, solver.solve [2] ⟨1, .strict⟩ = .ok w := exists_of_isOk (by rw [same]; decide +kernel)
  have failed : solver.solve [0] ⟨1, .strict⟩ = .error (.hintFailed "guess" [0] .divisionByZero) := by
    rw [same]
    decide +kernel
  exact ⟨solver, made, ⟨w, solved, (forgives [2] 1 3).solved w solved⟩, failed, (forgives [0] 1 3).hintFailed _ _ _ failed⟩

end Solver
end ArithCircuit
