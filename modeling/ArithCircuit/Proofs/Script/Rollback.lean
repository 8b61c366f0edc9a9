import ArithCircuit.Proofs.Script.Runs

/-!
Failed operations leave no trace. An action that has recorded something no longer fails, apart from the whole
hash function and the samples, and a definition takes back what its body has defined before it failed.
-/
namespace ArithCircuit
namespace Builder
variable {F : ScalarField} {α β : Type} {b b' : Builder F} {rules : Rules F}

/-- A run leads wherever a step ends. -/
structure Within (rules : Rules F) (step : Build F α) : Prop where
  runs : ∀ {b b'}, Ends step b b' → Runs rules b b'

namespace Within

theorem pure (a : α) : Within rules (Pure.pure a) := by
  refine ⟨fun {b b'} ends => ?_⟩
  rw [ends.eq_of_ok rfl]
  exact .refl b

theorem throw (e : BuildError) : Within rules (MonadExcept.throw e : Build F α) := by
  refine ⟨fun {b b'} ends => ?_⟩
  rw [ends.eq_of_error rfl]
  exact .refl b

theorem bind {step : Build F α} {next : α → Build F β} (first : Within rules step) (second : ∀ a, Within rules (next a)) :
    Within rules (step >>= next) := by
  refine ⟨fun {b b'} ends => ?_⟩
  rcases ends_bind ends with ⟨e, stopped⟩ | ⟨a, b₁, stepped, continued⟩
  · exact first.runs (.inr ⟨e, stopped⟩)
  · exact (first.runs (.inl ⟨a, stepped⟩)).trans ((second a).runs continued)

/-- A failed step may be followed by another, which goes on from where the first one failed. -/
theorem attempt {step : Build F α} {other : BuildError → Build F α} (tried : Within rules step)
    (otherwise : ∀ e, Within rules (other e)) : Within rules (tryCatch step other) := by
  refine ⟨fun {b b'} ends => ?_⟩
  cases stepped : step b with
  | ok a b₁ =>
    have same : tryCatch step other b = .ok a b₁ := by
      simp [tryCatch, tryCatchThe, MonadExceptOf.tryCatch, EStateM.tryCatch, stepped]
    rw [ends.eq_of_ok same]
    exact tried.runs (.inl ⟨a, stepped⟩)
  | error e b₁ =>
    have same : tryCatch step other b = other e b₁ := by
      simp [tryCatch, tryCatchThe, MonadExceptOf.tryCatch, EStateM.tryCatch, stepped]
      rfl
    have continued : Ends (other e) b₁ b' := by
      unfold Ends at ends ⊢
      rwa [same] at ends
    exact (tried.runs (.inr ⟨e, stepped⟩)).trans ((otherwise e).runs continued)

/-- An action, whatever is made of its product. -/
theorem act (store : Store F) (action : Action F) {step : Build F α} (product : α → Product F)
    (same : action.run store = product <$> step) : Within .composed step := by
  refine ⟨fun {b b'} ends => ?_⟩
  refine .act (.refl b) store action trivial ?_
  rw [same]
  rcases ends with ⟨a, done⟩ | ⟨e, failed⟩
  · exact .inl ⟨product a, run_map_eq_ok.mpr ⟨a, done, rfl⟩⟩
  · exact .inr ⟨e, run_map_eq_error.mpr failed⟩

theorem define (key : String) (numInputs : Nat) {body : Build F Unit} (inside : Within rules body) :
    Within rules (Builder.define key numInputs body) :=
  ⟨fun ends => .define (.refl _) key numInputs body (fun _ _ _ ended => inside.runs ended) ends⟩

end Within

/-- An action or a definition that fails leaves the builder as it was. -/
theorem Occurs.unchanged_of_error (occurs : b.Occurs .composed) :
    (∀ (store : Store F) (action : Action F), (∀ message, action ≠ .sha256 message) → (∀ s, action ≠ .sample s) →
      ∀ e b', action.run store b = .error e b' → b' = b) ∧
    ∀ key numInputs body, (∀ inner, Ends body (b.child numInputs) inner → Runs .composed (b.child numInputs) inner) →
      ∀ e b', define key numInputs body b = .error e b' → b' = b := by
  have tidy := occurs.tidy trivial
  constructor
  · intro store action notHash notSample e b' failed
    have early : action.failing ≠ .late := by
      have differ : Failing.early ≠ .late := by decide
      cases action with
      | sha256 message => exact absurd rfl (notHash message)
      | sample s => exact absurd rfl (notSample s)
      | _ => exact differ
    exact (action.run_behaves store).unchanged early tidy failed
  · intro key numInputs body inside e b' failed
    refine define_of_error tidy.numbered (fun inner ended => ?_) failed
    exact ((inside inner ended).relates (follows_upheld trivial) (tidy.child numInputs)).adds

/-- A body that defines one sub-circuit, fails to define another, and then asserts what never holds. -/
def doomed : Build F Unit := do
  let _ ← define "inner" 1 (output (.wire 1))
  let _ ← tryCatch (define "refused" 0 (throw (.refused "no"))) fun _ => return .entry
  assertZero (.constant 1)

theorem output_within (e : LinearForm F) : Within .composed (output e) :=
  .act .empty (.output [.form e]) (fun _ => .forms []) rfl

theorem doomed_within : Within .composed (doomed : Build F Unit) := by
  refine .bind (.define "inner" 1 (output_within _)) fun _ => ?_
  refine .bind (.attempt (.define "refused" 0 (.throw _)) fun _ => .pure _) fun _ => ?_
  exact .act .empty (.assertZero (.form (.constant 1))) (fun _ => .forms []) rfl

/-- A new builder after one definition. -/
def prepared : Builder .mersenne31 :=
  let body : Circuit .mersenne31 := { (blank 1 0 ∅ .empty).circuit with outputs := [.wire 1] }
  { blank 0 0 ∅ .empty with subCircuits := (SubCircuits.empty.insert "kept" body).2 }

/-- The sub-circuit defined before is still there, and what the failed bodies defined is not. -/
theorem Occurs.unchanged_of_error_doomed : ∃ b b' : Builder .mersenne31, ∃ e, b.Occurs .composed ∧
    b.subCircuits.lookup? "kept" = some 1 ∧ define "doomed" 0 doomed b = .error e b' ∧ b' = b ∧
      call 2 [] b = .error (.unknownCircuit 2) b := by
  have started : Builder.start 0 0 ∅ = .ok (blank 0 0 ∅ .empty : Builder .mersenne31) := rfl
  have defined : Runs .composed (blank 0 0 ∅ .empty) prepared :=
    (Within.define "kept" 1 (output_within _)).runs (.inl ⟨1, rfl⟩)
  have occurs : Occurs .composed prepared := .run (.start started) defined
  have failed : define "doomed" 0 doomed prepared = .error (.unsatisfiable .zero 1) prepared := rfl
  have unchanged := occurs.unchanged_of_error.2 "doomed" 0 doomed (fun _ => doomed_within.runs) _ _ failed
  exact ⟨prepared, prepared, _, occurs, rfl, failed, unchanged, rfl⟩

end Builder
end ArithCircuit
