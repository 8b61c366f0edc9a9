import ArithCircuit.Proofs.Script.Rollback

/-!
Definitions inside definitions, step by step. A session is the builder in use together with the
definitions whose bodies are being recorded; a run is a session that ends with the definitions it began
with. A key that was defined keeps its id, and is not defined again, until a definition around
it fails or a definition of the same key around it ends. The latter can happen, since a key is looked up
before a body is recorded and set after it: the outer definition then replaces the inner one.
-/
namespace ArithCircuit
namespace Builder
variable {F : ScalarField}

/-- The builder in use, and the open definitions, innermost first, each with its key and the builder to
    come back to. -/
structure Session (F : ScalarField) where
  current : Builder F
  opened : List (String × Builder F)

namespace Session

/-- What happens in a session: an action, the choice of hints, and the beginning and the end of the
    body of a definition. A definition of a key that is known, or with too many inputs, changes nothing. -/
inductive Step : Session F → Session F → Prop
  | act {b b' : Builder F} {opened : List (String × Builder F)} (store : Store F) (action : Action F)
      (ends : Ends (action.run store) b b') : Step ⟨b, opened⟩ ⟨b', opened⟩
  | withHints {b : Builder F} {opened : List (String × Builder F)} (hints : HintRegistry F) :
      Step ⟨b, opened⟩ ⟨{ b with hints := hints }, opened⟩
  | enter {b : Builder F} {opened : List (String × Builder F)} {key : String} {numInputs : Nat}
      (free : b.subCircuits.lookup? key = none) (fits : checkInputCount numInputs = .ok ()) :
      Step ⟨b, opened⟩ ⟨b.child numInputs, (key, b) :: opened⟩
  | leave {b inner : Builder F} {opened : List (String × Builder F)} {key : String} (failure : Option BuildError) :
      Step ⟨inner, (key, b) :: opened⟩ ⟨(b.adopt key inner failure).2, opened⟩

/-- A step after which certain definitions are still open. -/
def Inside (base : List (String × Builder F)) (s s' : Session F) : Prop := s.Step s' ∧ base <:+ s'.opened

/-- The sessions that occur. -/
inductive Occurs : Session F → Prop
  | start {numInputs numPublic : Nat} {hints : HintRegistry F} {b : Builder F}
      (started : Builder.start numInputs numPublic hints = .ok b) : Occurs ⟨b, []⟩
  | step {s s' : Session F} (before : Occurs s) (step : s.Step s') : Occurs s'

/-- After `s`, no definition of the key that was open at `s` has ended, and none that was open has failed
    unless it was begun with the key known. The list has those that are still open. -/
inductive Standing (key : String) (s : Session F) : List (String × Builder F) → Session F → Prop
  | now : Standing key s s.opened s
  | inside {base : List (String × Builder F)} {s₁ s₂ : Session F} (before : Standing key s base s₁)
      (step : Inside base s₁ s₂) : Standing key s base s₂
  | ended {base : List (String × Builder F)} {other : String} {b inner : Builder F} {failure : Option BuildError}
      (before : Standing key s ((other, b) :: base) ⟨inner, (other, b) :: base⟩) (differs : other ≠ key)
      (kept : (b.adopt other inner failure).1.isOk ∨ (b.subCircuits.lookup? key).isSome) :
      Standing key s base ⟨(b.adopt other inner failure).2, base⟩

/-! ### Runs as sessions -/

theorem inside_mono {base base' : List (String × Builder F)} (outer : base <:+ base') {s s' : Session F}
    (steps : Relation.ReflTransGen (Inside base') s s') : Relation.ReflTransGen (Inside base) s s' :=
  Relation.ReflTransGen.mono (fun _ _ step => ⟨step.1, outer.trans step.2⟩) _ _ steps

theorem Occurs.steps {base : List (String × Builder F)} {s s' : Session F} (occurs : s.Occurs)
    (steps : Relation.ReflTransGen (Inside base) s s') : s'.Occurs := by
  induction steps with
  | refl => exact occurs
  | tail _ step before => exact .step before step.1

theorem Standing.steps {key : String} {base : List (String × Builder F)} {s s₁ s₂ : Session F}
    (standing : Standing key s base s₁) (steps : Relation.ReflTransGen (Inside base) s₁ s₂) : Standing key s base s₂ := by
  induction steps with
  | refl => exact standing
  | tail _ step before => exact .inside before step

/-- A run goes step by step, and closes only what it has opened. -/
theorem inside_upheld : Upheld .composed (fun _ => True) fun b b' : Builder F =>
    ∀ opened, Relation.ReflTransGen (Inside opened) ⟨b, opened⟩ ⟨b', opened⟩ where
  refl _ _ := .refl
  trans first second opened := (first opened).trans (second opened)
  after _ := trivial
  act {_ _ store action} _ _ ends opened := .single ⟨.act store action ends, List.suffix_rfl⟩
  define {b b' key numInputs body} _ inside ends opened := by
    rcases define_cases key numInputs body b with
      ⟨id, -, found⟩ | ⟨free, ⟨e, refused⟩ | ⟨fits, inner, failure, ended, outcome⟩⟩
    · rw [ends.eq_of_ok found]
    · rw [ends.eq_of_error refused]
    · have entered : Inside opened ⟨b, opened⟩ ⟨b.child numInputs, (key, b) :: opened⟩ :=
        ⟨.enter free fits, List.suffix_cons ..⟩
      have recorded := inside_mono (List.suffix_cons (key, b) opened)
        (inside trivial free inner ended trivial ((key, b) :: opened))
      have left : Inside opened ⟨inner, (key, b) :: opened⟩ ⟨(b.adopt key inner failure).2, opened⟩ :=
        ⟨.leave failure, List.suffix_rfl⟩
      have same : b' = (b.adopt key inner failure).2 := by
        rcases outcome with ⟨id, -, added⟩ | ⟨e, -, undone⟩
        · exact ends.eq_of_ok added
        · exact ends.eq_of_error undone
      rw [same]
      exact (Relation.ReflTransGen.head entered recorded).tail left
  withHints _ hints opened := .single ⟨.withHints hints, List.suffix_rfl⟩

/-! ### Open definitions -/

/-- The sub-circuits known to each open definition when it began are kept inside it, and its key was free. -/
def Nested (b : Builder F) : List (String × Builder F) → Prop
  | [] => b.Tidy
  | (key, outer) :: rest =>
    b.Truthful ∧ outer.subCircuits.Adds b.subCircuits ∧ outer.subCircuits.lookup? key = none ∧ Nested outer rest

section
variable {b b' : Builder F} {opened : List (String × Builder F)}

theorem Nested.tidy (nested : Nested b opened) : b.Tidy := by
  cases opened with
  | nil => exact nested
  | cons frame rest => exact ⟨nested.1, nested.2.1.numbered⟩

theorem Nested.mono (nested : Nested b opened) (follows : Follows b b') : Nested b' opened := by
  cases opened with
  | nil => exact follows.tidy
  | cons frame rest => exact ⟨follows.later.truthful, nested.2.1.trans follows.adds, nested.2.2⟩

theorem Nested.step {s s' : Session F} (nested : Nested s.current s.opened) (step : s.Step s') :
    Nested s'.current s'.opened := by
  cases step with
  | act store action ends => exact nested.mono ((action.run_behaves store).follows nested.tidy ends)
  | withHints hints => exact nested.mono ⟨.listing nested.tidy.truthful _ _ hints _, .refl nested.tidy.numbered⟩
  | enter free fits => exact ⟨truthful_blank _ _ _ _, .refl nested.tidy.numbered, free, nested⟩
  | leave failure =>
    obtain ⟨-, added, free, outer⟩ := nested
    exact outer.mono ⟨adopt_later outer.tidy.truthful .., adopt_adds outer.tidy.numbered free added⟩

theorem Occurs.nested {s : Session F} (occurs : s.Occurs) : Nested s.current s.opened := by
  induction occurs with
  | start started => exact tidy_start started
  | step _ step before => exact before.step step

end

/-! ### Known keys -/

/-- A key has an id now, and had it when each of the inner open definitions began. -/
structure Holds (key : String) (id : CircuitId) (base : List (String × Builder F)) (s : Session F) : Prop where
  current : s.current.subCircuits.lookup? key = some id
  opened : ∃ above, s.opened = above ++ base ∧ ∀ frame ∈ above, frame.2.subCircuits.lookup? key = some id

section
variable {key : String} {id : CircuitId} {base : List (String × Builder F)} {s s' : Session F}

/-- One step inside the open definitions keeps what a key is mapped to. -/
theorem Holds.inside (holds : Holds key id base s) (nested : Nested s.current s.opened)
    (step : Inside base s s') : Holds key id base s' := by
  obtain ⟨current, above, split, known⟩ := holds
  obtain ⟨step, inner⟩ := step
  cases step with
  | act store action ends =>
    have added := (action.run_behaves store).adds nested.tidy ends
    exact ⟨added.lookup? nested.tidy.numbered current, above, split, known⟩
  | withHints hints => exact ⟨current, above, split, known⟩
  | @enter b opened other numInputs free fits =>
    refine ⟨current, (other, b) :: above, congrArg _ split, ?_⟩
    exact List.forall_mem_cons.mpr ⟨current, known⟩
  | @leave b body opened other failure =>
    obtain ⟨-, added, free, outer⟩ := nested
    cases above with
    | nil =>
      -- The definition left would be one of those that stay open.
      have longer : base.length = opened.length + 1 := congrArg List.length split.symm
      have shorter : base.length ≤ opened.length := inner.length_le
      omega
    | cons frame above =>
      obtain ⟨rfl, rest⟩ := List.cons.inj split
      obtain ⟨first, others⟩ := List.forall_mem_cons.mp known
      have numbered := outer.tidy.numbered
      exact ⟨(adopt_adds numbered free added).lookup? numbered first, above, rest, others⟩

/-- The end of a definition around that of a key keeps what the key is mapped to. -/
theorem Holds.ended {other : String} {b inner : Builder F} {failure : Option BuildError}
    (holds : Holds key id ((other, b) :: base) ⟨inner, (other, b) :: base⟩)
    (nested : Nested inner ((other, b) :: base)) (differs : other ≠ key)
    (kept : (b.adopt other inner failure).1.isOk ∨ (b.subCircuits.lookup? key).isSome) :
    Holds key id base ⟨(b.adopt other inner failure).2, base⟩ := by
  obtain ⟨-, added, free, outer⟩ := nested
  refine ⟨?_, [], rfl, List.forall_mem_nil _⟩
  rcases kept with succeeds | known
  · rcases adopt_cases b other inner failure with ⟨-, made⟩ | ⟨e, -, undone⟩
    · show (b.adopt other inner failure).2.subCircuits.lookup? key = some id
      rw [made]
      exact (SubCircuits.lookup?_insert ..).trans ((if_neg differs.symm).trans holds.current)
    · rw [undone] at succeeds
      cases succeeds
  · obtain ⟨id', found⟩ := Option.isSome_iff_exists.mp known
    have numbered := outer.tidy.numbered
    have same : some id' = some id := (added.lookup? numbered found).symm.trans holds.current
    rw [same] at found
    exact (adopt_adds numbered free added).lookup? numbered found

theorem Standing.holds (standing : Standing key s base s') (occurs : s.Occurs)
    (found : s.current.subCircuits.lookup? key = some id) : Holds key id base s' ∧ s'.Occurs := by
  induction standing with
  | now => exact ⟨⟨found, [], rfl, List.forall_mem_nil _⟩, occurs⟩
  | inside _ step before =>
    obtain ⟨holds, occurs⟩ := before
    exact ⟨holds.inside occurs.nested step, .step occurs step.1⟩
  | ended _ differs kept before =>
    obtain ⟨holds, occurs⟩ := before
    exact ⟨holds.ended occurs.nested differs kept, .step occurs (.leave _)⟩

end

end Session

section
variable {b b' : Builder F} {key : String} {id : CircuitId} {numInputs : Nat} {body : Build F Unit}

/-- A body that becomes a sub-circuit gets the next id, and the key is mapped to it, whatever it was mapped
    to before. -/
theorem adopt_of_ok {inner : Builder F} {failure : Option BuildError} (made : (b.adopt key inner failure).1 = .ok id) :
    id = inner.subCircuits.nextId ∧ (b.adopt key inner failure).2.subCircuits.lookup? key = some id := by
  rcases adopt_cases b key inner failure with ⟨-, added⟩ | ⟨e, -, undone⟩
  · rw [added] at made ⊢
    cases made
    exact ⟨rfl, (SubCircuits.lookup?_insert ..).trans (if_pos rfl)⟩
  · rw [undone] at made
    cases made

/-- A definition that succeeds leaves its key mapped to the id it returns. -/
theorem lookup?_of_define (defined : define key numInputs body b = .ok id b') : b'.subCircuits.lookup? key = some id := by
  rcases define_cases key numInputs body b with
    ⟨id', known, found⟩ | ⟨-, ⟨e, refused⟩ | ⟨-, inner, failure, -, ⟨id', made, added⟩ | ⟨e, -, undone⟩⟩⟩
  · cases defined.symm.trans found
    exact known
  · cases defined.symm.trans refused
  · cases defined.symm.trans added
    exact (adopt_of_ok made).2
  · cases defined.symm.trans undone

/-- A key that is known is not defined again. -/
theorem define_of_lookup? (known : b.subCircuits.lookup? key = some id) : define key numInputs body b = .ok id b := by
  rcases define_cases key numInputs body b with ⟨id', known', found⟩ | ⟨free, -⟩
  · cases known.symm.trans known'
    exact found
  · cases known.symm.trans free

end

/-- A key that was defined keeps its id, and is not defined again. Only a definition of the same key
    around it gives it another id, when it ends. -/
theorem Session.Occurs.key_stays {s s' : Session F} (occurs : s.Occurs) {key : String} {numInputs : Nat} {body : Build F Unit}
    (inside : ∀ inner, Ends body (s.current.child numInputs) inner → Runs .composed (s.current.child numInputs) inner)
    {id : CircuitId} {b : Builder F} (defined : define key numInputs body s.current = .ok id b)
    {base : List (String × Builder F)} (standing : Standing key ⟨b, s.opened⟩ base s') :
    s'.current.subCircuits.lookup? key = some id ∧
    (∀ numInputs body, define key numInputs body s'.current = .ok id s'.current) ∧
    ∀ outer rest failure id', s'.opened = (key, outer) :: rest → (outer.adopt key s'.current failure).1 = .ok id' →
      id < id' ∧ (outer.adopt key s'.current failure).2.subCircuits.lookup? key = some id' := by
  have run : Runs .composed s.current b := .define (.refl _) key numInputs body (fun _ _ => inside) (.inl ⟨id, defined⟩)
  have after : Session.Occurs ⟨b, s.opened⟩ := occurs.steps (run.relates inside_upheld trivial s.opened)
  obtain ⟨⟨found, -⟩, occurs'⟩ := standing.holds after (lookup?_of_define defined)
  refine ⟨found, fun _ _ => define_of_lookup? found, ?_⟩
  intro outer rest failure id' opened made
  obtain ⟨same, known⟩ := adopt_of_ok made
  exact ⟨same ▸ occurs'.nested.tidy.numbered.keys found, known⟩

/-- A body that defines a key, and then fails to define another. -/
def twoKeys : Build F Unit := do
  let _ ← define "key" 0 (pure ())
  let _ ← tryCatch (define "other" 0 (throw (.refused "other"))) fun _ => return .entry

/-- A key keeps its id after a later definition has failed and the one around it has ended. -/
theorem Session.Occurs.key_stays_twoKeys : ∃ b b' : Builder .mersenne31, define "outer" 0 twoKeys b = .ok 2 b' ∧
    b'.subCircuits.lookup? "key" = some 1 ∧ ∀ numInputs body, define "key" numInputs body b' = .ok 1 b' := by
  let b : Builder .mersenne31 := blank 0 0 ∅ .empty
  let inner : Builder .mersenne31 := { b.child 0 with subCircuits := (SubCircuits.empty.insert "key" (b.child 0).circuit).2 }
  have started : Builder.start 0 0 ∅ = .ok b := rfl
  have occurs : Occurs ⟨b.child 0, [("outer", b)]⟩ := .step (.start started) (.enter rfl rfl)
  have empty : Within .composed (pure () : Build .mersenne31 Unit) := .pure ()
  have defined : define "key" 0 (pure ()) (b.child 0) = .ok 1 inner := rfl
  have failing : Within .composed (define "other" 0 (throw (.refused "other")) : Build .mersenne31 CircuitId) :=
    .define "other" 0 (.throw _)
  have failed : Runs .composed inner inner := failing.runs (.inr ⟨_, rfl⟩)
  have stands : Standing "key" ⟨inner, [("outer", b)]⟩ [("outer", b)] ⟨inner, [("outer", b)]⟩ :=
    Standing.now.steps (failed.relates inside_upheld trivial _)
  have ended : Standing "key" _ [] ⟨(b.adopt "outer" inner none).2, []⟩ := .ended stands (by decide) (.inl rfl)
  obtain ⟨found, again, -⟩ := occurs.key_stays (fun _ => empty.runs) defined ended
  exact ⟨b, _, rfl, found, again⟩

/-- A definition whose body defines the same key: the inner one returns 1, nothing fails, and from the end of
    the outer one on the key means 2, with both sub-circuits there. -/
theorem Session.Occurs.key_replaced : ∃ b inner b' : Builder .mersenne31, Occurs ⟨b.child 0, [("key", b)]⟩ ∧
    define "key" 0 (pure ()) (b.child 0) = .ok 1 inner ∧ b.adopt "key" inner none = (.ok 2, b') ∧
    define "key" 0 (discard (define "key" 0 (pure ()))) b = .ok 2 b' ∧
    define "key" 0 (pure ()) b' = .ok 2 b' ∧ (b'.subCircuits.get? 1).isSome ∧ (b'.subCircuits.get? 2).isSome := by
  let b : Builder .mersenne31 := blank 0 0 ∅ .empty
  let inner : Builder .mersenne31 := { b.child 0 with subCircuits := (SubCircuits.empty.insert "key" (b.child 0).circuit).2 }
  have started : Builder.start 0 0 ∅ = .ok b := rfl
  have occurs : Occurs ⟨b.child 0, [("key", b)]⟩ := .step (.start started) (.enter rfl rfl)
  exact ⟨b, inner, (b.adopt "key" inner none).2, occurs, rfl, rfl, rfl, rfl, rfl, rfl⟩

end Builder
end ArithCircuit
