import ArithCircuit.Proofs.Builder.Definition
import ArithCircuit.Proofs.Gadget.Behaviour

/-!
Runs of builder operations. A run does actions, defines sub-circuits, goes on after failures, and changes
the hints. What every step of a run does to a builder, the whole run does. Where the operands of actions can
be read, and the bodies of definitions are such runs themselves, the design of the builder is valid as long as
there are numbers for all wires, its sub-circuits are numbered from 1 on, and they call earlier ones.
-/
namespace ArithCircuit
variable {F : ScalarField} {b : Builder F}

open Builder (Keeps Continues Ends Follows)
open LinearForm (Readable)

/-- What an action made can be read. -/
def Product.LegibleAt (n : Nat) : Product F → Prop
  | .forms es => Legible.At n es
  | .word w => Legible.At n w
  | .words ws => Legible.At n ws
  | .info _ _ _ => True

instance : Legible (Product F) where
  At := Product.LegibleAt
  mono {_ _ product} le legible := by
    cases product with
    | forms es => exact Legible.mono (a := es) le legible
    | word w => exact Legible.mono (a := w) le legible
    | words ws => exact Legible.mono (a := ws) le legible
    | info => trivial

namespace Legible
variable {α β : Type} [Legible α] {n : Nat} {a b c : α}

theorem single_iff : At n [a] ↔ At n a := by simp

theorem pair_iff : At n [a, b] ↔ At n a ∧ At n b := by simp

theorem triple_iff : At n [a, b, c] ↔ At n a ∧ At n b ∧ At n c := by simp

theorem append_iff {as bs : List α} : At n (as ++ bs) ↔ At n as ∧ At n bs := List.forall_mem_append

theorem map_append_iff {f : β → α} {as bs : List β} :
    At n ((as ++ bs).map f) ↔ At n (as.map f) ∧ At n (bs.map f) := by
  rw [List.map_append, append_iff]

end Legible

namespace Action

/-- The forms that an action reads. -/
def operands : Action F → List (Operand F)
  | .form e => [.form e]
  | .add x y | .sub x y | .mul x y | .assertEqual x y | .assertDistinct x y | .div x y | .divUnchecked x y
  | .and x y | .or x y | .xor x y => [x, y]
  | .neg x | .scale x _ | .reify x | .assertZero x | .assertBoolean x | .inverse x | .isZero x | .toBinary x _
  | .wordDecompose x => [x]
  | .innerProduct xs ys => xs ++ ys
  | .select c t f => [c, t, f]
  | .lookup2 c₀ c₁ v₀ v₁ v₂ v₃ => [c₀, c₁, v₀, v₁, v₂, v₃]
  | .fromBinary xs | .output xs | .hint _ xs _ | .call _ xs | .sha256 xs | .wordOfBits xs => xs
  | .addBits xs ys carry => xs ++ (ys ++ [carry])
  | .wordOfBigEndian b₃ b₂ b₁ b₀ => b₀ ++ b₁ ++ b₂ ++ b₃
  | .input _ | .inputs | .refuse _ | .info | .sample _ | .wordConstant _ | .wordRotateRight _ _ | .wordShiftRight _ _
  | .wordNot _ | .wordXor _ _ | .wordAnd _ _ | .wordSelect _ _ _ | .wordMajority _ _ _ | .wordSum _ | .wordValue _
  | .wordBytes _ | .wordBits _ => []

/-- The words that an action reads. -/
def wordOperands : Action F → List WordOperand
  | .wordRotateRight w _ | .wordShiftRight w _ | .wordNot w | .wordValue w | .wordBytes w | .wordBits w => [w]
  | .wordXor x y | .wordAnd x y => [x, y]
  | .wordSelect x y z | .wordMajority x y z => [x, y, z]
  | .wordSum ws => ws
  | _ => []

/-- What an action reads is canonical and uses only the first `n` wires. -/
structure InScope (store : Store F) (n : Nat) (action : Action F) : Prop where
  forms : Legible.At n (action.operands.map store.form)
  words : Legible.At n (action.wordOperands.map store.word)

theorem one_keeps {step : Build F (LinearForm F)} (keeps : Keeps b step) : Keeps b (one step) :=
  keeps.bind fun next made => .pure next.wellFormed (Legible.cons_iff.mpr ⟨made, Legible.nil _⟩)

theorem many_keeps {step : Build F (List (LinearForm F))} (keeps : Keeps b step) : Keeps b (many step) :=
  keeps.bind fun next made => .pure next.wellFormed made

theorem done_keeps {step : Build F Unit} (keeps : Keeps b step) : Keeps b (done step) :=
  keeps.bind fun next _ => .pure next.wellFormed (Legible.nil _)

theorem oneWord_keeps {step : Build F (Word F)} (keeps : Keeps b step) : Keeps b (oneWord step) :=
  keeps.bind fun next made => .pure next.wellFormed made

section
variable (wellFormed : b.WellFormed)

include wellFormed

theorem run_keeps {store : Store F} {action : Action F} (inScope : action.InScope store b.nextWire) :
    Keeps b (action.run store) := by
  obtain ⟨forms, words⟩ := inScope
  cases action with
  | form e => exact .pure wellFormed forms
  | input index => exact one_keeps (Builder.input_keeps wellFormed index)
  | inputs => exact many_keeps (Builder.inputs_keeps wellFormed)
  | add x y =>
    obtain ⟨left, right⟩ := Legible.pair_iff.mp forms
    exact .pure wellFormed (Legible.single_iff.mpr (Readable.add left right))
  | sub x y =>
    obtain ⟨left, right⟩ := Legible.pair_iff.mp forms
    exact .pure wellFormed (Legible.single_iff.mpr (Readable.sub left right))
  | neg x => exact .pure wellFormed (Legible.single_iff.mpr (Readable.neg (Legible.single_iff.mp forms)))
  | scale x c => exact .pure wellFormed (Legible.single_iff.mpr (Readable.scale (Legible.single_iff.mp forms) c))
  | mul x y =>
    obtain ⟨left, right⟩ := Legible.pair_iff.mp forms
    exact one_keeps (Builder.mul_keeps wellFormed left right)
  | reify x => exact one_keeps (Builder.reify_keeps wellFormed (Legible.single_iff.mp forms))
  | innerProduct xs ys =>
    obtain ⟨left, right⟩ := Legible.map_append_iff.mp forms
    exact one_keeps (Builder.innerProduct_keeps wellFormed left right)
  | assertZero x => exact done_keeps (Builder.requireZero_keeps wellFormed _ (Legible.single_iff.mp forms))
  | assertEqual x y =>
    obtain ⟨left, right⟩ := Legible.pair_iff.mp forms
    exact done_keeps (Builder.assertEqual_keeps wellFormed left right)
  | assertDistinct x y =>
    obtain ⟨left, right⟩ := Legible.pair_iff.mp forms
    exact done_keeps (Builder.assertDistinct_keeps wellFormed left right)
  | assertBoolean x => exact done_keeps (Builder.assertBoolean_keeps wellFormed (Legible.single_iff.mp forms))
  | select c t f =>
    obtain ⟨readsC, readsT, readsF⟩ := Legible.triple_iff.mp forms
    exact one_keeps (Builder.select_keeps wellFormed readsC readsT readsF)
  | inverse x => exact one_keeps (Builder.inverse_keeps wellFormed (Legible.single_iff.mp forms))
  | div x y =>
    obtain ⟨left, right⟩ := Legible.pair_iff.mp forms
    exact one_keeps (Builder.div_keeps wellFormed left right)
  | divUnchecked x y =>
    obtain ⟨left, right⟩ := Legible.pair_iff.mp forms
    exact one_keeps (Builder.divUnchecked_keeps wellFormed left right)
  | isZero x => exact one_keeps (Builder.isZero_keeps wellFormed (Legible.single_iff.mp forms))
  | and x y =>
    obtain ⟨left, right⟩ := Legible.pair_iff.mp forms
    exact one_keeps (Builder.and_keeps wellFormed left right)
  | or x y =>
    obtain ⟨left, right⟩ := Legible.pair_iff.mp forms
    exact one_keeps (Builder.or_keeps wellFormed left right)
  | xor x y =>
    obtain ⟨left, right⟩ := Legible.pair_iff.mp forms
    exact one_keeps (Builder.xor_keeps wellFormed left right)
  | lookup2 c₀ c₁ v₀ v₁ v₂ v₃ => exact one_keeps (Builder.lookup2_keeps wellFormed forms)
  | toBinary x count => exact many_keeps (Builder.toBinary_keeps wellFormed (Legible.single_iff.mp forms) count)
  | fromBinary bits => exact .pure wellFormed (Legible.single_iff.mpr (Builder.readable_fromBinary forms))
  | output es => exact done_keeps (Builder.outputAll_keeps wellFormed forms)
  | hint name args count => exact many_keeps (Builder.hint_keeps wellFormed name forms count)
  | call id args => exact many_keeps (Builder.call_keeps wellFormed id forms)
  | refuse message => exact .throw wellFormed _
  | info => exact .get (.pure wellFormed trivial)
  | sample s => exact done_keeps (s.define_keeps wellFormed)
  | addBits xs ys carry =>
    obtain ⟨left, rest⟩ := Legible.map_append_iff.mp forms
    obtain ⟨right, last⟩ := Legible.map_append_iff.mp rest
    refine (PrefixAdder.add_keeps wellFormed left right (Legible.single_iff.mp last)).bind fun next made => ?_
    exact .pure next.wellFormed (Legible.append_iff.mpr ⟨made.1, Legible.single_iff.mpr made.2⟩)
  | sha256 message => exact (Sha256.digest_keeps wellFormed forms).bind fun next made => .pure next.wellFormed made
  | wordConstant n => exact .pure wellFormed (Word.legible_constant wellFormed n)
  | wordOfBits bits => exact oneWord_keeps (Word.build_keeps wellFormed forms)
  | wordDecompose x => exact oneWord_keeps (Word.decompose_keeps wellFormed (Legible.single_iff.mp forms))
  | wordOfBigEndian b₃ b₂ b₁ b₀ =>
    simp only [operands, List.map_append] at forms
    simp only [run]
    split
    · rename_i w made
      exact .pure wellFormed (Word.legible_ofBits forms made)
    · exact .throw wellFormed _
  | wordRotateRight w n => exact .pure wellFormed (Word.legible_rotateRight (Legible.single_iff.mp words) n)
  | wordShiftRight w n => exact .pure wellFormed (Word.legible_shiftRight (Legible.single_iff.mp words) n)
  | wordNot w => exact .pure wellFormed (Word.legible_not wellFormed (Legible.single_iff.mp words))
  | wordXor x y =>
    obtain ⟨left, right⟩ := Legible.pair_iff.mp words
    exact oneWord_keeps (Word.xor_keeps wellFormed left right)
  | wordAnd x y =>
    obtain ⟨left, right⟩ := Legible.pair_iff.mp words
    exact oneWord_keeps (Word.and_keeps wellFormed left right)
  | wordSelect c t f =>
    obtain ⟨readsC, readsT, readsF⟩ := Legible.triple_iff.mp words
    exact oneWord_keeps (Word.select_keeps wellFormed readsC readsT readsF)
  | wordMajority x y z =>
    obtain ⟨readsX, readsY, readsZ⟩ := Legible.triple_iff.mp words
    exact oneWord_keeps (Word.majority_keeps wellFormed readsX readsY readsZ)
  | wordSum ws => exact oneWord_keeps (Word.sum_keeps wellFormed words)
  | wordValue w => exact .pure wellFormed (Legible.single_iff.mpr (Word.readable_value (Legible.single_iff.mp words)))
  | wordBytes w => exact .pure wellFormed (Word.readable_bytes (Legible.single_iff.mp words))
  | wordBits w =>
    have legible := Legible.single_iff.mp words
    exact .pure wellFormed fun e member => legible e (Vector.mem_toList_iff.mp member)

end
end Action

namespace Builder

/-- What is asked of a run: which actions it does, from what is stored and the number of wires, and whether the
    bodies of definitions are runs themselves. -/
structure Rules (F : ScalarField) where
  allows : Store F → Nat → Action F → Prop
  nested : Prop

namespace Rules

/-- Any actions, and bodies that do anything at all. -/
def free : Rules F := ⟨fun _ _ _ => True, False⟩

/-- Any actions, also in bodies. -/
def composed : Rules F := ⟨fun _ _ _ => True, True⟩

/-- Actions on operands that can be read, also in bodies. -/
def readable : Rules F := ⟨fun store n action => action.InScope store n, True⟩

end Rules

/-- Runs of operations from one builder to another. The body of a definition, if it is new, runs in a builder
    of its own. An operation may fail, and the run may go on. -/
inductive Runs (rules : Rules F) : Builder F → Builder F → Prop
  | refl (b : Builder F) : Runs rules b b
  | act {b b₁ b₂ : Builder F} (before : Runs rules b b₁) (store : Store F) (action : Action F)
    (allowed : rules.allows store b₁.nextWire action) (ends : Ends (action.run store) b₁ b₂) : Runs rules b b₂
  | define {b b₁ b₂ : Builder F} (before : Runs rules b b₁) (key : String) (numInputs : Nat) (body : Build F Unit)
    (inside : rules.nested → b₁.subCircuits.lookup? key = none →
      ∀ inner, Ends body (b₁.child numInputs) inner → Runs rules (b₁.child numInputs) inner)
    (ends : Ends (define key numInputs body) b₁ b₂) : Runs rules b b₂
  | withHints {b b₁ : Builder F} (before : Runs rules b b₁) (hints : HintRegistry F) :
    Runs rules b { b₁ with hints := hints }

/-- The builders that occur: new ones, what runs make of them, and the builders of bodies. -/
inductive Occurs (rules : Rules F) : Builder F → Prop
  | start {numInputs numPublic : Nat} {hints : HintRegistry F} {b : Builder F}
    (started : Builder.start numInputs numPublic hints = .ok b) : Occurs rules b
  | run {b b' : Builder F} (before : Occurs rules b) (runs : Runs rules b b') : Occurs rules b'
  | child {b : Builder F} (around : Occurs rules b) (numInputs : Nat) : Occurs rules (b.child numInputs)

/-- A relation between builders holds across every step of a run from builders with a property. -/
structure Upheld (rules : Rules F) (P : Builder F → Prop) (R : Builder F → Builder F → Prop) : Prop where
  refl : ∀ {b}, P b → R b b
  trans : ∀ {b b₁ b₂}, R b b₁ → R b₁ b₂ → R b b₂
  after : ∀ {b b'}, R b b' → P b'
  act : ∀ {b b' store action}, P b → rules.allows store b.nextWire action → Ends (action.run store) b b' → R b b'
  define : ∀ {b b' key numInputs body}, P b →
    (rules.nested → b.subCircuits.lookup? key = none →
      ∀ inner, Ends body (b.child numInputs) inner → P (b.child numInputs) → R (b.child numInputs) inner) →
    Ends (Builder.define key numInputs body) b b' → R b b'
  withHints : ∀ {b}, P b → ∀ hints, R b { b with hints := hints }

section
variable {rules : Rules F} {P : Builder F → Prop} {R : Builder F → Builder F → Prop} {b b₁ b' : Builder F}

/-- What holds across every step holds across a run. -/
theorem Runs.relates (runs : Runs rules b b') (upheld : Upheld rules P R) (holds : P b) : R b b' := by
  induction runs with
  | refl b => exact upheld.refl holds
  | act _ store action allowed ends before =>
    have soFar := before holds
    exact upheld.trans soFar (upheld.act (upheld.after soFar) allowed ends)
  | define _ key numInputs body _ ends before inside =>
    have soFar := before holds
    exact upheld.trans soFar (upheld.define (upheld.after soFar) inside ends)
  | withHints _ hints before =>
    have soFar := before holds
    exact upheld.trans soFar (upheld.withHints (upheld.after soFar) hints)

theorem Occurs.holds (occurs : b.Occurs rules) (upheld : Upheld rules P R)
    (start : ∀ {numInputs numPublic hints b}, Builder.start numInputs numPublic hints = .ok b → P b)
    (child : ∀ {b}, P b → ∀ numInputs, P (b.child numInputs)) : P b := by
  induction occurs with
  | start started => exact start started
  | run _ runs before => exact upheld.after (runs.relates upheld before)
  | child _ numInputs around => exact child around numInputs

theorem Runs.trans (first : Runs rules b b₁) (second : Runs rules b₁ b') : Runs rules b b' := by
  induction second with
  | refl => exact first
  | act _ store action allowed ends before => exact .act (before first) store action allowed ends
  | define _ key numInputs body inside ends before => exact .define (before first) key numInputs body inside ends
  | withHints _ hints before => exact .withHints (before first) hints

/-! ### What runs uphold -/

/-- Runs keep builders truthful, whatever the bodies of definitions do. -/
theorem later_upheld (rules : Rules F) : Upheld rules Truthful Later where
  refl := .refl
  trans := .trans
  after later := later.truthful
  act truthful _ ends := (Action.run_behaves ..).later truthful ends
  define truthful _ ends := define_later truthful ends
  withHints truthful hints := .listing truthful _ _ hints _

/-- Runs only add sub-circuits. -/
theorem follows_upheld (nested : rules.nested) : Upheld rules Tidy Follows where
  refl := .refl
  trans := .trans
  after follows := follows.tidy
  act tidy _ ends := (Action.run_behaves ..).follows tidy ends
  define {b b' key numInputs body} tidy inside ends := by
    refine ⟨define_later tidy.truthful ends, define_adds tidy.numbered (fun free inner ended => ?_) ends⟩
    exact (inside nested free inner ended (tidy.child numInputs)).adds
  withHints tidy hints := ⟨.listing tidy.truthful _ _ hints _, .refl tidy.numbered⟩

/-- Where operands can be read, runs keep the rules of builders. -/
theorem continues_upheld : Upheld .readable (WellFormed (F := F)) Continues where
  refl := .refl
  trans := .trans
  after continues := continues.wellFormed
  act wellFormed allowed ends := (Action.run_keeps wellFormed allowed).continues ends
  define {b b' key numInputs body} wellFormed inside ends := by
    refine (define_keeps wellFormed key numInputs fun free inner ended => ?_).continues ends
    exact inside trivial free inner ended (wellFormed.child numInputs)
  withHints wellFormed hints := wellFormed.update wellFormed.constraints_readable wellFormed.outputs_readable
    wellFormed.booleans wellFormed.unsatisfiable

end

theorem wellFormed_start {numInputs numPublic : Nat} {hints : HintRegistry F}
    (started : start numInputs numPublic hints = .ok b) : b.WellFormed := by
  obtain ⟨-, few, rfl⟩ := start_eq_ok_iff.mp started
  exact wellFormed_blank SubCircuits.wellFormed_empty few hints

theorem Occurs.wellFormed (occurs : b.Occurs .readable) : b.WellFormed :=
  occurs.holds continues_upheld wellFormed_start WellFormed.child

theorem tidy_start {numInputs numPublic : Nat} {hints : HintRegistry F}
    (started : start numInputs numPublic hints = .ok b) : b.Tidy := by
  obtain ⟨-, -, rfl⟩ := start_eq_ok_iff.mp started
  exact ⟨truthful_blank _ _ _ _, SubCircuits.wellFormed_empty.numbered⟩

theorem Occurs.tidy {rules : Rules F} (occurs : b.Occurs rules) (nested : rules.nested) : b.Tidy :=
  occurs.holds (follows_upheld nested) tidy_start Tidy.child

end Builder

/-- The circuits of a design are numbered without gaps. Calls go to sub-circuits that have the inputs and
    outputs of the call, and those of a sub-circuit to earlier ones. -/
structure Design.Stratified (D : Design F) : Prop where
  ids : ∃ last, ∀ id, (∃ c, D.get? id = some c) ↔ id ≤ last
  calls : ∀ {id c}, D.get? id = some c → ∀ {callee inputs outputs}, .call callee inputs outputs ∈ c.instructions →
    1 ≤ callee ∧ (id ≠ .entry → callee < id) ∧
      ∃ c', D.get? callee = some c' ∧ c'.numInputs = inputs.length ∧ c'.outputs.length = outputs.length

namespace Builder

theorem WellFormed.stratified (wellFormed : b.WellFormed) {D : Design F} (built : b.design = .ok D) : D.Stratified where
  ids := by
    refine ⟨b.subCircuits.nextId - 1, fun id => (wellFormed.ids_design built id).trans ?_⟩
    exact Nat.lt_iff_le_pred wellFormed.subCircuits.positive
  calls := by
    intro id c found callee inputs outputs member
    obtain ⟨positive, -, earlier⟩ := wellFormed.calls_design built found _ member callee rfl
    exact ⟨positive, earlier, (wellFormed.circuits_design built found).instructions.fits _ member⟩

/-- Every run of operations on operands that can be read makes a valid design, if there are numbers for all
    wires. Building it succeeds, or tells of an assertion that never holds. -/
theorem Runs.design_valid {numInputs numPublic : Nat} {hints : HintRegistry F} {b b' : Builder F}
    (started : start numInputs numPublic hints = .ok b) (runs : Runs .readable b b') (roomy : b'.Roomy) :
    (∀ D, b'.design = .ok D → D.validate = .ok () ∧ D.Stratified) ∧
      ((∃ D, b'.design = .ok D ∧ b'.build = .ok D) ∨
        ∃ assertion value, b'.build = .error (.unsatisfiable assertion value)) := by
  have wellFormed := (runs.relates continues_upheld (wellFormed_start started)).wellFormed
  exact ⟨fun D built => ⟨wellFormed.validate_design built roomy, wellFormed.stratified built⟩, wellFormed.build_cases roomy⟩

/-- The body of a sub-circuit that doubles its input. -/
def doubling : Build F Unit := output (.wire 1 + .wire 1)

/-- A body that defines a sub-circuit and then fails. -/
def abandoned : Build F Unit := do
  let _ ← define "inner" 1 doubling
  throw (.refused "abandoned")

theorem doubling_runs {inner : Builder F} (ends : Ends doubling (b.child 1) inner) : Runs .readable (b.child 1) inner := by
  let twice : LinearForm F := .wire 1 + .wire 1
  have readable : twice.Readable (b.child 1).nextWire := (Readable.wire Nat.one_lt_two).add (Readable.wire Nat.one_lt_two)
  refine .act (.refl _) .empty (.output [.form twice]) ⟨Legible.single_iff.mpr readable, Legible.nil _⟩ ?_
  rcases ends with ⟨_, done⟩ | ⟨_, done⟩
  · cases done
    exact .inl ⟨_, rfl⟩
  · cases done

theorem abandoned_runs {inner : Builder F} (ends : Ends abandoned (b.child 1) inner) : Runs .readable (b.child 1) inner := by
  refine .define (.refl _) "inner" 1 doubling (fun _ _ _ => doubling_runs) ?_
  rcases ends with ⟨_, done⟩ | ⟨_, done⟩
  · obtain ⟨_, _, _, stopped⟩ := run_bind_eq_ok.mp done
    cases stopped
  · rcases run_bind_eq_error.mp done with stopped | ⟨id, _, defined, stopped⟩
    · exact .inr ⟨_, stopped⟩
    · cases stopped
      exact .inl ⟨id, defined⟩

/-- The circuit that doubles its input, under the first id. -/
def doubler : SubCircuits F :=
  (SubCircuits.empty.insert "double" { (blank 1 0 ∅ .empty : Builder F).circuit with outputs := [.wire 1 + .wire 1] }).2

/-- A builder that has called it. -/
def recovered : Builder .bn254 :=
  { blank 1 0 .builtins doubler with nextWire := 3, instructions := #[.call 1 [.wire 1] [2]] }

theorem recovered_roomy : recovered.Roomy where
  own := by decide
  subCircuits {id c} found := by
    have found : doubler.get? id = some c := found
    rw [doubler, SubCircuits.get?_insert] at found
    split at found
    · cases found
      decide
    · cases found

/-- A run that goes on after a failed definition and calls the sub-circuit defined before it. -/
theorem Runs.design_valid_recovered : ∃ b : Builder .bn254, ∃ D, start 1 0 .builtins = .ok b ∧ Runs .readable b recovered ∧
    recovered.Roomy ∧ recovered.design = .ok D ∧ (D.get? .entry).map (·.instructions) = some [.call 1 [.wire 1] [2]] ∧
      D.validate = .ok () ∧ D.Stratified := by
  let b : Builder .bn254 := blank 1 0 .builtins .empty
  let b₁ : Builder .bn254 := blank 1 0 .builtins doubler
  have started : start 1 0 .builtins = .ok b := rfl
  have defined : Runs .readable b b₁ := .define (.refl b) "double" 1 doubling (fun _ _ _ => doubling_runs) (.inl ⟨1, rfl⟩)
  have failed : Runs .readable b b₁ := .define defined "abandoned" 1 abandoned (fun _ _ _ => abandoned_runs) (.inr ⟨_, rfl⟩)
  have called : Runs .readable b recovered := .act failed .empty (.call 1 [.form (.wire 1)])
    ⟨Legible.single_iff.mpr (Readable.wire Nat.one_lt_two), Legible.nil _⟩ (.inl ⟨_, rfl⟩)
  have valid := (design_valid started called recovered_roomy).1 _ rfl
  exact ⟨b, _, started, called, recovered_roomy, rfl, rfl, valid⟩

end Builder
end ArithCircuit
