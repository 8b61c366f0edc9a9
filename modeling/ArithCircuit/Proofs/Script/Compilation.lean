import ArithCircuit.Blueprint
import ArithCircuit.Proofs.Script.Recording

/-!
The design of a script computes what the script means. Circuits call circuits with lower ids, so by
induction on ids every circuit of the design runs as its procedure does. A design that passes the check has a
number for every wire.
-/
namespace ArithCircuit
variable {F : ScalarField}

/-- A world in which calls are those of a library. -/
def Library.world (full : Library F) (rule : HintRule F) : World F := ⟨rule, fun id xs ys => full.call id xs = some ys⟩

/-- In a checked design, circuits that realize the procedures of a library compute what they return. -/
theorem SubCircuits.Shelf.computes_iff {D : Design F} (valid : D.Valid) (small : D.Addressable) {rule : HintRule F} {subs : SubCircuits F}
    {lib : Library F} (shelf : subs.Shelf (lib.world rule) lib)
    (stored : ∀ index, D.get? (index + 1) = subs.get? (index + 1)) {index : Nat} (below : index < lib.length)
    {xs ys : List (Scalar F)} : D.Computes rule (index + 1) xs ys ↔ lib.call (index + 1) xs = some ys := by
  induction index using Nat.strong_induction_on generalizing xs ys with
  | _ index ih =>
    obtain ⟨c, here, realizes, closed⟩ := shelf.circuits (List.getElem?_eq_getElem below)
    have same {inputs : List (Scalar F)} {w : Wire → Scalar F} :
        c.Satisfying ⟨rule, D.Computes rule⟩ inputs w ↔ c.Satisfying (lib.world rule) inputs w := by
      refine Circuit.satisfying_congr fun i member id called xs ys => ?_
      obtain ⟨lower, less, rfl⟩ := closed.calls i member id called
      exact ih lower less (less.trans below)
    have found : lib.find? (index + 1) = some lib[index] := List.getElem?_eq_getElem below
    have stored := (stored index).trans here
    rw [Design.computes_iff valid small, Library.call_eq_some_iff]
    constructor
    · rintro ⟨c', w, found', satisfying, rfl⟩
      cases found'.symm.trans stored
      have arity : lib[index].numInputs = xs.length := by
        rw [← realizes.numInputs, ← satisfying.inputs, length_inputValues]
      exact ⟨_, found, arity, realizes.sound arity.symm (same.mp satisfying)⟩
    · rintro ⟨p, found', arity, run⟩
      cases found'.symm.trans found
      obtain ⟨w, satisfying, shown⟩ := realizes.complete (closed.room (valid.wellFormed stored)) arity.symm run
      exact ⟨c, w, stored, same.mpr satisfying, shown⟩

theorem Blueprint.record_eq_ok_iff {bp : Blueprint F} {hints : HintRegistry F} {b : Builder F} :
    bp.record hints = .ok b ↔ Builder.checkInputCount bp.numInputs = .ok () ∧ bp.numPublic ≤ bp.numInputs ∧
      bp.define (.blank bp.numInputs bp.numPublic hints .empty) = .ok () b := by
  constructor
  · intro recorded
    obtain ⟨b₀, started, rest⟩ := bind_eq_ok.mp recorded
    obtain ⟨few, within, rfl⟩ := Builder.start_eq_ok_iff.mp started
    cases done : bp.define (.blank bp.numInputs bp.numPublic hints .empty) with
    | ok _ b₁ =>
      rw [done] at rest
      cases rest
      exact ⟨few, within, rfl⟩
    | error e b₁ =>
      rw [done] at rest
      cases rest
  · rintro ⟨few, within, done⟩
    refine bind_eq_ok.mpr ⟨_, Builder.start_eq_ok_iff.mpr ⟨few, within, rfl⟩, ?_⟩
    rw [done]
    rfl

/-- A design that was built is checked and holds the recorded circuit at its entry. -/
theorem Builder.build_eq_ok {b : Builder F} {D : Design F} (built : b.build = .ok D) :
    b.unsatisfiable = none ∧ D.validate = .ok () ∧
      ∀ id, D.get? id = if id = .entry then some b.circuit else b.subCircuits.get? id := by
  obtain ⟨E, designed, rest⟩ := ArithCircuit.bind_eq_ok.mp built
  obtain ⟨_, validated, ⟨⟩⟩ := ArithCircuit.bind_eq_ok.mp rest
  rw [design] at designed
  split at designed
  · cases designed
  · rename_i possible
    cases designed
    exact ⟨possible, mapError_eq_ok.mp validated, fun _ => Table.get?_insert ..⟩

namespace Script
open Step (Completes Suits StrictAll libraryAll)
variable {script : Script F} {hints : HintRegistry F} {b : Builder F} {P : Action F → Prop}

section
variable {rule : HintRule F} (allows : rule.Allows)
  (actions : ∀ {action}, P action → action.Plain ∧ (action.Checked ∨ rule.Divides)) (strict : StrictAll P script.steps)
  (recorded : script.blueprint.record hints = .ok b)

include allows actions strict recorded

/-- A script whose steps all succeed completes its builder, calls being those of its own procedures. -/
theorem completes : Completes ((libraryAll script.steps []).world rule)
    (.blank script.numInputs script.numPublic hints .empty) .empty [] script.steps b := by
  have suits : Suits ((libraryAll script.steps []).world rule) (libraryAll script.steps []) P := ⟨allows, Iff.rfl, actions⟩
  obtain ⟨few, -, done⟩ := Blueprint.record_eq_ok_iff.mp recorded
  simp only [blueprint, run] at done
  cases ended : (Step.runAll script.steps .empty #[] (.blank script.numInputs script.numPublic hints .empty)).failure with
  | some e =>
    rw [ended] at done
    cases done
  | none =>
    rw [ended] at done
    cases done
    exact Step.runAll_completes suits script.steps strict List.prefix_rfl (Builder.good_blank _ few ..) (Store.scoped_empty _)
      (SubCircuits.Shelf.empty _) ended

theorem closed {D : Design F} (built : b.build = .ok D) {id : CircuitId} {c : Circuit F} (found : D.get? id = some c) :
    ∃ bound, c.Closed bound := by
  obtain ⟨_, _, get⟩ := Builder.build_eq_ok built
  have completes := completes allows actions strict recorded
  rw [get] at found
  split at found
  · cases found
    exact ⟨_, completes.closed⟩
  · obtain ⟨index, below, rfl⟩ := completes.shelf.bound found
    obtain ⟨c', here, _, closed⟩ := completes.shelf.circuits (List.getElem?_eq_getElem below)
    cases found.symm.trans here
    exact ⟨index, closed⟩

/-- The design of a script computes what the script means, if hints pin down what its actions leave open. -/
theorem computes_iff {D : Design F} (built : b.build = .ok D) {xs outs : List (Scalar F)} :
    D.Computes rule .entry xs outs ↔ xs.length = script.numInputs ∧ script.meaning xs = some outs := by
  obtain ⟨possible, validated, get⟩ := Builder.build_eq_ok built
  have valid := Design.valid_of_validate validated
  have completes := completes allows actions strict recorded
  have realizes := completes.realizes possible ""
  have small : D.Addressable := fun found => by
    obtain ⟨_, closed⟩ := closed allows actions strict recorded built found
    exact (closed.room (valid.wellFormed found)).trans_lt (by decide)
  have entry : D.get? .entry = some b.circuit := (get _).trans (if_pos rfl)
  have same {w : Wire → Scalar F} : b.circuit.Satisfying ⟨rule, D.Computes rule⟩ xs w ↔
      b.circuit.Satisfying ((libraryAll script.steps []).world rule) xs w := by
    refine Circuit.satisfying_congr fun i member id called xs ys => ?_
    obtain ⟨index, below, rfl⟩ := completes.closed.calls i member id called
    exact completes.shelf.computes_iff valid small (fun index => (get _).trans (if_neg (Nat.succ_ne_zero index))) below
  rw [Design.computes_iff valid small]
  constructor
  · rintro ⟨c, w, found, satisfying, rfl⟩
    cases entry.symm.trans found
    have length : xs.length = script.numInputs := by
      rw [← satisfying.inputs, length_inputValues]
      exact realizes.numInputs
    exact ⟨length, realizes.sound length (same.mp satisfying)⟩
  · rintro ⟨length, returned⟩
    obtain ⟨w, satisfying, shown⟩ := realizes.complete (completes.closed.room (valid.wellFormed entry)) length returned
    exact ⟨b.circuit, w, entry, same.mpr satisfying, shown⟩

theorem numInputs_entry {D : Design F} (built : b.build = .ok D) {c : Circuit F} (found : D.get? .entry = some c) :
    c.numInputs = script.numInputs := by
  obtain ⟨_, _, get⟩ := Builder.build_eq_ok built
  cases ((get _).trans (if_pos rfl)).symm.trans found
  exact (completes allows actions strict recorded).grown.numInputs

/-- Every hint that the circuits of a script name is builtin. -/
theorem hint_builtin {D : Design F} (built : b.build = .ok D) {id : CircuitId} {c : Circuit F} (found : D.get? id = some c)
    {i : Instruction F} (member : i ∈ c.instructions) {name : String} (named : i.hintName? = some name) :
    ∃ hint : BuiltinHint, hint.name = name := by
  obtain ⟨_, closed⟩ := closed allows actions strict recorded built found
  exact closed.hints i member name named

/-- A script with an assertion that never holds fails on all inputs, as long as every wire has a number of its own. -/
theorem meaning_eq_none (room : b.nextWire ≤ 2 ^ 32) (impossible : b.unsatisfiable ≠ none) {xs : List (Scalar F)}
    (length : xs.length = script.numInputs) : script.meaning xs = none := by
  rw [Option.eq_none_iff_forall_ne_some]
  intro outs returned
  obtain ⟨w, ⟨satisfied, _⟩, _⟩ := (completes allows actions strict recorded).exists_satisfied room length returned
  exact impossible satisfied.possible

end

end Script
end ArithCircuit
