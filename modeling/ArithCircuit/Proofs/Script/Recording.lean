import ArithCircuit.Proofs.Script.Action
import ArithCircuit.Proofs.Script.Shelf

/-!
A script records a circuit of what it computes. Step by step, the assignments that satisfy the builder
show the values that the steps compute and fail where the steps do, as long as there are numbers for new
wires; a definition puts a circuit on the shelf that realizes its procedure.
-/
namespace ArithCircuit
variable {F : ScalarField} {W : World F}

open Builder (Grown Gives)

namespace Store

/-- The values that a store and the outputs of a builder stand for. -/
def memory (store : Store F) (b : Builder F) (w : Wire → Scalar F) : Memory F :=
  ⟨store.forms.map (·.eval w), b.outputs.toList.map (·.eval w)⟩

theorem item?_map {α β : Type} (f : α → β) (items : Array α) (position : Int) :
    item? (items.map f) position = (item? items position).map f := by
  simp only [item?, Array.size_map, Array.getElem?_map]
  by_cases inside : 0 ≤ if position < 0 then position + items.size else position
  · rw [if_pos inside, if_pos inside]
  · rw [if_neg inside, if_neg inside, Option.map_none]

theorem read_memory (store : Store F) (b : Builder F) {w : Wire → Scalar F} (one : w Wire.one = 1) {a : Operand F}
    (plain : a.Plain) : (store.memory b w).read a = (store.form a).eval w := by
  cases a with
  | stored position =>
    rw [Memory.read, memory, item?_map, Store.form]
    cases item? store.forms position <;> rfl
  | form e =>
    obtain ⟨k, rfl⟩ := plain
    rw [Memory.read, Store.form, LinearForm.constant?_constant, LinearForm.eval_constant one, Option.getD_some]

theorem memory_congr {store : Store F} {b : Builder F} {n : Nat} (inScope : store.Scoped n)
    (outputs : ∀ e ∈ b.outputs.toList, e.Reads n) {w w' : Wire → Scalar F} (agree : LinearForm.Agree n w w') :
    store.memory b w = store.memory b w' := by
  have values : store.forms.map (·.eval w) = store.forms.map (·.eval w') :=
    Array.map_congr_left fun e member => LinearForm.eval_congr (inScope e member) agree
  have shown : b.outputs.toList.map (·.eval w) = b.outputs.toList.map (·.eval w') :=
    List.map_congr_left fun e member => LinearForm.eval_congr (outputs e member) agree
  rw [memory, memory, values, shown]

theorem Scoped.extend {m n : Nat} {store : Store F} (inScope : store.Scoped m) (le : m ≤ n) {p : Product F}
    (reads : ∀ e ∈ p.listed, e.Reads n) : (store.extend p).Scoped n := by
  intro e member
  rw [forms_extend, ← Array.mem_toList_iff, Array.toList_appendList, List.mem_append, Array.mem_toList_iff] at member
  rcases member with old | new
  · exact LinearForm.reads_mono le (inScope e old)
  · exact reads e new

end Store

namespace Step

mutual

/-- Definitions stay. -/
theorem library_grows : ∀ (step : Step F) (lib : Library F), lib <+: step.library lib
  | .act _, lib => by
    rw [library]
  | .attempt step, lib => by
    rw [library]
    exact library_grows step lib
  | .define key numInputs body _, lib => by
    rw [library]
    split
    · exact List.prefix_rfl
    · exact (libraryAll_grows body lib).trans (List.prefix_append _ _)

theorem libraryAll_grows : ∀ (steps : List (Step F)) (lib : Library F), lib <+: libraryAll steps lib
  | [], lib => by
    rw [libraryAll]
  | step :: rest, lib => by
    rw [libraryAll]
    exact (library_grows step lib).trans (libraryAll_grows rest (step.library lib))

end

/-- A step takes a builder and a store to others, and the values that they may show from those before it to what
    it computes. -/
structure Advances (W : World F) (b : Builder F) (store : Store F) (lib : Library F) (b' : Builder F) (store' : Store F)
    (lib' : Library F) (meaning : List (Scalar F) → Memory F → Option (Memory F)) : Prop where
  grown : Grown W b b'
  inScope : store'.Scoped b'.nextWire
  shelf : b'.subCircuits.Shelf W lib'
  shown : ∀ {inputs m m'}, m.outputs.length = b.outputs.size → meaning inputs m = some m' →
    m'.outputs.length = b'.outputs.size
  gives : ∀ {w}, b.Satisfied W w →
    Gives W b b' w (fun m => meaning (inputValues b.numInputs w) (store.memory b w) = some m) (store'.memory b')

section
variable {b b' : Builder F} {store : Store F} {lib full : Library F}

/-- An action other than an output. -/
theorem compute_advances (allows : W.rule.Allows) (world : ∀ {id xs ys}, W.call id xs ys ↔ full.call id xs = some ys)
    (early : lib <+: full) (good : b.Good W) (inScope : store.Scoped b.nextWire) (shelf : b.subCircuits.Shelf W lib)
    {action : Action F} (plain : action.Plain) (checked : action.Checked ∨ W.rule.Divides)
    (silent : ∀ es, action ≠ .output es) {product : Product F} (ran : action.run store b = .ok product b') :
    Advances W b store lib b' (store.extend product) lib (perform (.act action) lib) := by
  obtain ⟨recorded, reads, gives⟩ :=
    action.run_performs allows good inScope (shelf.calls early world) plain checked silent product b' ran
  have shown (read : Operand F → Scalar F) : action.shown read = [] := by
    cases action with
    | output es => exact absurd rfl (silent es)
    | _ => rfl
  have after {w w' : Wire → Scalar F} (agree : LinearForm.Agree b.nextWire w w') :
      (store.extend product).memory b' w' =
        ⟨(store.memory b w).values ++ Readout.value product w', (store.memory b w).outputs⟩ := by
    have values : (store.forms ++ product.listed).map (·.eval w') =
        store.forms.map (·.eval w') ++ product.listed.map (·.eval w') := Array.toList_inj.mp (by simp)
    rw [Store.memory_congr inScope good.outputs agree, Store.memory, Store.memory, Store.forms_extend, recorded.outputs,
      values]
    rfl
  refine ⟨recorded.toGrown, inScope.extend recorded.nextWire reads, recorded.subCircuits ▸ shelf, ?_, fun {w} satisfied => ?_⟩
  · intro inputs m m' before performed
    rw [perform, Option.map_eq_some_iff] at performed
    obtain ⟨made, -, rfl⟩ := performed
    rw [shown, List.append_nil, before, recorded.outputs]
  have computed : action.compute lib (inputValues b.numInputs w) (store.memory b w).read =
      action.compute lib (inputValues b.numInputs w) fun a => (store.form a).eval w :=
    Action.compute_congr plain fun a plain => store.read_memory b satisfied.one plain
  constructor
  · intro w' agree later
    rw [perform, computed, (gives satisfied).sound w' agree later, after agree, Option.map_some, shown, List.append_nil]
  · intro room m related
    rw [perform, computed, Option.map_eq_some_iff] at related
    obtain ⟨made, computed, rfl⟩ := related
    obtain ⟨w', agree, later, rfl⟩ := (gives satisfied).complete room made computed
    exact ⟨w', agree, later, by rw [after agree, shown, List.append_nil]⟩

/-- An output. -/
theorem output_advances (good : b.Good W) (inScope : store.Scoped b.nextWire) (shelf : b.subCircuits.Shelf W lib)
    {es : List (Operand F)} (plain : ∀ a ∈ es, a.Plain) {product : Product F}
    (ran : (Action.output es).run store b = .ok product b') :
    Advances W b store lib b' (store.extend product) lib (perform (.act (.output es)) lib) := by
  obtain ⟨_, _, exposed, ⟨⟩⟩ := Builder.bind_eq_ok.mp ran
  cases (Builder.outputAll_eq _ b).symm.trans exposed
  have listed {e : LinearForm F} : e ∈ (b.outputs ++ es.map store.form).toList ↔
      e ∈ b.outputs.toList ∨ e ∈ es.map store.form := by
    rw [Array.toList_appendList, List.mem_append]
  have after {w : Wire → Scalar F} (satisfied : b.Satisfied W w) :
      perform (.act (.output es)) lib (inputValues b.numInputs w) (store.memory b w) = some
        ((store.extend (.forms [])).memory { b with outputs := b.outputs ++ es.map store.form } w) := by
    have shown : es.map (store.memory b w).read = (es.map store.form).map (·.eval w) := by
      rw [List.map_map]
      exact List.map_congr_left fun a member => store.read_memory b satisfied.one (plain a member)
    rw [perform, Action.compute, Option.map_some, Action.shown, shown]
    simp [Store.memory, Store.extend]
  refine ⟨.listing good (fun e member => ?_) good.calls, ?_, shelf, ?_, fun {w} satisfied => ⟨fun w' agree later => ?_, ?_⟩⟩
  · rcases listed.mp member with old | new
    · exact good.outputs e old
    · obtain ⟨a, named, rfl⟩ := List.mem_map.mp new
      exact inScope.reads good.positive (plain a named)
  · exact inScope.extend le_rfl (List.forall_mem_nil _)
  · rintro inputs m _ before ⟨⟩
    simp [Action.shown, before, size_appendList]
  · rw [inputValues_congr good.inputs agree, Store.memory_congr inScope good.outputs agree]
    exact after (Builder.satisfied_listing_iff.mp later)
  · intro _ m related
    exact ⟨w, fun _ _ => rfl, Builder.satisfied_listing_iff.mpr satisfied,
      Option.some.inj ((after satisfied).symm.trans related)⟩

/-- Steps take a builder to one that shows the outputs of what they compute. -/
structure Completes (W : World F) (b : Builder F) (store : Store F) (lib : Library F) (steps : List (Step F))
    (b' : Builder F) : Prop where
  grown : Grown W b b'
  shelf : b'.subCircuits.Shelf W (libraryAll steps lib)
  shown : ∀ {inputs m m'}, m.outputs.length = b.outputs.size → performAll steps lib inputs m = some m' →
    m'.outputs.length = b'.outputs.size
  gives : ∀ {w}, b.Satisfied W w → Gives W b b' w (fun outs =>
    (performAll steps lib (inputValues b.numInputs w) (store.memory b w)).map (·.outputs) = some outs)
      fun w' => b'.outputs.toList.map (·.eval w')

/-- A step before others. -/
theorem Advances.cons {step : Step F} {rest : List (Step F)} {b₁ : Builder F} {store₁ : Store F} (good : b.Good W)
    (first : Advances W b store lib b₁ store₁ (step.library lib) (step.perform lib))
    (others : Completes W b₁ store₁ (step.library lib) rest b') : Completes W b store lib (step :: rest) b' := by
  have inputs {w w' : Wire → Scalar F} (agree : LinearForm.Agree b.nextWire w w') :
      inputValues b₁.numInputs w' = inputValues b.numInputs w := by
    rw [first.grown.numInputs, inputValues_congr good.inputs agree]
  refine ⟨first.grown.trans others.grown, by rw [libraryAll]; exact others.shelf, ?_, fun {w} satisfied => ⟨?_, ?_⟩⟩
  · intro inputs m m' before performed
    rw [performAll] at performed
    cases stepped : step.perform lib inputs m with
    | none =>
      rw [stepped] at performed
      cases performed
    | some m₁ =>
      rw [stepped] at performed
      exact others.shown (first.shown before stepped) performed
  · intro w' agree later
    have middle := others.grown.satisfied later
    have returned := (others.gives middle).sound w' (fun _ _ => rfl) later
    rw [performAll, (first.gives satisfied).sound w' agree middle]
    rwa [inputs agree] at returned
  · intro room outs related
    rw [performAll] at related
    cases performed : step.perform lib (inputValues b.numInputs w) (store.memory b w) with
    | none =>
      rw [performed] at related
      cases related
    | some m =>
      rw [performed] at related
      obtain ⟨w₁, agree, middle, rfl⟩ := (first.gives satisfied).complete (others.grown.nextWire.trans room) m performed
      obtain ⟨w₂, agree', later, shown⟩ := (others.gives middle).complete room outs (by rwa [inputs agree])
      exact ⟨w₂, fun v below => (agree v below).trans (agree' v (below.trans_le first.grown.nextWire)), later, shown⟩

section
variable {numInputs numPublic : Nat} {hints : HintRegistry F} {subs : SubCircuits F} {steps : List (Step F)}
  (completes : Completes W (.blank numInputs numPublic hints subs) .empty lib steps b')

include completes

/-- Where the builder that steps have recorded from a blank one is satisfied, it shows the outputs of the steps. -/
theorem Completes.returned {w : Wire → Scalar F} (satisfied : b'.Satisfied W w) :
    (performAll steps lib (inputValues b'.numInputs w) .empty).map (·.outputs) = some (b'.outputs.toList.map (·.eval w)) := by
  have returned := (completes.gives (Builder.satisfied_blank satisfied.one)).sound w (fun _ _ => rfl) satisfied
  have inputs : b'.numInputs = numInputs := completes.grown.numInputs
  rw [inputs]
  simpa [Store.memory, Store.empty, Builder.blank, Memory.empty] using returned

/-- Where steps compute outputs, an assignment shows them, if every wire has a number of its own. -/
theorem Completes.exists_satisfied (room : b'.nextWire ≤ 2 ^ 32) {xs outs : List (Scalar F)} (length : xs.length = numInputs)
    (returned : (performAll steps lib xs .empty).map (·.outputs) = some outs) :
    ∃ w, (b'.Satisfied W w ∧ inputValues b'.numInputs w = xs) ∧ b'.outputs.toList.map (·.eval w) = outs := by
  have start : inputValues numInputs (Builder.inputWires xs) = xs := length ▸ Builder.inputValues_inputWires xs
  obtain ⟨w, agree, satisfied, shown⟩ := (completes.gives (Builder.satisfied_blank rfl)).complete room outs (by
    have memory : Store.empty.memory (.blank numInputs numPublic hints subs) (Builder.inputWires xs) = .empty := by
      simp [Store.memory, Store.empty, Builder.blank, Memory.empty]
    rw [memory]
    exact start.symm ▸ returned)
  have inputs : b'.numInputs = numInputs := completes.grown.numInputs
  refine ⟨w, ⟨satisfied, ?_⟩, shown⟩
  rw [inputs, ← inputValues_congr (Nat.lt_succ_self numInputs) agree, start]

/-- A body that was recorded from a blank builder is a circuit of its procedure. -/
theorem Completes.realizes (possible : b'.unsatisfiable = none) (key : String) :
    b'.circuit.Realizes W ⟨key, numInputs, fun xs => (performAll steps lib xs .empty).map (·.outputs)⟩ := by
  refine ⟨completes.grown.numInputs, fun run => ?_, fun length satisfying => ?_, fun room _ _ length run => ?_⟩
  · obtain ⟨m, performed, rfl⟩ := Option.map_eq_some_iff.mp run
    exact completes.shown rfl performed
  · obtain ⟨satisfied, rfl⟩ := (Builder.satisfying_circuit_iff possible).mp satisfying
    exact completes.returned satisfied
  · simp only [Builder.satisfying_circuit_iff possible]
    exact completes.exists_satisfied (completes.grown.good.count.trans_le room) length run

end

theorem Completes.closed {steps : List (Step F)} (completes : Completes W b store lib steps b') :
    b'.circuit.Closed (libraryAll steps lib).length := by
  have good := completes.grown.good
  refine ⟨good.few, good.numbered, fun i member id called => ?_, good.hints⟩
  obtain ⟨c, found⟩ := good.calls i member id called
  exact completes.shelf.bound found

/-- A definition that must succeed finds its key or records its body. -/
theorem run_define_cases {key : String} {numInputs : Nat} {body : List (Step F)} {answer : Answer F} {store' : Store F}
    (ran : run (.define key numInputs body false) store b = .ok (answer, store') b') :
    store' = store ∧ ((b.subCircuits.lookup? key).isSome = true ∧ b' = b ∨
      (b.subCircuits.lookup? key).isSome = false ∧ Builder.checkInputCount numInputs = .ok () ∧ ∃ inner : Builder F,
        (runAll body .empty #[] (b.child numInputs)).failure = none ∧
        (runAll body .empty #[] (b.child numInputs)).builder = inner ∧ inner.unsatisfiable = none ∧
        b' = { b with subCircuits := (inner.subCircuits.insert key inner.circuit).2 }) := by
  rw [run] at ran
  beta_reduce at ran
  generalize recorded : record key numInputs (runAll body .empty #[]) b = result at ran
  unfold record at recorded
  cases found : b.subCircuits.lookup? key with
  | some id =>
    rw [found] at recorded
    subst recorded
    cases ran
    exact ⟨rfl, .inl ⟨rfl, rfl⟩⟩
  | none =>
    cases counted : Builder.checkInputCount numInputs with
    | error e =>
      rw [found, counted] at recorded
      subst recorded
      cases ran
    | ok =>
      rw [found, counted] at recorded
      dsimp only at recorded
      generalize runAll body .empty #[] (b.child numInputs) = outcome at recorded ⊢
      obtain ⟨answers, failure, inner⟩ := outcome
      rw [Builder.adopt] at recorded
      cases stopped : failure.or inner.unsatisfiable with
      | some e =>
        rw [stopped] at recorded
        subst recorded
        cases ran
      | none =>
        rw [stopped] at recorded
        subst recorded
        cases ran
        obtain ⟨ended, possible⟩ := Option.or_eq_none_iff.mp stopped
        exact ⟨rfl, .inr ⟨rfl, rfl, inner, ended, rfl, possible, rfl⟩⟩

/-- A definition puts a circuit of its procedure on the shelf and leaves the builder alone otherwise. -/
theorem define_advances {key : String} {numInputs : Nat} {body : List (Step F)} {inner : Builder F} (good : b.Good W)
    (inScope : store.Scoped b.nextWire) (shelf : b.subCircuits.Shelf W lib)
    (absent : (b.subCircuits.lookup? key).isSome = false)
    (completes : Completes W (b.child numInputs) .empty lib body inner) (possible : inner.unsatisfiable = none)
    (caught : Bool) :
    Advances W b store lib { b with subCircuits := (inner.subCircuits.insert key inner.circuit).2 } store
      (library (.define key numInputs body caught) lib) (perform (.define key numInputs body caught) lib) := by
  have undefined : ¬ lib.defines key = true := by rw [← shelf.keys, absent]; exact Bool.false_ne_true
  have added := completes.shelf.insert (completes.realizes possible key) completes.closed
  rw [library, if_neg undefined]
  refine ⟨.listing good good.outputs fun i member id called => ?_, inScope, added, ?_, fun {w} satisfied => ?_⟩
  · obtain ⟨c, found⟩ := good.calls i member id called
    obtain ⟨index, below, rfl⟩ := shelf.bound found
    have kept := below.trans_le (libraryAll_grows body lib).length_le
    have there : index < (libraryAll body lib ++ [⟨key, numInputs, fun xs =>
        (performAll body lib xs .empty).map (·.outputs)⟩] : Library F).length := by
      rw [List.length_append]
      exact Nat.lt_add_right 1 kept
    obtain ⟨c', here, _⟩ := added.circuits (List.getElem?_eq_getElem there)
    exact ⟨c', here⟩
  · rintro _ _ _ before ⟨⟩
    exact before
  · constructor
    · intro w' agree _
      exact congrArg some (Store.memory_congr inScope good.outputs agree)
    · rintro _ m ⟨⟩
      exact ⟨w, fun _ _ => rfl, Builder.satisfied_listing_iff.mpr satisfied, rfl⟩

/-- A world of builtin hints and of the calls of a library, for scripts of some kind of action. -/
structure Suits (W : World F) (full : Library F) (P : Action F → Prop) : Prop where
  allows : W.rule.Allows
  calls : ∀ {id xs ys}, W.call id xs ys ↔ full.call id xs = some ys
  actions : ∀ {action}, P action → action.Plain ∧ (action.Checked ∨ W.rule.Divides)

theorem act_advances {P : Action F → Prop} (suits : Suits W full P) (early : lib <+: full) (good : b.Good W)
    (inScope : store.Scoped b.nextWire) (shelf : b.subCircuits.Shelf W lib) {action : Action F} (kind : P action)
    {product : Product F} (ran : action.run store b = .ok product b') :
    Advances W b store lib b' (store.extend product) lib (perform (.act action) lib) := by
  obtain ⟨plain, checked⟩ := suits.actions kind
  by_cases exposes : ∃ es, action = .output es
  · obtain ⟨es, rfl⟩ := exposes
    exact output_advances good inScope shelf plain ran
  · exact compute_advances suits.allows suits.calls early good inScope shelf plain checked
      (fun es same => exposes ⟨es, same⟩) ran

mutual

theorem run_advances {P : Action F → Prop} (suits : Suits W full P) : ∀ (step : Step F) {b b' : Builder F}
    {store store' : Store F} {lib : Library F} {answer : Answer F}, step.Strict P → step.library lib <+: full →
    b.Good W → store.Scoped b.nextWire → b.subCircuits.Shelf W lib → step.run store b = .ok (answer, store') b' →
    Advances W b store lib b' store' (step.library lib) (step.perform lib)
  | .act action, b, b', store, store', lib, answer, strict, early, good, inScope, shelf, ran => by
    rw [run] at ran
    obtain ⟨product, _, made, ⟨⟩⟩ := Builder.bind_eq_ok.mp ran
    rw [library] at early ⊢
    exact act_advances suits early good inScope shelf strict made
  | .attempt step, b, b', store, store', lib, answer, strict, early, good, inScope, shelf, ran => by
    exact strict.elim
  | .define key numInputs body caught, b, b', store, store', lib, answer, strict, early, good, inScope, shelf, ran => by
    obtain ⟨rfl, strict⟩ := strict
    obtain ⟨rfl, ⟨present, rfl⟩ | ⟨absent, few, inner, ended, rfl, possible, rfl⟩⟩ := run_define_cases ran
    · have defined : lib.defines key = true := (shelf.keys key).symm.trans present
      rw [library, if_pos defined]
      refine ⟨.refl good, inScope, shelf, ?_, fun {w} satisfied => ⟨fun w' agree _ => ?_, ?_⟩⟩
      · rintro _ _ _ before ⟨⟩
        exact before
      · exact congrArg some (Store.memory_congr inScope good.outputs agree)
      · rintro _ m ⟨⟩
        exact ⟨w, fun _ _ => rfl, satisfied, rfl⟩
    · have undefined : ¬ lib.defines key = true := by
        rw [← shelf.keys, absent]
        exact Bool.false_ne_true
      have inside : libraryAll body lib <+: full := by
        rw [library, if_neg undefined] at early
        exact (List.prefix_append _ _).trans early
      have child : (b.child numInputs).Good W := Builder.good_blank W few ..
      exact define_advances good inScope shelf absent
        (runAll_completes suits body strict inside child (Store.scoped_empty _) shelf ended) possible false

theorem runAll_completes {P : Action F → Prop} (suits : Suits W full P) : ∀ (steps : List (Step F)) {b : Builder F}
    {store : Store F} {lib : Library F} {answers : Array (Answer F)}, StrictAll P steps → libraryAll steps lib <+: full →
    b.Good W → store.Scoped b.nextWire → b.subCircuits.Shelf W lib → (runAll steps store answers b).failure = none →
    Completes W b store lib steps (runAll steps store answers b).builder
  | [], b, store, lib, answers, _, _, good, inScope, shelf, _ => by
    rw [runAll]
    refine ⟨.refl good, by rwa [libraryAll], ?_, fun {w} satisfied => ⟨fun w' agree _ => ?_, ?_⟩⟩
    · intro inputs m m' before performed
      rw [performAll] at performed
      cases performed
      exact before
    · rw [performAll, Store.memory_congr inScope good.outputs agree]
      rfl
    · rintro _ outs ⟨⟩
      exact ⟨w, fun _ _ => rfl, satisfied, rfl⟩
  | step :: rest, b, store, lib, answers, strict, early, good, inScope, shelf, ended => by
    obtain ⟨first, others⟩ := strict
    rw [runAll] at ended ⊢
    rw [libraryAll] at early
    cases ran : step.run store b with
    | error e b₁ =>
      rw [ran] at ended
      cases ended
    | ok result b₁ =>
      obtain ⟨answer, store₁⟩ := result
      rw [ran] at ended
      have advances := run_advances suits step first ((libraryAll_grows rest _).trans early) good inScope shelf ran
      exact advances.cons good
        (runAll_completes suits rest others early advances.grown.good advances.inScope advances.shelf ended)

end

end

end Step
end ArithCircuit
