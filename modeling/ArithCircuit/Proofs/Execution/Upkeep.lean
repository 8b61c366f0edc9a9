import ArithCircuit.Proofs.Execution.Totals

/-!
What a run keeps up. An upkeep says which states and values occur under an interpretation and how one state
leads to another, with a number of constraints recorded on the way; it asks of each operation only that it
keep to that when it succeeds. A run that succeeds then does so too. It has written out the calls of its
circuit as a tree and recorded the constraints of this tree. Nothing is asked of the design.
-/
namespace ArithCircuit
variable {F : ScalarField} {V S : Type}

/-- What the operations of an interpretation keep up. -/
structure Upkeep (I : Interp F V S) where
  /-- The states that occur. -/
  good : S → Prop
  /-- In a state, the values that occur. -/
  fits : S → V → Prop
  /-- One state leads to another, recording a number of constraints. -/
  step : S → S → Nat → Prop
  refl {s : S} : good s → step s s 0
  trans {s t u : S} {m n : Nat} : step s t m → step t u n → step s u (m + n)
  good_of_step {s t : S} {n : Nat} : step s t n → good t
  mono {s t : S} {n : Nat} {v : V} : step s t n → fits s v → fits t v
  one {s : S} : good s → fits s I.one
  form {site : Site} {form : LinearForm F} {values : Array V} {s t : S} {v : V} : good s →
    (∀ value ∈ values.toList, fits s value) → I.form site form values s = .ok (v, t) → step s t 0 ∧ fits t v
  product {a b : V} {s : S} : good s → fits s a → fits s b →
    step s (I.product a b s).2 0 ∧ fits (I.product a b s).2 (I.product a b s).1
  hint {name : String} {inputs : List (LinearForm F)} {count : Nat} {values : Array V} {s t : S} {vs : List V} :
    good s → (∀ value ∈ values.toList, fits s value) → I.hint name inputs count values s = .ok (vs, t) →
    step s t 0 ∧ ∀ v ∈ vs, fits t v
  constrain {site : Site} {form : LinearForm F} {values : Array V} {s t : S} : good s →
    (∀ value ∈ values.toList, fits s value) → I.constrain site form values s = .ok t → step s t 1

theorem Interp.mem_of_defineWire {site : Site} {out : Wire} {v : V} {values next : Array V}
    (defined : defineWire site out v values = .ok next) {value : V} (member : value ∈ next.toList) :
    value ∈ values.toList ∨ value = v := by
  rw [defineWire] at defined
  split at defined
  · cases defined
    simpa using member
  · cases defined

theorem Interp.mem_of_defineWires {site : Site} {outs : List Wire} {vs : List V} {values next : Array V}
    (defined : defineWires site outs vs values = .ok next) {value : V} (member : value ∈ next.toList) :
    value ∈ values.toList ∨ value ∈ vs := by
  fun_induction defineWires site outs vs values with
  | case1 out outs v rest values ih =>
    obtain ⟨between, first, later⟩ := bind_eq_ok.mp defined
    rcases ih between later with old | new
    · rcases mem_of_defineWire first old with older | rfl
      · exact .inl older
      · exact .inr (List.mem_cons_self ..)
    · exact .inr (List.mem_cons_of_mem _ new)
  | case2 outs vs values =>
    cases defined
    exact .inl member

namespace Upkeep
variable {I : Interp F V S} (U : Upkeep I)

/-- In a state, all of the listed values occur. -/
def Fit (s : S) (values : List V) : Prop := ∀ value ∈ values, U.fits s value

/-- A successful run of the circuit of an id has written out its calls and recorded the constraints of all
    of them. -/
structure Kept (D : Design F) (id : CircuitId) (s : S) (result : Run V S) : Prop where
  circuit : result.tree.circuit = id
  unfolds : result.tree.Unfolds D
  step : U.step s result.state (result.tree.total D Gauge.constraints.own)
  outputs : U.Fit result.state result.outputs

/-- Running the circuit of an id on values that occur keeps up, whenever it succeeds. -/
def Keeps (D : Design F) (run : CircuitId → List V → S → Except Error (Run V S)) (id : CircuitId) : Prop :=
  ∀ {args : List V} {s : S} {result : Run V S}, U.good s → U.Fit s args → run id args s = .ok result → U.Kept D id s result

section
variable {U} {values : Array V} {s t u : S} {n : Nat}

theorem Fit.mono {listed : List V} (fit : U.Fit s listed) (step : U.step s t n) : U.Fit t listed :=
  fun value member => U.mono step (fit value member)

theorem quiet_step (quiet : U.step s t 0) (step : U.step t u n) : U.step s u n :=
  Nat.zero_add n ▸ U.trans quiet step

theorem read_keeps {site : Site} {form : LinearForm F} {v : V} (good : U.good s) (fit : U.Fit s values.toList)
    (read : I.read site form values s = .ok (v, t)) : U.step s t 0 ∧ U.fits t v := by
  obtain ⟨-, -, formed⟩ := bind_eq_ok.mp read
  exact U.form good fit formed

theorem readAll_keeps {site : Nat → Site} {i : Nat} {forms : List (LinearForm F)} {vs : List V} (good : U.good s)
    (fit : U.Fit s values.toList) (read : I.readAll site values i forms s = .ok (vs, t)) :
    U.step s t 0 ∧ U.Fit t vs := by
  induction forms generalizing i s vs with
  | nil =>
    cases read
    exact ⟨U.refl good, List.forall_mem_nil _⟩
  | cons form rest ih =>
    obtain ⟨⟨v, between⟩, first, read⟩ := bind_eq_ok.mp read
    obtain ⟨⟨others, last⟩, later, read⟩ := bind_eq_ok.mp read
    cases read
    obtain ⟨step, fits⟩ := read_keeps good fit first
    obtain ⟨stepLater, fitLater⟩ := ih (U.good_of_step step) (fit.mono step) later
    exact ⟨quiet_step step stepLater, List.forall_mem_cons.mpr ⟨U.mono stepLater fits, fitLater⟩⟩

theorem readFactors_keeps {site : Site} {lhs rhs : LinearForm F} {a b : V} (good : U.good s)
    (fit : U.Fit s values.toList) (read : I.readFactors site lhs rhs values s = .ok ((a, b), t)) :
    U.step s t 0 ∧ U.fits t a ∧ U.fits t b := by
  obtain ⟨⟨v, between⟩, first, read⟩ := bind_eq_ok.mp read
  obtain ⟨step, fits⟩ := read_keeps good fit first
  dsimp only at read
  split at read
  · cases read
    exact ⟨step, fits, fits⟩
  · obtain ⟨⟨w, last⟩, second, read⟩ := bind_eq_ok.mp read
    cases read
    obtain ⟨stepLater, fitsLater⟩ := read_keeps (U.good_of_step step) (fit.mono step) second
    exact ⟨quiet_step step stepLater, U.mono stepLater fits, fitsLater⟩

theorem constrainAll_keeps {circuit : CircuitId} {i : Nat} {forms : List (LinearForm F)} (good : U.good s)
    (fit : U.Fit s values.toList) (constrained : I.constrainAll circuit values i forms s = .ok t) :
    U.step s t forms.length := by
  induction forms generalizing i s with
  | nil =>
    cases constrained
    exact U.refl good
  | cons form rest ih =>
    obtain ⟨-, -, constrained⟩ := bind_eq_ok.mp constrained
    obtain ⟨between, first, later⟩ := bind_eq_ok.mp constrained
    have step := U.constrain good fit first
    rw [List.length_cons, Nat.add_comm]
    exact U.trans step (ih (U.good_of_step step) (fit.mono step) later)

/-! ### Runs -/

variable {D : Design F} {run : CircuitId → List V → S → Except Error (Run V S)} {circuit : CircuitId} {i : Nat}
  {calls : Array (CallTree V)}

/-- What running instructions has kept up: one tree per call, and the constraints of these. -/
def Proceeded (U : Upkeep I) (D : Design F) (instructions : List (Instruction F)) (calls : Array (CallTree V)) (s : S)
    (reached : Array V × Array (CallTree V) × S) : Prop :=
  ∃ trees : List (CallTree V), reached.2.1.toList = calls.toList ++ trees ∧
    instructions.filterMap Instruction.callee? = trees.map CallTree.circuit ∧ (∀ tree ∈ trees, tree.Unfolds D) ∧
    U.step s reached.2.2 (sumOver (CallTree.total D Gauge.constraints.own) trees) ∧ U.Fit reached.2.2 reached.1.toList

theorem Proceeded.own {instruction : Instruction F} (own : instruction.callee? = none) (quiet : U.step s t 0)
    {rest : List (Instruction F)} {reached : Array V × Array (CallTree V) × S}
    (later : U.Proceeded D rest calls t reached) : U.Proceeded D (instruction :: rest) calls s reached := by
  obtain ⟨trees, listed, callees, unfold, step, fit⟩ := later
  exact ⟨trees, listed, by rw [List.filterMap_cons_none own, callees], unfold, quiet_step quiet step, fit⟩

theorem execute_keeps (keeps : ∀ callee, U.Keeps D run callee) {instructions : List (Instruction F)} (good : U.good s)
    (fit : U.Fit s values.toList) {reached : Array V × Array (CallTree V) × S}
    (ran : I.execute D run circuit i instructions values calls s = .ok reached) :
    U.Proceeded D instructions calls s reached := by
  induction instructions generalizing i values calls s with
  | nil =>
    cases ran
    exact ⟨[], (List.append_nil _).symm, rfl, List.forall_mem_nil _, U.refl good, fit⟩
  | cons instruction rest ih =>
    cases instruction with
    | linear form out =>
      obtain ⟨⟨v, t⟩, read, ran⟩ := bind_eq_ok.mp ran
      obtain ⟨next, defined, ran⟩ := bind_eq_ok.mp ran
      obtain ⟨step, fits⟩ := read_keeps good fit read
      refine .own rfl step (ih (U.good_of_step step) (fun value member => ?_) ran)
      rcases Interp.mem_of_defineWire defined member with old | rfl
      · exact U.mono step (fit value old)
      · exact fits
    | product lhs rhs out =>
      obtain ⟨⟨⟨a, b⟩, t⟩, read, ran⟩ := bind_eq_ok.mp ran
      obtain ⟨next, defined, ran⟩ := bind_eq_ok.mp ran
      obtain ⟨step, fitsA, fitsB⟩ := readFactors_keeps good fit read
      obtain ⟨multiplied, fits⟩ := U.product (U.good_of_step step) fitsA fitsB
      refine .own rfl (quiet_step step multiplied) (ih (U.good_of_step multiplied) (fun value member => ?_) ran)
      rcases Interp.mem_of_defineWire defined member with old | rfl
      · exact U.mono multiplied (U.mono step (fit value old))
      · exact fits
    | hint name inputs outputs =>
      obtain ⟨-, -, ran⟩ := bind_eq_ok.mp ran
      obtain ⟨⟨vs, t⟩, given, ran⟩ := bind_eq_ok.mp ran
      obtain ⟨next, defined, ran⟩ := bind_eq_ok.mp ran
      obtain ⟨step, fits⟩ := U.hint good fit given
      refine .own rfl step (ih (U.good_of_step step) (fun value member => ?_) ran)
      rcases Interp.mem_of_defineWires defined member with old | new
      · exact U.mono step (fit value old)
      · exact fits value new
    | call callee inputs outputs =>
      obtain ⟨⟨args, t⟩, read, ran⟩ := bind_eq_ok.mp ran
      obtain ⟨c, -, ran⟩ := bind_eq_ok.mp ran
      split at ran
      · obtain ⟨result, called, ran⟩ := bind_eq_ok.mp ran
        obtain ⟨next, defined, ran⟩ := bind_eq_ok.mp ran
        obtain ⟨step, fits⟩ := readAll_keeps good fit read
        obtain ⟨same, unfolds, stepCalled, returned⟩ := keeps callee (U.good_of_step step) fits called
        have fitNext : U.Fit result.state next.toList := by
          intro value member
          rcases Interp.mem_of_defineWires defined member with old | new
          · exact U.mono stepCalled (U.mono step (fit value old))
          · exact returned value new
        obtain ⟨trees, listed, callees, unfold, later, fitLater⟩ := ih (U.good_of_step stepCalled) fitNext ran
        refine ⟨result.tree :: trees, ?_, ?_, List.forall_mem_cons.mpr ⟨unfolds, unfold⟩, ?_, fitLater⟩
        · rw [listed, Array.toList_push, List.append_assoc, List.singleton_append]
        · rw [List.map_cons, same, ← callees]
          rfl
        · rw [sumOver_cons]
          exact quiet_step step (U.trans stepCalled later)
      · cases ran

theorem runCircuit_keeps (keeps : ∀ callee, U.Keeps D run callee) {id : CircuitId} {c : Circuit F}
    (found : D.get? id = some c) {args : List V} (good : U.good s) (fit : U.Fit s args) {result : Run V S}
    (ran : I.runCircuit D run id c args s = .ok result) : U.Kept D id s result := by
  obtain ⟨⟨values, calls, t⟩, executed, ran⟩ := bind_eq_ok.mp ran
  obtain ⟨u, constrained, ran⟩ := bind_eq_ok.mp ran
  obtain ⟨⟨outputs, last⟩, read, ran⟩ := bind_eq_ok.mp ran
  cases ran
  have start : U.Fit s (#[I.one] ++ args).toList := by
    simp only [Array.toList_appendList, List.cons_append, List.nil_append]
    exact List.forall_mem_cons.mpr ⟨U.one good, fit⟩
  obtain ⟨trees, listed, callees, unfold, step, fitEnd⟩ := execute_keeps keeps good start executed
  have recorded := constrainAll_keeps (U.good_of_step step) fitEnd constrained
  obtain ⟨quiet, returned⟩ := readAll_keeps (U.good_of_step recorded) (fitEnd.mono recorded) read
  have listed : calls.toList = trees := listed
  refine ⟨rfl, .node found ?_ (listed ▸ unfold), ?_, returned⟩
  · rw [c.callees_eq, callees, listed]
  · have count : (CallTree.node id values calls.toList).total D Gauge.constraints.own =
        sumOver (CallTree.total D Gauge.constraints.own) trees + (c.constraints.length + 0) := by
      rw [CallTree.total_node found, listed, Nat.add_comm]
      rfl
    rw [count]
    exact U.trans step (U.trans recorded quiet)

/-- A run that succeeds keeps up. -/
theorem run_keeps (U : Upkeep I) (D : Design F) (depth : Nat) (id : CircuitId) : U.Keeps D (I.run D depth) id := by
  induction depth generalizing id with
  | zero =>
    intro args s result _ _ ran
    cases ran
  | succ depth ih =>
    intro args s result good fit ran
    obtain ⟨c, found, ran⟩ := bind_eq_ok.mp ran
    exact runCircuit_keeps ih (Design.circuit_eq_ok_iff.mp (mapError_eq_ok.mp found)) good fit ran

end
end Upkeep
end ArithCircuit
