import ArithCircuit.Proofs.Execution.Lookups

/-!
What a run has inspected. A design can be run without having been checked. The walk then looks at forms, output
wires and calls as it meets them, so a run that ends well has found nothing wrong with any circuit that it ran;
and since instructions are run one after the other, it ran every circuit that calls lead to. Only the number of
public inputs is never looked at. A run that does not end well says that the design is malformed, or fails as one
of its operations does.
-/
namespace ArithCircuit
variable {F : ScalarField} {V S : Type}

/-- The forms of a circuit, wherever they stand. -/
def Circuit.forms (c : Circuit F) : List (LinearForm F) :=
  c.instructions.flatMap (·.inputs) ++ c.constraints ++ c.outputs

/-- A design that was put together without being checked: it has an entry, its forms are canonical and no
    chain of calls comes back to where it started. -/
structure Design.Draft (D : Design F) : Prop where
  entry : ∃ c, D.get? .entry = some c
  canonical : ∀ {id c}, D.get? id = some c → ∀ form ∈ c.forms, form.isCanonical = true
  acyclic : ∀ id, ¬ Relation.TransGen D.Calls id id

namespace Interp
variable {site : Site} {values next : Array V} {s t : S}

/-! ### Single checks -/

theorem readable_of_checkDefined {form : LinearForm F} {n : Nat} (canonical : form.isCanonical = true)
    (checked : checkDefined site form n = .ok ()) : form.Readable (machineWord n) := by
  rw [checkDefined] at checked
  split at checked
  · cases checked
  · rename_i defined
    exact ⟨canonical, defined⟩

theorem readable_of_checkAllDefined {forms : List (LinearForm F)} {n : Nat}
    (canonical : ∀ form ∈ forms, form.isCanonical = true) (checked : checkAllDefined site n forms = .ok ()) :
    ∀ form ∈ forms, form.Readable (machineWord n) := by
  induction forms with
  | nil => exact List.forall_mem_nil _
  | cons form rest ih =>
    obtain ⟨first, later⟩ := List.forall_mem_cons.mp canonical
    obtain ⟨_, checkedFirst, checkedLater⟩ := bind_eq_ok.mp checked
    exact List.forall_mem_cons.mpr ⟨readable_of_checkDefined first checkedFirst, ih later checkedLater⟩

theorem next_of_defineWire {out : Wire} {v : V} (defined : defineWire site out v values = .ok next) :
    [out] = nextWires values.size 1 ∧ next.size = values.size + 1 := by
  rw [defineWire] at defined
  split at defined
  · rename_i same
    cases defined
    exact ⟨congrArg ([·]) same, Array.size_push v⟩
  · cases defined

theorem next_of_defineWires {outs : List Wire} {vs : List V} (enough : vs.length = outs.length)
    (defined : defineWires site outs vs values = .ok next) :
    outs = nextWires values.size outs.length ∧ next.size = values.size + outs.length := by
  induction outs generalizing vs values with
  | nil =>
    cases defined
    exact ⟨rfl, rfl⟩
  | cons out outs ih =>
    obtain ⟨v, vs, rfl⟩ := List.exists_cons_of_length_eq_add_one enough
    obtain ⟨between, first, later⟩ := bind_eq_ok.mp defined
    obtain ⟨here, size⟩ := next_of_defineWire first
    obtain ⟨following, total⟩ := ih (Nat.succ.inj enough) later
    rw [size] at following total
    have same : out = machineWord values.size := List.head_eq_of_cons_eq here
    constructor
    · rw [List.length_cons, nextWires_succ, ← following, same]
    · rw [total, List.length_cons, Nat.add_assoc, Nat.add_comm 1]

variable {I : Interp F V S} {form lhs rhs : LinearForm F} {forms : List (LinearForm F)}

theorem readable_of_read {v : V} (canonical : form.isCanonical = true)
    (read : I.read site form values s = .ok (v, t)) : form.Readable (machineWord values.size) := by
  obtain ⟨_, checked, -⟩ := bind_eq_ok.mp read
  exact readable_of_checkDefined canonical checked

/-- An equal right factor is not read again, and need not be. -/
theorem readable_of_readFactors {v : V × V} (left : lhs.isCanonical = true) (right : rhs.isCanonical = true)
    (read : I.readFactors site lhs rhs values s = .ok (v, t)) :
    lhs.Readable (machineWord values.size) ∧ rhs.Readable (machineWord values.size) := by
  obtain ⟨a, first, read⟩ := bind_eq_ok.mp read
  have readable := readable_of_read left first
  dsimp only at read
  split at read
  · rename_i same
    exact ⟨readable, same ▸ readable⟩
  · obtain ⟨b, second, -⟩ := bind_eq_ok.mp read
    exact ⟨readable, readable_of_read right second⟩

theorem readable_of_readAll {place : Nat → Site} {i : Nat} {vs : List V}
    (canonical : ∀ form ∈ forms, form.isCanonical = true)
    (read : I.readAll place values i forms s = .ok (vs, t)) :
    (∀ form ∈ forms, form.Readable (machineWord values.size)) ∧ vs.length = forms.length := by
  induction forms generalizing i s vs with
  | nil =>
    cases read
    exact ⟨List.forall_mem_nil _, rfl⟩
  | cons form rest ih =>
    obtain ⟨canonicalFirst, canonicalLater⟩ := List.forall_mem_cons.mp canonical
    obtain ⟨⟨v, between⟩, first, read⟩ := bind_eq_ok.mp read
    obtain ⟨⟨others, last⟩, later, read⟩ := bind_eq_ok.mp read
    cases read
    obtain ⟨readable, length⟩ := ih canonicalLater later
    exact ⟨List.forall_mem_cons.mpr ⟨readable_of_read canonicalFirst first, readable⟩, congrArg (· + 1) length⟩

theorem readable_of_constrainAll {circuit : CircuitId} {i : Nat} (canonical : ∀ form ∈ forms, form.isCanonical = true)
    (constrained : I.constrainAll circuit values i forms s = .ok t) :
    ∀ form ∈ forms, form.Readable (machineWord values.size) := by
  induction forms generalizing i s with
  | nil => exact List.forall_mem_nil _
  | cons form rest ih =>
    obtain ⟨first, later⟩ := List.forall_mem_cons.mp canonical
    obtain ⟨_, checked, constrained⟩ := bind_eq_ok.mp constrained
    obtain ⟨between, -, constrained⟩ := bind_eq_ok.mp constrained
    exact List.forall_mem_cons.mpr ⟨readable_of_checkDefined first checked, ih later constrained⟩

/-! ### Runs -/

/-- Hints give as many values as they are asked for. -/
def Answers (I : Interp F V S) : Prop :=
  ∀ {name : String} {inputs : List (LinearForm F)} {count : Nat} {values : Array V} {s t : S} {vs : List V},
    I.hint name inputs count values s = .ok (vs, t) → vs.length = count

/-- The circuit of an id was run to its end, on as many values as it has inputs. -/
def Succeeds (I : Interp F V S) (D : Design F) (id : CircuitId) : Prop :=
  ∃ (c : Circuit F) (depth : Nat) (args : List V) (s : S) (result : Run V S),
    D.get? id = some c ∧ c.numInputs = args.length ∧ I.run D depth id args s = .ok result

variable {D : Design F} {depth : Nat} {circuit : CircuitId} {i : Nat} {calls : Array (CallTree V)}
  {reached : Array V × Array (CallTree V) × S}

theorem length_outputs_of_run {id : CircuitId} {c : Circuit F} (found : D.get? id = some c)
    (canonical : ∀ form ∈ c.outputs, form.isCanonical = true) {args : List V} {result : Run V S}
    (ran : I.run D depth id args s = .ok result) : result.outputs.length = c.outputs.length := by
  cases depth with
  | zero => cases ran
  | succ depth =>
    obtain ⟨c', found', ran⟩ := bind_eq_ok.mp ran
    cases found.symm.trans (Design.circuit_eq_ok_iff.mp (mapError_eq_ok.mp found'))
    obtain ⟨_, -, ran⟩ := bind_eq_ok.mp ran
    obtain ⟨_, -, ran⟩ := bind_eq_ok.mp ran
    obtain ⟨_, read, ran⟩ := bind_eq_ok.mp ran
    cases ran
    exact (readable_of_readAll canonical read).2

section
variable (answers : I.Answers) (draft : D.Draft)
include answers draft

/-- An instruction that was run reads wires that have values, defines the next wires, and fits the circuit that
    it calls, which was run too. -/
theorem execute_one_inspects {instruction : Instruction F} (canonical : ∀ form ∈ instruction.inputs, form.isCanonical = true)
    (ran : I.execute D (I.run D depth) circuit i [instruction] values calls s = .ok reached) :
    Sequenced D values.size [instruction] ∧ reached.1.size = values.size + instruction.outputs.length ∧
      ∀ callee, instruction.callee? = some callee → I.Succeeds D callee := by
  cases instruction with
  | linear form out =>
    obtain ⟨_, read, ran⟩ := bind_eq_ok.mp ran
    obtain ⟨next, defined, ran⟩ := bind_eq_ok.mp ran
    cases ran
    obtain ⟨following, size⟩ := next_of_defineWire defined
    have readable := readable_of_read (canonical form (List.mem_singleton_self _)) read
    refine ⟨⟨List.forall_mem_singleton.mpr readable, trivial, following, trivial⟩, size, fun callee calling => ?_⟩
    cases calling
  | product lhs rhs out =>
    obtain ⟨_, read, ran⟩ := bind_eq_ok.mp ran
    obtain ⟨next, defined, ran⟩ := bind_eq_ok.mp ran
    cases ran
    obtain ⟨following, size⟩ := next_of_defineWire defined
    obtain ⟨left, right⟩ := readable_of_readFactors (canonical lhs (by simp [Instruction.inputs]))
      (canonical rhs (by simp [Instruction.inputs])) read
    have readable := List.forall_mem_cons.mpr ⟨left, List.forall_mem_singleton.mpr right⟩
    refine ⟨⟨readable, trivial, following, trivial⟩, size, fun callee calling => ?_⟩
    cases calling
  | hint name inputs outs =>
    obtain ⟨_, checked, ran⟩ := bind_eq_ok.mp ran
    obtain ⟨⟨vs, t⟩, given, ran⟩ := bind_eq_ok.mp ran
    obtain ⟨next, defined, ran⟩ := bind_eq_ok.mp ran
    cases ran
    obtain ⟨following, size⟩ := next_of_defineWires (answers given) defined
    refine ⟨⟨readable_of_checkAllDefined canonical checked, trivial, following, trivial⟩, size, fun callee calling => ?_⟩
    cases calling
  | call callee inputs outs =>
    obtain ⟨⟨args, t⟩, read, ran⟩ := bind_eq_ok.mp ran
    obtain ⟨c, found, ran⟩ := bind_eq_ok.mp ran
    have found := Design.circuit_eq_ok_iff.mp (mapError_eq_ok.mp found)
    split at ran
    · rename_i arity
      obtain ⟨numInputs, numOutputs⟩ := arity
      obtain ⟨result, called, ran⟩ := bind_eq_ok.mp ran
      obtain ⟨next, defined, ran⟩ := bind_eq_ok.mp ran
      cases ran
      obtain ⟨readable, length⟩ := readable_of_readAll canonical read
      have returned : result.outputs.length = outs.length := by
        rw [length_outputs_of_run found (fun form member => draft.canonical found form (by simp [Circuit.forms, member])) called,
          numOutputs]
      obtain ⟨following, size⟩ := next_of_defineWires returned defined
      refine ⟨⟨readable, ⟨c, found, numInputs.trans length, numOutputs⟩, following, trivial⟩, size, ?_⟩
      rintro _ ⟨⟩
      exact ⟨c, depth, args, t, result, found, numInputs, called⟩
    · cases ran

/-- Instructions that were run one after the other keep the rules, and every circuit that they call was run. -/
theorem execute_inspects {instructions : List (Instruction F)}
    (canonical : ∀ instruction ∈ instructions, ∀ form ∈ instruction.inputs, form.isCanonical = true)
    (ran : I.execute D (I.run D depth) circuit i instructions values calls s = .ok reached) :
    Sequenced D values.size instructions ∧
      reached.1.size = values.size + sumOver (·.outputs.length) instructions ∧
      Design.CallsIn (I.Succeeds D) instructions := by
  induction instructions generalizing i values calls s with
  | nil =>
    cases ran
    exact ⟨trivial, rfl, List.forall_mem_nil _⟩
  | cons instruction rest ih =>
    obtain ⟨canonicalFirst, canonicalLater⟩ := List.forall_mem_cons.mp canonical
    rw [execute_cons] at ran
    obtain ⟨between, first, later⟩ := bind_eq_ok.mp ran
    obtain ⟨⟨readable, fits, following, -⟩, size, called⟩ := execute_one_inspects answers draft canonicalFirst first
    obtain ⟨sequenced, total, calledLater⟩ := ih canonicalLater later
    rw [size] at sequenced total
    refine ⟨⟨readable, fits, following, sequenced⟩, ?_, List.forall_mem_cons.mpr ⟨called, calledLater⟩⟩
    rw [total, sumOver_cons, Nat.add_assoc]

/-- A circuit that was run keeps every rule that does not speak of public inputs, and every circuit that it calls
    was run. -/
theorem Succeeds.inspects {id : CircuitId} (succeeds : I.Succeeds D id) :
    ∃ c, D.get? id = some c ∧ ({ c with numPublic := 0 } : Circuit F).WellFormed D ∧
      Design.CallsIn (I.Succeeds D) c.instructions := by
  obtain ⟨c, depth, args, s, result, found, arity, ran⟩ := succeeds
  have canonical := draft.canonical found
  simp only [Circuit.forms, List.forall_mem_append, List.forall_mem_flatMap] at canonical
  obtain ⟨⟨canonicalInputs, canonicalConstraints⟩, canonicalOutputs⟩ := canonical
  cases depth with
  | zero => cases ran
  | succ depth =>
    obtain ⟨c', found', ran⟩ := bind_eq_ok.mp ran
    cases found.symm.trans (Design.circuit_eq_ok_iff.mp (mapError_eq_ok.mp found'))
    obtain ⟨⟨values, calls, t⟩, executed, ran⟩ := bind_eq_ok.mp ran
    obtain ⟨u, constrained, ran⟩ := bind_eq_ok.mp ran
    obtain ⟨⟨outputs, last⟩, read, -⟩ := bind_eq_ok.mp ran
    obtain ⟨sequenced, total, called⟩ := execute_inspects answers draft canonicalInputs executed
    have start : (#[I.one] ++ args).size = 1 + c.numInputs := by
      rw [size_appendList, arity]
      rfl
    rw [start] at sequenced total
    have size : values.size = c.wireCount := total
    refine ⟨c, found, ⟨Nat.zero_le _, sequenced, ?_, ?_⟩, called⟩
    · have readable := readable_of_constrainAll canonicalConstraints constrained
      rwa [size] at readable
    · have readable := (readable_of_readAll canonicalOutputs read).1
      rwa [size] at readable

theorem Succeeds.reaches {id other : CircuitId} (succeeds : I.Succeeds D id)
    (reach : Relation.ReflTransGen D.Calls id other) : I.Succeeds D other := by
  induction reach with
  | refl => exact succeeds
  | tail _ calls ih =>
    obtain ⟨c, found, -, called⟩ := ih.inspects answers draft
    obtain ⟨c', found', instruction, member, calling⟩ := Design.calls_iff.mp calls
    cases found.symm.trans found'
    exact called instruction member _ calling

/-- A circuit that was run, and any that calls lead to from there, passes the check of a circuit, apart from
    the number of its public inputs, and keeps the rules if a machine word can count its wires. -/
theorem Succeeds.checks {id other : CircuitId} (succeeds : I.Succeeds D id)
    (reach : Relation.ReflTransGen D.Calls id other) :
    ∃ c, D.get? other = some c ∧ ({ c with numPublic := 0 } : Circuit F).check D other = .ok () ∧
      (c.wireCount < 2 ^ 64 → ({ c with numPublic := 0 } : Circuit F).Lawful D) := by
  obtain ⟨c, found, wellFormed, -⟩ := (succeeds.reaches answers draft reach).inspects answers draft
  refine ⟨c, found, Circuit.check_eq_ok wellFormed ?_,
    fun small => (Circuit.wellFormed_iff (c := { c with numPublic := 0 }) small).mp wellFormed⟩
  rintro instruction member callee calling rfl
  exact draft.acyclic callee (.single (Design.calls_iff.mpr ⟨c, found, instruction, member, calling⟩))

end

end Interp

/-! ### Failures -/

/-- If the computation fails, then with an error of a kind. -/
def FailsBy {α : Type} (kind : Error → Prop) (x : Except Error α) : Prop := ∀ e, x = .error e → kind e

namespace FailsBy
variable {α β : Type} {kind : Error → Prop}

theorem ok (a : α) : FailsBy kind (.ok a) := fun _ failed => by cases failed

theorem error {e : Error} (same : kind e) : FailsBy kind (.error e : Except Error α) := by
  rintro _ ⟨⟩
  exact same

theorem bind {x : Except Error α} {f : α → Except Error β} (first : FailsBy kind x) (later : ∀ a, FailsBy kind (f a)) :
    FailsBy kind (x >>= f) := by
  cases x with
  | ok a => exact later a
  | error e => exact .error (first e rfl)

end FailsBy

namespace Interp
variable {I : Interp F V S} {kind : Error → Prop}

/-- The operations of an interpretation fail with errors of a kind, and so does a design that is malformed. -/
structure Blames (I : Interp F V S) (kind : Error → Prop) : Prop where
  malformed (fault : Fault) : kind (.malformed fault)
  form (site : Site) (form : LinearForm F) (values : Array V) (s : S) : FailsBy kind (I.form site form values s)
  hint (name : String) (inputs : List (LinearForm F)) (count : Nat) (values : Array V) (s : S) :
    FailsBy kind (I.hint name inputs count values s)
  constrain (site : Site) (form : LinearForm F) (values : Array V) (s : S) : FailsBy kind (I.constrain site form values s)

namespace Blames
variable (blames : I.Blames kind)
include blames

theorem checkDefined (site : Site) (form : LinearForm F) (n : Nat) : FailsBy kind (Interp.checkDefined site form n) := by
  rw [Interp.checkDefined]
  split
  · exact .error (blames.malformed _)
  · exact .ok ()

theorem checkAllDefined (site : Site) (n : Nat) (forms : List (LinearForm F)) :
    FailsBy kind (Interp.checkAllDefined site n forms) := by
  induction forms with
  | nil => exact .ok ()
  | cons form rest ih => exact (blames.checkDefined site form n).bind fun _ => ih

theorem defineWire (site : Site) (out : Wire) (v : V) (values : Array V) :
    FailsBy kind (Interp.defineWire site out v values) := by
  rw [Interp.defineWire]
  split
  · exact .ok _
  · exact .error (blames.malformed _)

theorem defineWires (site : Site) (outs : List Wire) (vs : List V) (values : Array V) :
    FailsBy kind (Interp.defineWires site outs vs values) := by
  induction outs generalizing vs values with
  | nil => exact .ok values
  | cons out outs ih =>
    cases vs with
    | nil => exact .ok values
    | cons v vs => exact (blames.defineWire site out v values).bind (ih vs)

theorem read (site : Site) (form : LinearForm F) (values : Array V) (s : S) :
    FailsBy kind (I.read site form values s) :=
  (blames.checkDefined site form values.size).bind fun _ => blames.form site form values s

theorem readAll (site : Nat → Site) (values : Array V) (i : Nat) (forms : List (LinearForm F)) (s : S) :
    FailsBy kind (I.readAll site values i forms s) := by
  induction forms generalizing i s with
  | nil => exact .ok _
  | cons form rest ih =>
    exact (blames.read (site i) form values s).bind fun first => (ih (i + 1) first.2).bind fun _ => .ok _

theorem readFactors (site : Site) (lhs rhs : LinearForm F) (values : Array V) (s : S) :
    FailsBy kind (I.readFactors site lhs rhs values s) := by
  refine (blames.read site lhs values s).bind fun first => ?_
  dsimp only
  split
  · exact .ok _
  · exact (blames.read site rhs values first.2).bind fun _ => .ok _

theorem constrainAll (circuit : CircuitId) (values : Array V) (i : Nat) (forms : List (LinearForm F)) (s : S) :
    FailsBy kind (I.constrainAll circuit values i forms s) := by
  induction forms generalizing i s with
  | nil => exact .ok s
  | cons form rest ih =>
    exact (blames.checkDefined _ form values.size).bind fun _ =>
      (blames.constrain _ form values s).bind fun s => ih (i + 1) s

theorem circuit (D : Design F) (id : CircuitId) : FailsBy kind ((D.circuit id).mapError .malformed) := by
  cases D.circuit id with
  | ok c => exact .ok c
  | error fault => exact .error (blames.malformed fault)

theorem execute (D : Design F) {run : CircuitId → List V → S → Except Error (Run V S)}
    (runs : ∀ callee args s, FailsBy kind (run callee args s)) (circuit : CircuitId) (i : Nat)
    (instructions : List (Instruction F)) (values : Array V) (calls : Array (CallTree V)) (s : S) :
    FailsBy kind (I.execute D run circuit i instructions values calls s) := by
  induction instructions generalizing i values calls s with
  | nil => exact .ok _
  | cons instruction rest ih =>
    cases instruction with
    | linear form out =>
      exact (blames.read _ form values s).bind fun _ => (blames.defineWire _ out _ values).bind fun _ => ih _ _ _ _
    | product lhs rhs out =>
      exact (blames.readFactors _ lhs rhs values s).bind fun _ => (blames.defineWire _ out _ values).bind fun _ => ih _ _ _ _
    | hint name inputs outs =>
      exact (blames.checkAllDefined _ values.size inputs).bind fun _ =>
        (blames.hint name inputs outs.length values s).bind fun _ =>
          (blames.defineWires _ outs _ values).bind fun _ => ih _ _ _ _
    | call callee inputs outs =>
      refine (blames.readAll _ values 0 inputs s).bind fun args => (blames.circuit D callee).bind fun c => ?_
      split
      · exact (runs callee args.1 args.2).bind fun result => (blames.defineWires _ outs _ values).bind fun _ => ih _ _ _ _
      · exact .error (blames.malformed _)

/-- A run fails with the errors of its operations, or since the design is malformed. -/
theorem run (D : Design F) (depth : Nat) (id : CircuitId) (args : List V) (s : S) :
    FailsBy kind (I.run D depth id args s) := by
  induction depth generalizing id args s with
  | zero => exact .error (blames.malformed _)
  | succ depth ih =>
    refine (blames.circuit D id).bind fun c => ?_
    exact (blames.execute D ih id 0 c.instructions _ _ s).bind fun executed =>
      (blames.constrainAll id executed.1 0 c.constraints _).bind fun s =>
        (blames.readAll _ executed.1 0 c.outputs s).bind fun _ => .ok _

end Blames

end Interp
end ArithCircuit
