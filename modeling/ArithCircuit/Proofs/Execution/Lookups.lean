import ArithCircuit.Proofs.Execution.Reading
import ArithCircuit.Proofs.Execution.Termination

/-!
What a run looks up is there. The operations of an interpretation look up wires and whatever else their
values point to, and say something for what is missing too, so that they are total. Which lookups an
operation makes in range is said on its own. A run then stays in range if it makes no difference what
the operations would do elsewhere: any other interpretation that does the same where all lookups are in
range, and that fails or answers as it likes where one is not, has the same run.
-/
namespace ArithCircuit
variable {F : ScalarField} {V S : Type}

/-- When everything that an operation of an interpretation looks up is there. -/
structure Lookups (F : ScalarField) (V S : Type) where
  form : LinearForm F → Array V → S → Prop
  product : V → V → S → Prop
  hint : List (LinearForm F) → Array V → S → Prop
  constrain : LinearForm F → Array V → S → Prop

/-- The two interpretations do the same where everything that is looked up is there. -/
structure Lookups.Agree (L : Lookups F V S) (I J : Interp F V S) : Prop where
  one : J.one = I.one
  form {site : Site} {form : LinearForm F} {values : Array V} {s : S} : L.form form values s →
    J.form site form values s = I.form site form values s
  product {a b : V} {s : S} : L.product a b s → J.product a b s = I.product a b s
  hint {name : String} {inputs : List (LinearForm F)} {count : Nat} {values : Array V} {s : S} :
    L.hint inputs values s → J.hint name inputs count values s = I.hint name inputs count values s
  constrain {site : Site} {form : LinearForm F} {values : Array V} {s : S} : L.constrain form values s →
    J.constrain site form values s = I.constrain site form values s

/-- Everything that is looked up in the run of a circuit is there. -/
def Interp.InRange (I : Interp F V S) (L : Lookups F V S) (D : Design F) (id : CircuitId) (args : List V) (s : S) :
    Prop :=
  ∀ J, L.Agree I J → ∀ depth, D.size ≤ depth → J.run D depth id args s = I.run D depth id args s

/-- Instructions are run one after the other. -/
theorem Interp.execute_cons (I : Interp F V S) (D : Design F) (run : CircuitId → List V → S → Except Error (Run V S))
    (circuit : CircuitId) (i : Nat) (instruction : Instruction F) (rest : List (Instruction F)) (values : Array V)
    (calls : Array (CallTree V)) (s : S) :
    I.execute D run circuit i (instruction :: rest) values calls s =
      (I.execute D run circuit i [instruction] values calls s >>= fun reached =>
        I.execute D run circuit (i + 1) rest reached.1 reached.2.1 reached.2.2) := by
  cases instruction with
  | linear form out => simp only [execute, bind_assoc, ok_bind]
  | product lhs rhs out => simp only [execute, bind_assoc, ok_bind]
  | hint name inputs outs => simp only [execute, bind_assoc, ok_bind]
  | call callee inputs outs =>
    simp only [execute, bind_assoc]
    refine bind_congr fun args => bind_congr fun c => ?_
    split
    · simp only [bind_assoc, ok_bind]
    · rfl

namespace Reading

/-- In the states that occur, on values that stand for field elements, everything is there that an
    operation looks up. -/
structure Finds {I : Interp F V S} {rule : HintRule F} (M : Reading I rule) (L : Lookups F V S) : Prop where
  form {form : LinearForm F} {values : Array V} {xs : List (Scalar F)} {s : S} : M.good s →
    List.Forall₂ (M.means s) values.toList xs → form.Readable (machineWord values.size) → L.form form values s
  product {a b : V} {x y : Scalar F} {s : S} : M.good s → M.means s a x → M.means s b y → L.product a b s
  hint {inputs : List (LinearForm F)} {values : Array V} {xs : List (Scalar F)} {s : S} : M.good s →
    List.Forall₂ (M.means s) values.toList xs → (∀ form ∈ inputs, form.Readable (machineWord values.size)) → L.hint inputs values s
  constrain {form : LinearForm F} {values : Array V} {xs : List (Scalar F)} {s : S} : M.good s →
    List.Forall₂ (M.means s) values.toList xs → form.Readable (machineWord values.size) → L.constrain form values s

variable {I J : Interp F V S} {rule : HintRule F} {M : Reading I rule} {L : Lookups F V S}

section
variable (finds : M.Finds L) (agree : L.Agree I J) {values : Array V} {xs : List (Scalar F)} {s : S} (good : M.good s)
  (mean : List.Forall₂ (M.means s) values.toList xs)
include finds agree good mean

theorem Finds.read_eq (site : Site) {form : LinearForm F} (readable : form.Readable (machineWord values.size)) :
    J.read site form values s = I.read site form values s := by
  rw [Interp.read, Interp.read, agree.form (finds.form good mean readable)]

theorem Finds.readAll_eq (site : Nat → Site) (i : Nat) {forms : List (LinearForm F)}
    (readable : ∀ form ∈ forms, form.Readable (machineWord values.size)) :
    J.readAll site values i forms s = I.readAll site values i forms s := by
  induction forms generalizing i s with
  | nil => rfl
  | cons form rest ih =>
    obtain ⟨first, later⟩ := List.forall_mem_cons.mp readable
    obtain ⟨v, t, reading, step, -⟩ := read_spec (site i) good mean first
    rw [Interp.readAll, Interp.readAll, finds.read_eq agree good mean (site i) first, reading, ok_bind, ok_bind]
    dsimp only
    rw [ih (M.good_of_step step) (forall₂_mono step mean) (i + 1) later]

theorem Finds.readFactors_eq (site : Site) {lhs rhs : LinearForm F} (left : lhs.Readable (machineWord values.size))
    (right : rhs.Readable (machineWord values.size)) :
    J.readFactors site lhs rhs values s = I.readFactors site lhs rhs values s := by
  obtain ⟨a, t, reading, step, -⟩ := read_spec site good mean left
  rw [Interp.readFactors, Interp.readFactors, finds.read_eq agree good mean site left, reading, ok_bind, ok_bind]
  dsimp only
  rw [finds.read_eq agree (M.good_of_step step) (forall₂_mono step mean) site right]

theorem Finds.constrainAll_eq (circuit : CircuitId) (i : Nat) {forms : List (LinearForm F)}
    (readable : ∀ form ∈ forms, form.Readable (machineWord values.size)) :
    J.constrainAll circuit values i forms s = I.constrainAll circuit values i forms s := by
  induction forms generalizing i s with
  | nil => rfl
  | cons form rest ih =>
    obtain ⟨first, later⟩ := List.forall_mem_cons.mp readable
    obtain ⟨t, constraining, step⟩ := M.constrain ⟨circuit, .constraint i⟩ form good mean
    rw [Interp.constrainAll, Interp.constrainAll, agree.constrain (finds.constrain good mean first), constraining,
      ok_bind, ok_bind, ih (M.good_of_step step) (forall₂_mono step mean) (i + 1) later]

end

/-- Running the circuit of an id one way or another is the same on values that stand for field elements. -/
def Alike (M : Reading I rule) (D : Design F) (run other : CircuitId → List V → S → Except Error (Run V S))
    (id : CircuitId) : Prop :=
  ∀ {c args ys s}, D.get? id = some c → M.good s → List.Forall₂ (M.means s) args ys → c.numInputs = ys.length →
    other id args s = run id args s

section
variable (finds : M.Finds L) (agree : L.Agree I J) {D : Design F}
  {run other : CircuitId → List V → S → Except Error (Run V S)}
include finds agree

/-- Running one instruction of a checked design stays in range, if running its callee does. -/
theorem Finds.execute_one_eq {instruction : Instruction F}
    (alike : ∀ callee, instruction.callee? = some callee → M.Alike D run other callee) {values : Array V}
    (sequenced : Sequenced D values.size [instruction]) {s : S} (good : M.good s) {xs : List (Scalar F)}
    (mean : List.Forall₂ (M.means s) values.toList xs) (circuit : CircuitId) (i : Nat) (calls : Array (CallTree V)) :
    J.execute D other circuit i [instruction] values calls s =
      I.execute D run circuit i [instruction] values calls s := by
  obtain ⟨readable, fits, -, -⟩ := sequenced
  cases instruction with
  | linear form out =>
    simp only [Interp.execute, finds.read_eq agree good mean _ (readable form (List.mem_singleton_self _))]
  | product lhs rhs out =>
    have left : lhs.Readable (machineWord values.size) := readable lhs (by simp [Instruction.inputs])
    have right : rhs.Readable (machineWord values.size) := readable rhs (by simp [Instruction.inputs])
    obtain ⟨a, b, t, reading, step, meansA, meansB⟩ := readFactors_spec ⟨circuit, .instruction i⟩ good mean left right
    simp only [Interp.execute, finds.readFactors_eq agree good mean _ left right, reading, ok_bind,
      agree.product (finds.product (M.good_of_step step) meansA meansB)]
  | hint name inputs outs =>
    have readable : ∀ form ∈ inputs, form.Readable (machineWord values.size) := readable
    simp only [Interp.execute, agree.hint (finds.hint good mean readable)]
  | call callee inputs outs =>
    have readable : ∀ form ∈ inputs, form.Readable (machineWord values.size) := readable
    obtain ⟨c, found, numInputs, numOutputs⟩ := fits
    obtain ⟨args, t, reading, step, argValues⟩ :=
      readAll_spec (i := 0) (fun _ => ⟨circuit, .instruction i⟩) good mean readable
    have arity : c.numInputs = (inputs.map (·.on xs)).length := by rw [List.length_map, numInputs]
    simp only [Interp.execute, finds.readAll_eq agree good mean _ 0 readable, reading, ok_bind,
      alike callee rfl found (M.good_of_step step) argValues arity]

/-- Running instructions of a checked design stays in range, if running callees does. -/
theorem Finds.execute_eq {instructions : List (Instruction F)} (callees : Design.CallsIn (M.Runs D run) instructions)
    (alike : Design.CallsIn (M.Alike D run other) instructions)
    (known : ∀ instruction ∈ instructions, ∀ name, instruction.hintName? = some name → M.known name)
    {values : Array V} (sequenced : Sequenced D values.size instructions) {s : S} (good : M.good s)
    {xs : List (Scalar F)} (mean : List.Forall₂ (M.means s) values.toList xs) (circuit : CircuitId) (i : Nat)
    (calls : Array (CallTree V)) :
    J.execute D other circuit i instructions values calls s = I.execute D run circuit i instructions values calls s := by
  induction instructions generalizing i values xs s calls with
  | nil => rfl
  | cons instruction rest ih =>
    obtain ⟨runsCallee, laterCallees⟩ := List.forall_mem_cons.mp callees
    obtain ⟨alikeCallee, laterAlike⟩ := List.forall_mem_cons.mp alike
    obtain ⟨knownFirst, laterKnown⟩ := List.forall_mem_cons.mp known
    obtain ⟨readable, fits, next, laterSequenced⟩ := sequenced
    have alone : Sequenced D values.size [instruction] := ⟨readable, fits, next, trivial⟩
    -- What one instruction leads to under the first interpretation is again a place to go on from.
    have proceeds : M.Proceeds D [instruction] xs s calls (I.execute D run circuit i [instruction] values calls s) :=
      execute_proceeds (List.forall_mem_singleton.mpr runsCallee) (List.forall_mem_singleton.mpr knownFirst) alone good
        mean
    rw [J.execute_cons, I.execute_cons, finds.execute_one_eq agree alikeCallee alone good mean circuit i calls]
    rcases proceeds with ⟨values', trees, t, hints, final, instances, done, trace, step, mean', -⟩ | ⟨e, failed, -, -⟩
    · rw [done, ok_bind, ok_bind]
      refine ih laterCallees laterAlike laterKnown ?_ (M.good_of_step step) mean' (i + 1) (calls ++ trees)
      rw [size_eq_length mean', trace.length_eq, ← size_eq_length mean]
      simpa using laterSequenced
    · rw [failed, error_bind, error_bind]

/-- Running one circuit of a checked design stays in range, if running callees does. -/
theorem Finds.runCircuit_eq {id : CircuitId} {c : Circuit F} (wellFormed : c.WellFormed D)
    (callees : Design.CallsIn (M.Runs D run) c.instructions) (alike : Design.CallsIn (M.Alike D run other) c.instructions)
    (known : ∀ instruction ∈ c.instructions, ∀ name, instruction.hintName? = some name → M.known name)
    {args : List V} {ys : List (Scalar F)} {s : S} (good : M.good s) (mean : List.Forall₂ (M.means s) args ys)
    (arity : c.numInputs = ys.length) :
    J.runCircuit D other id c args s = I.runCircuit D run id c args s := by
  have start := forall₂_start good mean
  have sequenced := sequenced_start wellFormed mean arity
  rw [Interp.runCircuit, Interp.runCircuit, agree.one,
    finds.execute_eq agree callees alike known sequenced good start id 0 #[]]
  have executed : M.Proceeds D c.instructions (1 :: ys) s #[]
      (I.execute D run id 0 c.instructions (#[I.one] ++ args) #[] s) :=
    execute_proceeds callees known sequenced good start
  rcases executed with ⟨values, trees, t, hints, final, instances, done, trace, step, mean', -⟩ | ⟨e, failed, -, -⟩
  · have readable : values.size = c.wireCount := by
      rw [size_eq_length mean', trace.length_eq_wireCount arity]
    obtain ⟨u, constraining, constrained⟩ := constrainAll_spec id (i := 0) (M.good_of_step step) mean'
      (fun form member => readable ▸ wellFormed.constraints form member)
    rw [done, ok_bind, ok_bind]
    dsimp only
    rw [finds.constrainAll_eq agree (M.good_of_step step) mean' id 0
        (fun form member => readable ▸ wellFormed.constraints form member), constraining, ok_bind, ok_bind,
      finds.readAll_eq agree (M.good_of_step constrained) (forall₂_mono constrained mean') _ 0
        (fun form member => readable ▸ wellFormed.outputs form member)]
  · rw [failed, error_bind, error_bind]

end

/-- Running a checked design stays in range. -/
theorem Finds.inRange (finds : M.Finds L) {D : Design F} (valid : D.Valid)
    (known : ∀ {id c}, D.get? id = some c → ∀ instruction ∈ c.instructions, ∀ name,
      instruction.hintName? = some name → M.known name)
    {id : CircuitId} {c : Circuit F} {args : List V} {ys : List (Scalar F)} {s : S} (found : D.get? id = some c)
    (good : M.good s) (mean : List.Forall₂ (M.means s) args ys) (arity : c.numInputs = ys.length) :
    I.InRange L D id args s := by
  intro J agree depth deep
  -- Callees are compared with runs that nest as deep as there are circuits: these need no more depth.
  have alike : M.Alike D (I.run D D.size) (J.run D depth) id := by
    refine valid.depth_induction (P := fun depth id => M.Alike D (I.run D D.size) (J.run D depth) id) ?_ deep id
    intro depth id callees c args ys s found good mean arity
    rw [← I.run_succ valid le_rfl, Interp.run, Interp.run, mapError_eq_ok.mpr (Design.circuit_eq_ok_iff.mpr found)]
    exact finds.runCircuit_eq agree (valid.wellFormed found)
      (fun _ _ callee _ => run_follows M valid known le_rfl callee) (callees found) (known found) good mean arity
  rw [I.run_eq_of_depth valid deep]
  exact alike found good mean arity

end Reading
end ArithCircuit
