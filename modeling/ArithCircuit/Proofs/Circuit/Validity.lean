import Mathlib.Data.List.Perm.Subperm
import ArithCircuit.Circuit.Validity
import ArithCircuit.Proofs.Basic
import ArithCircuit.Proofs.LinearForm

/-!
What a checked design keeps. Every form is canonical and reads wires that are defined before it,
outputs are the next wires, calls fit their callees, and the circuits can be listed so that each one
calls only circuits that come later in the list. Wires are counted in machine words, so that the next
wires are numbered from zero again once there are as many as a word can count.
-/
namespace ArithCircuit
variable {F : ScalarField}

theorem machineWord_le (n : Nat) : machineWord n ≤ n := Nat.mod_le ..

theorem machineWord_of_lt {n : Nat} (small : n < 2 ^ 64) : machineWord n = n := Nat.mod_eq_of_lt small

/-- The next wires once `defined` wires are defined. -/
def nextWires (defined count : Nat) : List Wire := (List.range' defined count).map machineWord

@[simp] theorem length_nextWires (defined count : Nat) : (nextWires defined count).length = count := by
  rw [nextWires, List.length_map, List.length_range']

@[simp] theorem nextWires_one (defined : Nat) : nextWires defined 1 = [machineWord defined] := rfl

theorem nextWires_succ (defined count : Nat) :
    nextWires defined (count + 1) = machineWord defined :: nextWires (defined + 1) count := rfl

theorem nextWires_add (defined first second : Nat) :
    nextWires defined (first + second) = nextWires defined first ++ nextWires (defined + first) second := by
  rw [nextWires, nextWires, nextWires, ← List.map_append, List.range'_append_1]

/-- As long as a machine word can count them, the wires are numbered in order. -/
theorem nextWires_eq_range' {defined count : Nat} (small : defined + count ≤ 2 ^ 64) :
    nextWires defined count = List.range' defined count := by
  refine (List.map_congr_left fun n member => ?_).trans (List.map_id _)
  exact machineWord_of_lt ((List.mem_range'_1.mp member).2.trans_le small)

/-- A form that can be read once `defined` wires have values. -/
def LinearForm.Readable (defined : Nat) (form : LinearForm F) : Prop :=
  form.isCanonical = true ∧ form.undefined? defined = none

theorem LinearForm.Readable.reads {defined : Nat} {form : LinearForm F} (readable : form.Readable defined) :
    form.Reads defined :=
  reads_of_undefined? readable.1 readable.2

theorem LinearForm.Readable.reads_of_word {defined : Nat} {form : LinearForm F}
    (readable : form.Readable (machineWord defined)) : form.Reads defined :=
  reads_mono (machineWord_le defined) readable.reads

/-- A call fits the circuit it names. -/
def Instruction.Fits (D : Design F) : Instruction F → Prop
  | .call callee inputs outputs =>
    ∃ c, D.get? callee = some c ∧ c.numInputs = inputs.length ∧ c.outputs.length = outputs.length
  | _ => True

/-- Instructions that read defined wires and define the wires that follow. -/
def Sequenced (D : Design F) : Nat → List (Instruction F) → Prop
  | _, [] => True
  | defined, instruction :: rest =>
    (∀ form ∈ instruction.inputs, form.Readable (machineWord defined)) ∧ instruction.Fits D ∧
      instruction.outputs = nextWires defined instruction.outputs.length ∧
      Sequenced D (defined + instruction.outputs.length) rest

/-- The wires that the instructions of a checked circuit define, taken together. -/
theorem Sequenced.outputs_eq {D : Design F} {n : Nat} {instructions : List (Instruction F)}
    (sequenced : Sequenced D n instructions) :
    instructions.flatMap (·.outputs) = nextWires n (instructions.flatMap (·.outputs)).length := by
  induction instructions generalizing n with
  | nil => rfl
  | cons i rest ih =>
    obtain ⟨-, -, outputs, later⟩ := sequenced
    rw [List.flatMap_cons, List.length_append, nextWires_add, ← outputs, ← ih later]

/-- The rules of one circuit. -/
structure Circuit.WellFormed (D : Design F) (c : Circuit F) : Prop where
  numPublic : c.numPublic ≤ c.numInputs
  instructions : Sequenced D (1 + c.numInputs) c.instructions
  constraints : ∀ form ∈ c.constraints, form.Readable (machineWord c.wireCount)
  outputs : ∀ form ∈ c.outputs, form.Readable (machineWord c.wireCount)

namespace Circuit

/-- Wire numbers have four bytes. -/
def Numbered (c : Circuit F) : Prop := ∀ out ∈ c.instructions.flatMap (·.outputs), out < 2 ^ 32

instance (c : Circuit F) : Decidable c.Numbered :=
  inferInstanceAs (Decidable (∀ out ∈ c.instructions.flatMap (·.outputs), out < 2 ^ 32))

theorem wireCount_eq (c : Circuit F) : c.wireCount = c.numInputs + 1 + (c.instructions.flatMap (·.outputs)).length := by
  have lengths (instructions : List (Instruction F)) :
      (instructions.flatMap (·.outputs)).length = sumOver (·.outputs.length) instructions := by
    induction instructions with
    | nil => rfl
    | cons i rest ih => rw [List.flatMap_cons, List.length_append, ih, sumOver_cons]
  rw [wireCount, Nat.add_comm 1, lengths]

theorem checkForm_eq_ok_iff {id : CircuitId} {location : Location} {defined : Nat} {form : LinearForm F} :
    checkForm id location defined form = .ok () ↔ form.Readable (machineWord defined) := by
  rw [checkForm, LinearForm.Readable]
  by_cases canonical : form.isCanonical = true
  · cases undefined : form.undefined? (machineWord defined) with
    | none => simp [canonical]
    | some w => simp [canonical]
  · simp [canonical]

theorem checkForms_eq_ok_iff {id : CircuitId} {location : Nat → Location} {defined i : Nat}
    {forms : List (LinearForm F)} :
    checkForms id location defined i forms = .ok () ↔ ∀ form ∈ forms, form.Readable (machineWord defined) := by
  induction forms generalizing i with
  | nil => simp [checkForms]
  | cons form rest ih =>
    rw [checkForms, bind_eq_ok, List.forall_mem_cons, ← checkForm_eq_ok_iff]
    constructor
    · rintro ⟨_, first, later⟩
      exact ⟨first, ih.mp later⟩
    · rintro ⟨first, later⟩
      exact ⟨(), first, ih.mpr later⟩

theorem checkSequence_eq_ok_iff {id : CircuitId} {location : Location} {next last : Nat} {outs : List Wire} :
    checkSequence id location next outs = .ok last ↔
      outs = nextWires next outs.length ∧ last = next + outs.length := by
  induction outs generalizing next with
  | nil => simp [checkSequence, nextWires, eq_comm]
  | cons out rest ih =>
    rw [checkSequence, List.length_cons, nextWires_succ, List.cons.injEq]
    by_cases same : out = machineWord next
    · rw [if_pos same, ih]
      simp [same, Nat.add_assoc, Nat.add_comm 1]
    · simp [same]

theorem fits_of_checkCall {D : Design F} {id : CircuitId} {location : Location} {instruction : Instruction F}
    (checked : checkCall D id location instruction = .ok ()) : instruction.Fits D := by
  cases instruction with
  | linear => trivial
  | product => trivial
  | hint => trivial
  | call callee inputs outputs =>
    simp only [checkCall] at checked
    split at checked
    · cases checked
    · split at checked
      · cases checked
      · rename_i c found
        split at checked
        · rename_i fits
          exact ⟨c, found, fits⟩
        · cases checked

theorem sequenced_of_checkInstructions {D : Design F} {id : CircuitId} {i defined last : Nat}
    {instructions : List (Instruction F)} (checked : checkInstructions D id i defined instructions = .ok last) :
    Sequenced D defined instructions ∧ last = defined + sumOver (·.outputs.length) instructions := by
  induction instructions generalizing i defined with
  | nil => exact ⟨trivial, by simpa [checkInstructions, eq_comm] using checked⟩
  | cons instruction rest ih =>
    simp only [checkInstructions, bind_eq_ok] at checked
    obtain ⟨_, forms, _, call, next, outputs, later⟩ := checked
    obtain ⟨sequence, rfl⟩ := checkSequence_eq_ok_iff.mp outputs
    obtain ⟨restSequenced, total⟩ := ih later
    refine ⟨⟨checkForms_eq_ok_iff.mp forms, fits_of_checkCall call, sequence, restSequenced⟩, ?_⟩
    rw [total, sumOver_cons, Nat.add_assoc]

theorem wellFormed_of_check {D : Design F} {id : CircuitId} {c : Circuit F}
    (checked : c.check D id = .ok ()) : c.WellFormed D := by
  rw [check] at checked
  split at checked
  · cases checked
  · rename_i publicBound
    simp only [bind_eq_ok] at checked
    obtain ⟨last, instructions, _, constraints, outputs⟩ := checked
    obtain ⟨sequenced, rfl⟩ := sequenced_of_checkInstructions instructions
    exact ⟨Nat.not_lt.mp publicBound, sequenced, checkForms_eq_ok_iff.mp constraints,
      checkForms_eq_ok_iff.mp outputs⟩

end Circuit

namespace Design

/-- The circuits that an instruction list calls all satisfy a test. -/
def CallsIn (known : CircuitId → Prop) (instructions : List (Instruction F)) : Prop :=
  ∀ instruction ∈ instructions, ∀ callee, instruction.callee? = some callee → known callee

/-- Each circuit of the list calls only circuits that come later in the list. -/
def CallOrder (D : Design F) : List CircuitId → Prop
  | [] => True
  | id :: rest =>
    (∀ c, D.get? id = some c → CallsIn (· ∈ rest) c.instructions) ∧ CallOrder D rest

/-- What a walk of the calls has finished: circuits of the design, each once, callees first. -/
private structure Finished (D : Design F) (finished : List CircuitId) : Prop where
  order : CallOrder D finished
  distinct : finished.Nodup
  known : ∀ id ∈ finished, id ∈ D.circuits.keys

/-- A walk from `finished` to `result` that keeps away from `path`. -/
private structure Walked (D : Design F) (path finished result : List CircuitId) : Prop where
  done : Finished D result
  keeps : ∀ id ∈ finished, id ∈ result
  avoids : ∀ id ∈ result, id ∈ finished ∨ id ∉ path

theorem circuit_eq_ok_iff {D : Design F} {id : CircuitId} {c : Circuit F} :
    D.circuit id = .ok c ↔ D.get? id = some c := by
  rw [circuit]
  cases D.get? id with
  | none => simp
  | some c => simp

theorem mem_values_of_get? {D : Design F} {id : CircuitId} {c : Circuit F} (found : D.get? id = some c) :
    c ∈ D.circuits.values :=
  List.mem_map.mpr ⟨(id, c), Table.get?_eq_some_iff.mp found, rfl⟩

theorem length_le_size {D : Design F} {ids : List CircuitId} (distinct : ids.Nodup)
    (known : ∀ id ∈ ids, id ∈ D.circuits.keys) : ids.length ≤ D.size := by
  have bound := (distinct.subperm known).length_le
  rwa [Table.keys, List.length_map] at bound

private theorem followCalls_walked {D : Design F}
    {visit : CircuitId → List CircuitId → Except Fault (List CircuitId)} {id : CircuitId} {path : List CircuitId}
    (visited : ∀ callee finished result, callee ∉ path → Finished D finished →
      visit callee finished = .ok result → Walked D path finished result ∧ callee ∈ result)
    {i : Nat} {instructions : List (Instruction F)} {finished result : List CircuitId}
    (before : Finished D finished) (followed : followCalls visit id path i instructions finished = .ok result) :
    Walked D path finished result ∧ CallsIn (· ∈ result) instructions := by
  induction instructions generalizing i finished with
  | nil =>
    cases followed
    exact ⟨⟨before, fun _ member => member, fun _ member => .inl member⟩, fun _ member => by cases member⟩
  | cons instruction rest ih =>
    rw [followCalls] at followed
    split at followed
    · rename_i noCall
      obtain ⟨walked, calls⟩ := ih before followed
      refine ⟨walked, List.forall_mem_cons.mpr ⟨?_, calls⟩⟩
      intro callee calling
      cases noCall.symm.trans calling
    · rename_i callee calling
      split at followed
      · cases followed
      · rename_i offPath
        obtain ⟨middle, visiting, later⟩ := bind_eq_ok.mp followed
        obtain ⟨first, found⟩ := visited callee finished middle offPath before visiting
        obtain ⟨walked, calls⟩ := ih first.done later
        refine ⟨⟨walked.done, fun x member => walked.keeps x (first.keeps x member), ?_⟩,
          List.forall_mem_cons.mpr ⟨?_, calls⟩⟩
        · intro x member
          rcases walked.avoids x member with earlier | off
          · exact first.avoids x earlier
          · exact .inr off
        · intro other calling'
          cases calling.symm.trans calling'
          exact walked.keeps callee found

/-- The path names distinct circuits of the design, so its length bounds the depth that is used. -/
private theorem explore_walked {D : Design F} {depth : Nat} {path : List CircuitId} {id : CircuitId}
    {finished result : List CircuitId} (distinct : path.Nodup) (known : ∀ x ∈ path, x ∈ D.circuits.keys)
    (deep : D.size + 1 ≤ depth + path.length) (offPath : id ∉ path) (before : Finished D finished)
    (explored : D.explore depth path id finished = .ok result) :
    Walked D path finished result ∧ id ∈ result := by
  induction depth generalizing path id finished result with
  | zero =>
    have short := length_le_size distinct known
    omega
  | succ depth ih =>
    rw [explore] at explored
    split at explored
    · rename_i already
      cases explored
      exact ⟨⟨before, fun _ member => member, fun _ member => .inl member⟩, already⟩
    · rename_i fresh
      obtain ⟨c, found, explored⟩ := bind_eq_ok.mp explored
      obtain ⟨inner, followed, ended⟩ := bind_eq_ok.mp explored
      cases ended
      have present : id ∈ D.circuits.keys := Table.mem_keys_iff.mpr ⟨c, circuit_eq_ok_iff.mp found⟩
      have visited (callee : CircuitId) (earlier later : List CircuitId) (off : callee ∉ id :: path)
          (done : Finished D earlier) (visiting : D.explore depth (id :: path) callee earlier = .ok later) :
          Walked D (id :: path) earlier later ∧ callee ∈ later :=
        ih (List.nodup_cons.mpr ⟨offPath, distinct⟩) (List.forall_mem_cons.mpr ⟨present, known⟩)
          (by simp only [List.length_cons]; omega) off done visiting
      obtain ⟨walked, calls⟩ := followCalls_walked visited before followed
      have idFresh : id ∉ inner := by
        intro member
        rcases walked.avoids id member with early | off
        · exact fresh early
        · exact off (List.mem_cons_self ..)
      refine ⟨⟨⟨⟨?_, walked.done.order⟩, List.nodup_cons.mpr ⟨idFresh, walked.done.distinct⟩,
        List.forall_mem_cons.mpr ⟨present, walked.done.known⟩⟩, ?_, ?_⟩, List.mem_cons_self ..⟩
      · intro c' found'
        cases (circuit_eq_ok_iff.mp found).symm.trans found'
        exact calls
      · exact fun x member => List.mem_cons_of_mem _ (walked.keeps x member)
      · intro x member
        rcases List.mem_cons.mp member with rfl | inside
        · exact .inr offPath
        · rcases walked.avoids x inside with early | off
          · exact .inl early
          · exact .inr fun onPath => off (List.mem_cons_of_mem _ onPath)

private theorem exploreAll_finished {D : Design F} {ids finished result : List CircuitId}
    (before : Finished D finished) (explored : D.exploreAll ids finished = .ok result) :
    Finished D result ∧ (∀ id ∈ finished, id ∈ result) ∧ ∀ id ∈ ids, id ∈ result := by
  induction ids generalizing finished with
  | nil =>
    cases explored
    exact ⟨before, fun _ member => member, fun _ member => by cases member⟩
  | cons id rest ih =>
    obtain ⟨middle, first, later⟩ := bind_eq_ok.mp explored
    obtain ⟨walked, found⟩ := explore_walked .nil (fun _ member => by cases member) (by simp)
      List.not_mem_nil before first
    obtain ⟨done, keeps, all⟩ := ih walked.done later
    exact ⟨done, fun x member => keeps x (walked.keeps x member), List.forall_mem_cons.mpr ⟨keeps id found, all⟩⟩

/-- The rules of a design. -/
structure Valid (D : Design F) : Prop where
  entry : ∃ c, D.get? .entry = some c
  wellFormed : ∀ {id c}, D.get? id = some c → c.WellFormed D
  /-- Calls nest no deeper than there are circuits. -/
  order : ∃ order, CallOrder D order ∧ order.length ≤ D.size ∧ ∀ {id c}, D.get? id = some c → id ∈ order

/-- A machine word can count the wires of each circuit. -/
def Addressable (D : Design F) : Prop := ∀ {id c}, D.get? id = some c → c.wireCount < 2 ^ 64

/-- Induction along calls, together with a bound on how deep they nest: what holds of a circuit once it
    holds of the circuits it calls at one depth less holds of every circuit, if the bound allows as many
    nested calls as there are circuits. -/
theorem Valid.depth_induction {D : Design F} (valid : D.Valid) {P : Nat → CircuitId → Prop}
    (step : ∀ {depth id}, (∀ {c}, D.get? id = some c → CallsIn (P depth) c.instructions) → P (depth + 1) id)
    {depth : Nat} (deep : D.size ≤ depth) (id : CircuitId) : P depth id := by
  have ordered (order : List CircuitId) (calls : D.CallOrder order) :
      ∀ depth, order.length ≤ depth → ∀ id ∈ order, P depth id := by
    induction order with
    | nil => simp
    | cons first rest ih =>
      intro depth long
      obtain ⟨callees, calls⟩ := calls
      obtain ⟨depth, rfl⟩ : ∃ less, depth = less + 1 := ⟨depth - 1, by simp only [List.length_cons] at long; omega⟩
      have shorter : rest.length ≤ depth := by simpa using long
      refine List.forall_mem_cons.mpr ⟨step ?_, ih calls (depth + 1) (Nat.le_succ_of_le shorter)⟩
      intro c found instruction member callee calling
      exact ih calls depth shorter callee (callees c found instruction member callee calling)
  obtain ⟨order, calls, short, all⟩ := valid.order
  by_cases listed : id ∈ order
  · exact ordered order calls depth (short.trans deep) id listed
  · -- A circuit that is not listed is not there, and the entry makes the bound positive.
    obtain ⟨entry, found⟩ := valid.entry
    have some : 0 < order.length := List.length_pos_of_mem (all found)
    obtain ⟨depth, rfl⟩ : ∃ less, depth = less + 1 := ⟨depth - 1, by omega⟩
    exact step fun found => absurd (all found) listed

private theorem check_of_checkCircuits {D : Design F} {entries : List (CircuitId × Circuit F)}
    (checked : D.checkCircuits entries = .ok ()) : ∀ e ∈ entries, e.2.check D e.1 = .ok () := by
  induction entries with
  | nil => simp
  | cons e rest ih =>
    obtain ⟨_, first, later⟩ := bind_eq_ok.mp checked
    exact List.forall_mem_cons.mpr ⟨first, ih later⟩

/-- A design that passes its check keeps the rules. -/
theorem valid_of_validate {D : Design F} (checked : D.validate = .ok ()) : D.Valid := by
  simp only [validate, bind_eq_ok] at checked
  obtain ⟨c, entry, _, circuits, order, explored, _⟩ := checked
  have none : Finished D [] := ⟨by trivial, .nil, fun _ member => by cases member⟩
  obtain ⟨done, _, all⟩ := exploreAll_finished none explored
  refine ⟨⟨c, circuit_eq_ok_iff.mp entry⟩, ?_, order, done.order, length_le_size done.distinct done.known, ?_⟩
  · intro id c found
    exact Circuit.wellFormed_of_check (check_of_checkCircuits circuits (id, c) (Table.get?_eq_some_iff.mp found))
  · intro id c found
    exact all id (Table.mem_keys_iff.mpr ⟨c, found⟩)

end Design
end ArithCircuit
