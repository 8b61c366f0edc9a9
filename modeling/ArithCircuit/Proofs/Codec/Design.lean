import ArithCircuit.Codec.Design
import ArithCircuit.Proofs.Circuit.Validity
import ArithCircuit.Proofs.Codec.Header
import ArithCircuit.Proofs.Witness.Solver

/-!
Stored designs. Each part of a design is told by its bytes, hint names by their positions in the sorted
table of the names that the design uses, so a design that keeps the rules is read back as it was.
-/
namespace ArithCircuit
variable {F : ScalarField}

namespace Table

/-- An entry of a larger key goes to the end. -/
theorem insertEntry_above {κ α : Type} [LT κ] [DecidableLT κ] [LE κ] [Std.IsLinearOrder κ] [Std.LawfulOrderLT κ]
    {entries : List (κ × α)} {key : κ} {value : α} (above : ∀ e ∈ entries, e.1 < key) :
    insertEntry key value entries = entries ++ [(key, value)] := by
  induction entries with
  | nil => rfl
  | cons first rest ih =>
    obtain ⟨below, later⟩ := List.forall_mem_cons.mp above
    rw [insertEntry, if_neg (Std.not_gt_of_lt below), if_pos below, ih later, List.cons_append]

end Table

theorem Instruction.Kind.ofTag?_eq_some_iff {n : Nat} {kind : Instruction.Kind} : ofTag? n = some kind ↔ n = kind.tag := by
  constructor
  · intro found
    have same := List.find?_some found
    exact (beq_iff_eq.mp same).symm
  · rintro rfl
    cases kind <;> rfl

namespace Codec

theorem increasing_iff {names : List String} : increasing names = true ↔ names.Pairwise (· < ·) := by
  rw [← List.isChain_iff_pairwise]
  induction names with
  | nil => simp [increasing]
  | cons a rest ih =>
    cases rest with
    | nil => simp [increasing]
    | cons b rest => rw [increasing, Bool.and_eq_true, decide_eq_true_iff, ih, List.isChain_cons_cons]

/-- An instruction of canonical forms whose hint is named in a table. -/
def InstructionFits (names : List String) (i : Instruction F) : Prop :=
  (∀ e ∈ i.inputs, e.isCanonical = true) ∧ ∀ name, i.hintName? = some name → name ∈ names

/-- A circuit of canonical forms whose hints are named in a table. -/
def CircuitFits (names : List String) (c : Circuit F) : Prop :=
  (∀ i ∈ c.instructions, InstructionFits names i) ∧ (∀ e ∈ c.constraints, e.isCanonical = true) ∧
    ∀ e ∈ c.outputs, e.isCanonical = true

theorem term_lawful : (term (F := F)).Lawful fun _ => True := by
  have made : term (F := F) = wire.part Term.wire fun w =>
      scalar.refine Term.coef (fun coef => some ⟨coef, w⟩) fun _ => .bufferFull := rfl
  rw [made]
  refine ((number_lawful 4).part (fun w => scalar_lawful.refine fun found => ?_) fun valid => ?_).congr fun t => ?_
  · exact (congrArg Term.coef (Option.some.inj found)).symm
  · exact (congrArg Term.wire (Option.some.inj valid.2)).symm
  · simp

theorem form_lawful : (form (F := F)).Lawful fun e => e.isCanonical = true := by
  have made : form (F := F) = (list term).refine LinearForm.terms LinearForm.ofCanonical? fun _ => .nonCanonicalForm := by
    simp only [form, refine]
    congr 2
    funext terms
    cases LinearForm.ofCanonical? terms <;> rfl
  rw [made]
  have canonical {terms : List (Term F)} {e : LinearForm F} :
      LinearForm.ofCanonical? terms = some e ↔ LinearForm.canonicalTerms terms = true ∧ e.terms = terms := by
    rw [LinearForm.ofCanonical?, Option.ite_none_right_eq_some, Option.some.injEq]
    exact and_congr_right fun _ => ⟨fun same => congrArg LinearForm.terms same.symm, fun same => congrArg LinearForm.mk same.symm⟩
  refine ((list_lawful term_lawful).refine fun found => (canonical.mp found).2).congr fun e => ?_
  simp [canonical, LinearForm.isCanonical]

theorem hintTable_lawful : hintTable.Lawful fun names => names.Pairwise (· < ·) := by
  have made : hintTable = (list text).refine id (fun names => if increasing names then some names else none)
      fun _ => .badPart .hintTable := by
    simp only [hintTable, refine]
    congr 2
    funext names
    by_cases sorted : increasing names = true
    · rw [if_pos sorted, if_pos sorted]
      rfl
    · rw [if_neg sorted, if_neg sorted]
      rfl
  rw [made]
  refine ((list_lawful text_lawful).refine fun found => ?_).congr fun names => ?_
  · rw [Option.ite_none_right_eq_some] at found
    exact (Option.some.inj found.2).symm
  · simp [increasing_iff]

/-- In a table without repetitions, the position of a name is the position where it stands. -/
theorem idxOf?_eq_some_iff_getElem? {names : List String} (distinct : names.Nodup) {name : String} {i : Nat} :
    names.idxOf? name = some i ↔ names[i]? = some name := by
  rw [List.idxOf?_eq_some_iff, List.getElem?_eq_some_iff]
  constructor
  · rintro ⟨inside, same, -⟩
    exact ⟨inside, same⟩
  · rintro ⟨inside, rfl⟩
    exact ⟨inside, rfl, fun j before same => before.ne (distinct.getElem_inj_iff.mp same)⟩

theorem hintName_lawful {names : List String} (distinct : names.Nodup) :
    (hintName names).Lawful fun name => name ∈ names where
  plain name := by
    simp only [hintName]
    split
    · exact (number_lawful 4).plain _
    · exact .throw _
  reads {name bytes} known written rest := by
    obtain ⟨i, stands⟩ := List.mem_iff_getElem?.mp known
    simp only [hintName, (idxOf?_eq_some_iff_getElem? distinct).mpr stands] at written
    refine run_bind_eq_ok.mpr ⟨i, rest, (number_lawful 4).reads trivial written rest, ?_⟩
    rw [stands]
    rfl
  writes {input name rest} read := by
    obtain ⟨i, middle, readIndex, ended⟩ := run_bind_eq_ok.mp read
    cases stands : names[i]? with
    | none =>
      rw [stands] at ended
      cases ended
    | some name =>
      rw [stands] at ended
      cases ended
      obtain ⟨-, written⟩ := (number_lawful 4).writes readIndex
      refine ⟨List.mem_of_getElem? stands, ?_⟩
      simp only [hintName, (idxOf?_eq_some_iff_getElem? distinct).mpr stands]
      exact written

/-- The kind of an instruction, as its tag. -/
def instructionKind : Codec Instruction.Kind :=
  (number 1).refine Instruction.Kind.tag Instruction.Kind.ofTag? fun tag => .unknownChoice .instruction tag

theorem instructionKind_lawful : instructionKind.Lawful fun _ => True := by
  refine ((number_lawful 1).refine fun found => (Instruction.Kind.ofTag?_eq_some_iff.mp found).symm).congr fun kind => ?_
  simp [Instruction.Kind.ofTag?_eq_some_iff]

/-- An instruction of a known kind. -/
def instructionOf (names : List String) : Instruction.Kind → Codec (Instruction F)
  | .linear => wire.part (·.outputs.headD 0) fun out =>
    form.refine (·.inputs.headD .zero) (fun e => some (.linear e out)) fun _ => .bufferFull
  | .product => wire.part (·.outputs.headD 0) fun out => form.part (·.inputs.headD .zero) fun lhs =>
    form.refine (·.inputs.getD 1 .zero) (fun rhs => some (.product lhs rhs out)) fun _ => .bufferFull
  | .hint => (hintName names).part (·.hintName?.getD "") fun name => (list form).part (·.inputs) fun inputs =>
    (list wire).refine (·.outputs) (fun outputs => some (.hint name inputs outputs)) fun _ => .bufferFull
  | .call => circuitId.part (·.callee?.getD .entry) fun callee => (list form).part (·.inputs) fun inputs =>
    (list wire).refine (·.outputs) (fun outputs => some (.call callee inputs outputs)) fun _ => .bufferFull

theorem instructionOf_lawful {names : List String} (distinct : names.Nodup) (kind : Instruction.Kind) :
    (instructionOf (F := F) names kind).Lawful fun i => i.kind = kind ∧ InstructionFits names i := by
  unfold instructionOf
  cases kind with
  | linear =>
    refine ((number_lawful 4).part (fun out => form_lawful.refine fun found => ?_) fun valid => ?_).congr fun i => ?_
    · cases found
      rfl
    · rw [← Option.some.inj valid.2]
      rfl
    · cases i <;> simp [Instruction.kind, Instruction.inputs, Instruction.outputs, Instruction.hintName?, InstructionFits]
  | product =>
    refine ((number_lawful 4).part (fun out => form_lawful.part (fun lhs => form_lawful.refine fun found => ?_)
      fun valid => ?_) fun valid => ?_).congr fun i => ?_
    · cases found
      rfl
    · rw [← Option.some.inj valid.2]
      rfl
    · rw [← Option.some.inj valid.2.2]
      rfl
    · cases i <;> simp [Instruction.kind, Instruction.inputs, Instruction.outputs, Instruction.hintName?, InstructionFits]
  | hint =>
    refine ((hintName_lawful distinct).part (fun name => (list_lawful form_lawful).part
      (fun inputs => (list_lawful (number_lawful 4)).refine fun found => ?_) fun valid => ?_) fun valid => ?_).congr fun i => ?_
    · cases found
      rfl
    · rw [← Option.some.inj valid.2]
      rfl
    · rw [← Option.some.inj valid.2.2]
      rfl
    · cases i <;> simp [Instruction.kind, Instruction.inputs, Instruction.outputs, Instruction.hintName?, InstructionFits, and_comm]
  | call =>
    refine ((number_lawful 8).part (fun callee => (list_lawful form_lawful).part
      (fun inputs => (list_lawful (number_lawful 4)).refine fun found => ?_) fun valid => ?_) fun valid => ?_).congr fun i => ?_
    · cases found
      rfl
    · rw [← Option.some.inj valid.2]
      rfl
    · rw [← Option.some.inj valid.2.2]
      rfl
    · cases i <;> simp [Instruction.kind, Instruction.inputs, Instruction.outputs, Instruction.hintName?, Instruction.callee?, InstructionFits]

theorem instruction_lawful {names : List String} (distinct : names.Nodup) :
    (instruction (F := F) names).Lawful (InstructionFits names) := by
  have made : instruction (F := F) names = instructionKind.part Instruction.kind (instructionOf names) := by
    simp only [instruction, part, refine, instructionKind, bind_assoc]
    congr 1
    · funext i
      cases i <;> rfl
    · congr 1
      funext tag
      cases Instruction.Kind.ofTag? tag with
      | none => rfl
      | some kind => cases kind <;> rfl
  rw [made]
  refine (instructionKind_lawful.part (instructionOf_lawful distinct) And.left).congr fun i => ?_
  simp

theorem circuit_lawful {names : List String} (distinct : names.Nodup) :
    (circuit (F := F) names).Lawful (CircuitFits names) := by
  have made : circuit (F := F) names = count.part (·.numInputs) fun numInputs => count.part (·.numPublic) fun numPublic =>
      (list (instruction names)).part (·.instructions) fun instructions =>
        (list form).part (·.constraints) fun constraints => (list form).refine (·.outputs)
          (fun outputs => some ⟨numInputs, numPublic, instructions, constraints, outputs⟩) fun _ => .bufferFull := rfl
  rw [made]
  refine ((number_lawful 4).part (fun numInputs => (number_lawful 4).part (fun numPublic =>
    (list_lawful (instruction_lawful distinct)).part (fun instructions => (list_lawful form_lawful).part
      (fun constraints => (list_lawful form_lawful).refine fun found => ?_)
    fun valid => ?_) fun valid => ?_) fun valid => ?_) fun valid => ?_).congr fun c => ?_
  · exact (congrArg Circuit.outputs (Option.some.inj found)).symm
  · exact (congrArg Circuit.constraints (Option.some.inj valid.2)).symm
  · exact (congrArg Circuit.instructions (Option.some.inj valid.2.2)).symm
  · exact (congrArg Circuit.numPublic (Option.some.inj valid.2.2.2)).symm
  · exact (congrArg Circuit.numInputs (Option.some.inj valid.2.2.2.2)).symm
  · simp [CircuitFits]

theorem entry_lawful {names : List String} (distinct : names.Nodup) :
    (entry (F := F) names).Lawful fun e => CircuitFits names e.2 := by
  have made : entry (F := F) names = circuitId.part Prod.fst fun id =>
      (circuit names).refine Prod.snd (fun c => some (id, c)) fun _ => .bufferFull := rfl
  rw [made]
  refine ((number_lawful 8).part (fun id => (circuit_lawful distinct).refine fun found => ?_) fun valid => ?_).congr fun e => ?_
  · exact (congrArg Prod.snd (Option.some.inj found)).symm
  · exact (congrArg Prod.fst (Option.some.inj valid.2)).symm
  · simp

/-- Entries in the order of their ids are read after those of a table of smaller ids. -/
theorem readEntries_of_writes {names : List String} (distinct : names.Nodup) {entries : List (CircuitId × Circuit F)}
    {table : Table CircuitId (Circuit F)} (sorted : (table.entries ++ entries).Pairwise fun a b => a.1 < b.1)
    (fits : ∀ e ∈ entries, CircuitFits names e.2) {bytes : List UInt8}
    (written : (writeAll (entry names).write entries).Writes bytes) (rest : List UInt8) :
    readEntries names entries.length table (bytes ++ rest) = .ok ⟨table.entries ++ entries, sorted⟩ rest := by
  induction entries generalizing table bytes with
  | nil =>
    rw [Writer.writes_done_iff.mp written]
    simp [readEntries, pure, EStateM.pure]
  | cons e entries ih =>
    obtain ⟨first, others⟩ := List.forall_mem_cons.mp fits
    obtain ⟨early, late, left, right, rfl⟩ := (Writer.writes_bind_iff ((entry_lawful distinct).plain e)
      ((entry_lawful distinct).plain_writeAll entries)).mp written
    have above : ∀ e' ∈ table.entries, e'.1 < e.1 := fun e' member =>
      (List.pairwise_append.mp sorted).2.2 e' member e (List.mem_cons_self ..)
    have absent : ¬ table.contains e.1 = true := by
      intro present
      obtain ⟨c, found⟩ := Table.contains_iff.mp present
      exact absurd (above (e.1, c) (Table.get?_eq_some_iff.mp found)) (Nat.lt_irrefl _)
    have inserted : (table.insert e.1 e.2).entries = table.entries ++ [e] := Table.insertEntry_above above
    rw [List.append_assoc]
    refine run_bind_eq_ok.mpr ⟨e, late ++ rest, (entry_lawful distinct).reads first left _, ?_⟩
    have sorted' : ((table.insert e.1 e.2).entries ++ entries).Pairwise fun a b => a.1 < b.1 := by
      rwa [inserted, List.append_assoc]
    have after := ih sorted' others right
    simp only [inserted, List.append_assoc, List.singleton_append] at after
    dsimp only
    rw [if_neg absent]
    exact after

section
variable {names : List String} (sorted : names.Pairwise (· < ·))

include sorted

theorem nodup_of_sorted : names.Nodup := by
  refine sorted.imp ?_
  intro a b below same
  exact Std.lt_irrefl (same ▸ below)

theorem circuits_plain (table : Table CircuitId (Circuit F)) : (circuits.write (names, table)).Plain :=
  (hintTable_lawful.plain names).bind ((list_lawful (entry_lawful (nodup_of_sorted sorted))).plain table.entries)

/-- Circuits beside the names of their hints are read back as they were. -/
theorem circuits_reads {table : Table CircuitId (Circuit F)} (fits : ∀ e ∈ table.entries, CircuitFits names e.2)
    {bytes : List UInt8} (written : (circuits.write (names, table)).Writes bytes) (rest : List UInt8) :
    circuits.read (bytes ++ rest) = .ok (names, table) rest := by
  have lawful := entry_lawful (F := F) (nodup_of_sorted sorted)
  obtain ⟨early, late, left, right, rfl⟩ :=
    (Writer.writes_bind_iff (hintTable_lawful.plain names) ((list_lawful lawful).plain table.entries)).mp written
  obtain ⟨length, body, counted, listed, rfl⟩ :=
    (Writer.writes_bind_iff ((number_lawful 4).plain _) (lawful.plain_writeAll table.entries)).mp right
  rw [List.append_assoc, List.append_assoc]
  refine run_bind_eq_ok.mpr ⟨names, _, hintTable_lawful.reads sorted left _, ?_⟩
  refine run_bind_eq_ok.mpr ⟨table.entries.length, _, (number_lawful 4).reads trivial counted _, ?_⟩
  exact run_bind_eq_ok.mpr
    ⟨table, rest, readEntries_of_writes (nodup_of_sorted sorted) table.sorted fits listed rest, rfl⟩

end

end Codec

namespace Design

theorem hintNames_sorted (D : Design F) : D.hintNames.Pairwise (· < ·) := List.pairwise_map.mpr (Table.sorted _)

theorem Sequenced.canonical {D : Design F} {defined : Nat} {instructions : List (Instruction F)}
    (sequenced : Sequenced D defined instructions) : ∀ i ∈ instructions, ∀ e ∈ i.inputs, e.isCanonical = true := by
  induction instructions generalizing defined with
  | nil => exact List.forall_mem_nil _
  | cons i rest ih =>
    obtain ⟨readable, -, -, later⟩ := sequenced
    exact List.forall_mem_cons.mpr ⟨fun e member => (readable e member).1, ih later⟩

theorem Valid.circuitFits {D : Design F} (valid : D.Valid) : ∀ e ∈ D.circuits.entries, Codec.CircuitFits D.hintNames e.2 := by
  intro e member
  have found : D.get? e.1 = some e.2 := Table.get?_eq_some_iff.mpr member
  have wellFormed := valid.wellFormed found
  refine ⟨fun i inside => ⟨Sequenced.canonical wellFormed.instructions i inside, fun name named => ?_⟩,
    fun form inside => (wellFormed.constraints form inside).1, fun form inside => (wellFormed.outputs form inside).1⟩
  exact mem_hintNames_iff.mpr ⟨e.1, e.2, found, i, inside, named⟩

theorem toBytes_eq_ok_iff {D : Design F} {bytes : List UInt8} :
    D.toBytes = .ok bytes ↔
      ∃ body, (Codec.circuits.write (D.hintNames, D.circuits)).Writes body ∧ bytes = Header.bytes .design F ++ body :=
  Header.toBytes_eq_ok_iff (Codec.circuits_plain D.hintNames_sorted D.circuits)

/-- The stored circuits of a design that keeps the rules are read back with the names of its hints. -/
theorem Valid.reads {D : Design F} (valid : D.Valid) {body : List UInt8}
    (written : (Codec.circuits.write (D.hintNames, D.circuits)).Writes body) :
    Codec.circuits.read.parse body = .ok ((D.hintNames, D.circuits), []) := by
  have read := Codec.circuits_reads D.hintNames_sorted valid.circuitFits written []
  rw [List.append_nil] at read
  exact Reader.parse_eq_ok_iff.mpr read

/-- A table of circuits is a design exactly if it keeps the rules. -/
theorem ofCircuits_eq_ok_iff {table : Table CircuitId (Circuit F)} {D : Design F} :
    ofCircuits table = .ok D ↔ D.circuits = table ∧ D.validate = .ok () := by
  constructor
  · intro made
    obtain ⟨_, checked, same⟩ := bind_eq_ok.mp made
    cases same
    exact ⟨rfl, checked⟩
  · rintro ⟨rfl, checked⟩
    exact bind_eq_ok.mpr ⟨(), checked, rfl⟩

/-- Bytes are read as a design that keeps the rules. -/
theorem ofBytes_eq_ok {bytes : List UInt8} {D : Design F} (read : ofBytes bytes = .ok D) :
    D.validate = .ok () ∧ ∃ names body, bytes = Header.bytes .design F ++ body ∧
      Codec.circuits.read body = .ok (names, D.circuits) [] := by
  simp only [ofBytes, bind_eq_ok, mapError_eq_ok, Header.expect_eq_ok_iff, ofCircuits_eq_ok_iff] at read
  obtain ⟨body, rfl, ⟨⟨names, table⟩, rest⟩, parsed, _, ended, same, checked⟩ := read
  obtain rfl : rest = [] := Reader.finish_eq_ok_iff.mp ended
  exact ⟨checked, names, body, rfl, same ▸ Reader.parse_eq_ok_iff.mp parsed⟩

theorem ofBytes_toBytes {D : Design F} (checked : D.validate = .ok ()) {bytes : List UInt8}
    (stored : D.toBytes = .ok bytes) : ofBytes bytes = .ok D := by
  obtain ⟨body, written, rfl⟩ := toBytes_eq_ok_iff.mp stored
  simp only [ofBytes, bind_eq_ok, mapError_eq_ok, Prod.exists]
  exact ⟨body, Header.expect_eq_ok_iff.mpr rfl, D.hintNames, D.circuits, [], (valid_of_validate checked).reads written,
    (), Reader.finish_eq_ok_iff.mpr rfl, ofCircuits_eq_ok_iff.mpr ⟨rfl, checked⟩⟩

end Design
end ArithCircuit
