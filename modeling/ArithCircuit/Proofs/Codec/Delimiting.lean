import ArithCircuit.Proofs.Codec.Layered
import ArithCircuit.Proofs.Codec.Solver

/-!
Accepted bytes tell where they end. A reader is delimited if what it takes for a value does not depend
on what follows, and if it misses bytes wherever its input is cut short. Taking chunks is delimited, and
one delimited reader after another is; so are all codecs of artifacts. A decoder looks for bytes that are
left over before it checks what it has read, so of the strings that begin alike it accepts at most one,
and tells for each of the others whether bytes are missing or how many are left over.
-/
namespace ArithCircuit
variable {F : ScalarField}

namespace Reader
variable {α β : Type}

/-- A reader takes these bytes for a value, whatever follows, and misses bytes wherever they are cut. -/
structure Takes (reader : Reader α) (taken : List UInt8) (x : α) : Prop where
  reads : ∀ rest, reader (taken ++ rest) = .ok x rest
  stops : ∀ {early late}, taken = early ++ late → late ≠ [] → ∃ left, reader early = .error .notEnoughBytes left

/-- Of all that a reader accepts, it takes bytes that do not depend on those that it leaves. -/
structure Delimited (reader : Reader α) : Prop where
  takes : ∀ {input x rest}, reader input = .ok x rest → ∃ taken, input = taken ++ rest ∧ reader.Takes taken x

theorem Takes.bind {reader : Reader α} {next : α → Reader β} {taken taken' : List UInt8} {a : α} {y : β}
    (first : reader.Takes taken a) (second : (next a).Takes taken' y) : (reader >>= next).Takes (taken ++ taken') y where
  reads rest := by
    rw [List.append_assoc]
    exact run_bind_eq_ok.mpr ⟨a, taken' ++ rest, first.reads _, second.reads rest⟩
  stops {early late} cut missing := by
    have later (within : List UInt8) (split : taken' = within ++ late) :
        ∃ left, (reader >>= next) (taken ++ within) = .error .notEnoughBytes left := by
      obtain ⟨left, stopped⟩ := second.stops split missing
      exact ⟨left, run_bind_eq_error.mpr (.inr ⟨a, within, first.reads within, stopped⟩)⟩
    rcases List.append_eq_append_iff.mp cut with ⟨within, rfl, split⟩ | ⟨within, rfl, rfl⟩
    · exact later within split
    · -- A cut right between the two parts is a cut of the second one.
      by_cases between : within = []
      · subst between
        simpa using later [] rfl
      · obtain ⟨left, stopped⟩ := first.stops rfl between
        exact ⟨left, run_bind_eq_error.mpr (.inl stopped)⟩

namespace Delimited

theorem pure (a : α) : (Pure.pure a : Reader α).Delimited := by
  constructor
  rintro input _ _ ⟨⟩
  refine ⟨[], rfl, fun rest => rfl, ?_⟩
  intro early late cut missing
  exact absurd (List.append_eq_nil_iff.mp cut.symm).2 missing

theorem throw (e : CodecError) : (MonadExcept.throw e : Reader α).Delimited := by
  constructor
  rintro _ _ _ ⟨⟩

theorem bind {reader : Reader α} {next : α → Reader β} (first : reader.Delimited) (second : ∀ a, (next a).Delimited) :
    (reader >>= next).Delimited := by
  constructor
  intro input y rest read
  obtain ⟨a, middle, readFirst, readRest⟩ := run_bind_eq_ok.mp read
  obtain ⟨taken, rfl, takes⟩ := first.takes readFirst
  obtain ⟨taken', rfl, takes'⟩ := (second a).takes readRest
  exact ⟨taken ++ taken', (List.append_assoc ..).symm, takes.bind takes'⟩

theorem take (count : Nat) : (Reader.take count).Delimited := by
  constructor
  intro input chunk rest read
  obtain ⟨rfl, rfl⟩ := take_eq_ok_iff.mp read
  refine ⟨chunk, rfl, fun rest => take_eq_ok_iff.mpr ⟨rfl, rfl⟩, ?_⟩
  rintro early late rfl missing
  have fewer : early.length < (early ++ late).length := by
    have := List.length_pos_iff.mpr missing
    simp
    omega
  refine ⟨early, ?_⟩
  rw [Reader.take, if_neg]
  simp only [List.length_take]
  omega

end Delimited
end Reader

/-! ### Parts of artifacts -/

namespace Codec
open Reader (Delimited)

variable {α : Type}

theorem number_delimited (width : Nat) : (number width).read.Delimited := (Delimited.take width).bind fun _ => .pure _

theorem text_delimited : text.read.Delimited := by
  refine (number_delimited 4).bind fun length => (Delimited.take length).bind fun bytes => ?_
  split
  · exact .pure _
  · exact .throw _

theorem scalar_delimited : (scalar (F := F)).read.Delimited := by
  refine (Delimited.take _).bind fun bytes => ?_
  split
  · exact .pure _
  · exact .throw _

theorem readMany_delimited {read : Reader α} (each : read.Delimited) (count : Nat) (values : List α) :
    (readMany read count values).Delimited := by
  induction count generalizing values with
  | zero => exact .pure _
  | succ count ih => exact each.bind fun value => ih (value :: values)

theorem list_delimited {c : Codec α} (each : c.read.Delimited) : (list c).read.Delimited :=
  (number_delimited 4).bind fun length => readMany_delimited each length []

theorem form_delimited : (form (F := F)).read.Delimited := by
  have term : (term (F := F)).read.Delimited := (number_delimited 4).bind fun _ => scalar_delimited.bind fun _ => .pure _
  refine (list_delimited term).bind fun terms => ?_
  split
  · exact .pure _
  · exact .throw _

theorem hintTable_delimited : hintTable.read.Delimited := by
  refine (list_delimited text_delimited).bind fun names => ?_
  split
  · exact .pure _
  · exact .throw _

theorem hintName_delimited (names : List String) : (hintName names).read.Delimited := by
  refine (number_delimited 4).bind fun i => ?_
  split
  · exact .pure _
  · exact .throw _

theorem instruction_delimited (names : List String) : (instruction (F := F) names).read.Delimited := by
  have forms := list_delimited (form_delimited (F := F))
  have wires : (list wire).read.Delimited := list_delimited (number_delimited 4)
  refine (number_delimited 1).bind fun tag => ?_
  split
  · exact .throw _
  · exact (number_delimited 4).bind fun _ => form_delimited.bind fun _ => .pure _
  · exact (number_delimited 4).bind fun _ => form_delimited.bind fun _ => form_delimited.bind fun _ => .pure _
  · exact (hintName_delimited names).bind fun _ => forms.bind fun _ => wires.bind fun _ => .pure _
  · exact (number_delimited 8).bind fun _ => forms.bind fun _ => wires.bind fun _ => .pure _

theorem entry_delimited (names : List String) : (entry (F := F) names).read.Delimited := by
  have count := number_delimited 4
  have forms := list_delimited (form_delimited (F := F))
  have circuit : (circuit (F := F) names).read.Delimited :=
    count.bind fun _ => count.bind fun _ => (list_delimited (instruction_delimited names)).bind fun _ =>
      forms.bind fun _ => forms.bind fun _ => .pure _
  exact (number_delimited 8).bind fun _ => circuit.bind fun _ => .pure _

theorem readEntries_delimited (names : List String) (count : Nat) (table : Table CircuitId (Circuit F)) :
    (readEntries names count table).Delimited := by
  induction count generalizing table with
  | zero => exact .pure _
  | succ count ih =>
    refine (entry_delimited names).bind fun e => ?_
    dsimp only
    split
    · exact .throw _
    · exact ih _

theorem circuits_delimited : (circuits (F := F)).read.Delimited :=
  hintTable_delimited.bind fun names => (number_delimited 4).bind fun length =>
    (readEntries_delimited names length ∅).bind fun _ => .pure _

theorem solverCounts_delimited : solverCounts.read.Delimited := by
  have count := number_delimited 4
  exact count.bind fun _ => count.bind fun _ => count.bind fun _ => count.bind fun _ => .pure _

theorem gate_delimited : (gate (F := F)).read.Delimited := by
  have count := number_delimited 4
  refine (number_delimited 1).bind fun tag => ?_
  split
  · exact .throw _
  · refine count.bind fun a => count.bind fun b => scalar_delimited.bind fun coef => ?_
    split
    · exact .pure _
    · exact .throw _

theorem layered_delimited : (layered (F := F)).read.Delimited := by
  have count := number_delimited 4
  have numbers : (list Codec.count).read.Delimited := list_delimited count
  exact count.bind fun _ => count.bind fun _ => count.bind fun _ =>
    (list_delimited (list_delimited gate_delimited)).bind fun _ => numbers.bind fun _ => numbers.bind fun _ => .pure _

end Codec

/-! ### Artifacts -/

namespace Header
open Reader (Delimited)

theorem read_delimited (artifact : Artifact) : (read artifact).Delimited := by
  refine (Delimited.take 4).bind fun magic => ?_
  split
  · exact .throw _
  · refine (Codec.number_delimited 2).bind fun version => ?_
    split
    · exact .throw _
    · refine (Codec.number_delimited 1).bind fun id => ?_
      split
      · exact .pure _
      · exact .throw _

/-- Opens an artifact, reads all that follows its head, and then checks what was read. -/
def decode {α β : Type} (artifact : Artifact) (F : ScalarField) (reader : Reader α) (check : α → Except Error β)
    (bytes : List UInt8) : Except Error β := do
  let body ← expect artifact F bytes
  let (x, rest) ← (reader.parse body).mapError .codec
  (Reader.finish rest).mapError .codec
  check x

end Header

/-- Of the bytes that agree with those given as far as they go, a decoder refuses all that are shorter, as
    bytes are missing, and all that are longer, by how many are left over. -/
structure Delimits {α : Type} (decode : List UInt8 → Except Error α) (bytes : List UInt8) : Prop where
  shorter : ∀ short, short <+: bytes → short ≠ bytes → decode short = .error (.codec .notEnoughBytes)
  longer : ∀ more, more ≠ [] → decode (bytes ++ more) = .error (.codec (.trailingBytes more.length))

namespace Header
variable {α β : Type} {artifact : Artifact} {reader : Reader α} {check : α → Except Error β}

theorem decode_of_error {bytes body left : List UInt8} {e : CodecError} (opened : expect artifact F bytes = .ok body)
    (stopped : reader body = .error e left) : decode artifact F reader check bytes = .error (.codec e) := by
  simp only [decode, opened, Reader.parse, stopped, ok_bind]
  rfl

theorem decode_of_ok {bytes body rest : List UInt8} {x : α} (opened : expect artifact F bytes = .ok body)
    (read : reader body = .ok x rest) :
    decode artifact F reader check bytes = (Reader.finish rest).mapError .codec >>= fun _ => check x := by
  simp only [decode, opened, Reader.parse, read, ok_bind]
  rfl

/-- What a decoder accepts is a head and what its reader takes. -/
theorem decode_eq_ok {bytes : List UInt8} {y : β} (accepted : decode artifact F reader check bytes = .ok y) :
    ∃ body x, bytes = Header.bytes artifact F ++ body ∧ reader body = .ok x [] := by
  simp only [decode, bind_eq_ok, mapError_eq_ok, Prod.exists, expect_eq_ok_iff, Reader.parse_eq_ok_iff] at accepted
  obtain ⟨body, rfl, x, rest, read, _, ended, -⟩ := accepted
  obtain rfl := Reader.finish_eq_ok_iff.mp ended
  exact ⟨body, x, rfl, read⟩

/-- A head that is cut does not open. -/
theorem decode_of_cut_head {early late : List UInt8} (cut : Header.bytes artifact F = early ++ late)
    (missing : late ≠ []) : decode artifact F reader check early = .error (.codec .notEnoughBytes) := by
  have whole : read artifact (Header.bytes artifact F) = .ok F [] := read_eq_ok_iff.mpr (List.append_nil _).symm
  obtain ⟨taken, same, takes⟩ := (read_delimited artifact).takes whole
  rw [List.append_nil] at same
  obtain ⟨left, stopped⟩ := takes.stops (same.symm.trans cut) missing
  simp only [decode, expect, Reader.parse, stopped]
  rfl

/-- A decoder of a delimited reader delimits what it accepts, whatever it checks afterwards. -/
theorem decode_delimits (delimited : reader.Delimited) {bytes : List UInt8} {y : β}
    (accepted : decode artifact F reader check bytes = .ok y) : Delimits (decode artifact F reader check) bytes := by
  obtain ⟨body, x, rfl, read⟩ := decode_eq_ok accepted
  obtain ⟨taken, same, takes⟩ := delimited.takes read
  obtain rfl : body = taken := by simpa using same
  constructor
  · rintro short ⟨late, cut⟩ other
    have missing : late ≠ [] := by
      rintro rfl
      exact other (by simpa using cut)
    have later (within : List UInt8) (split : body = within ++ late) :
        decode artifact F reader check (Header.bytes artifact F ++ within) = .error (.codec .notEnoughBytes) := by
      obtain ⟨left, stopped⟩ := takes.stops split missing
      exact decode_of_error (expect_eq_ok_iff.mpr rfl) stopped
    rcases List.append_eq_append_iff.mp cut with ⟨within, split, rfl⟩ | ⟨within, rfl, split⟩
    · by_cases between : within = []
      · subst between
        rw [List.append_nil] at split
        rw [← split]
        simpa using later [] rfl
      · exact decode_of_cut_head split between
    · exact later within split
  · intro more present
    have opened : expect artifact F (Header.bytes artifact F ++ body ++ more) = .ok (body ++ more) :=
      expect_eq_ok_iff.mpr (List.append_assoc ..)
    rw [decode_of_ok opened (takes.reads more), Reader.finish, if_neg (by simpa using present)]
    rfl

end Header

/-! ### Designs, solvers and layered circuits -/

theorem Design.ofBytes_eq_decode (bytes : List UInt8) : ofBytes (F := F) bytes =
    Header.decode .design F Codec.circuits.read (fun body => (ofCircuits body.2).mapError .malformed) bytes :=
  rfl

theorem LayeredCircuit.ofBytes_eq_decode (bytes : List UInt8) : ofBytes (F := F) bytes =
    Header.decode .layered F Codec.layered.read (fun c => c.validate.mapError .malformed >>= fun _ => pure c) bytes :=
  rfl

namespace Solver

/-- The counts of a stored solver, and then its names and circuits. -/
def readParts : Reader (SolverCounts × List String × Table CircuitId (Circuit F)) := do
  let counts ← Codec.solverCounts.read
  let body ← Codec.circuits.read
  return (counts, body)

/-- The solver of what was read, if it keeps the rules. -/
def ofParts (hints : HintRegistry F) (parts : SolverCounts × List String × Table CircuitId (Circuit F)) :
    Except Error (Solver F) := do
  let D ← (Design.ofCircuits parts.2.2).mapError .malformed
  if (← (SolverCounts.ofDesign D).mapError .malformed) ≠ parts.1 then throw (.codec (.badPart .solverCounts))
  if let some name := parts.2.1.find? fun name => !Table.contains hints name then throw (.unknownHint name)
  Solver.new D hints

theorem readParts_delimited : (readParts (F := F)).Delimited :=
  Codec.solverCounts_delimited.bind fun _ => Codec.circuits_delimited.bind fun _ => .pure _

theorem ofBytes_eq_decode (bytes : List UInt8) (hints : HintRegistry F) :
    ofBytes bytes hints = Header.decode .solver F readParts (ofParts hints) bytes := by
  simp only [ofBytes, Header.decode]
  congr 1
  funext body
  simp only [Reader.parse]
  cases counted : Codec.solverCounts.read body with
  | error e left =>
    rw [readParts, run_bind_eq_error.mpr (.inl counted)]
    rfl
  | ok counts rest =>
    cases listed : (Codec.circuits (F := F)).read rest with
    | error e left =>
      rw [readParts, run_bind_eq_error.mpr (.inr ⟨counts, rest, counted, run_bind_eq_error.mpr (.inl listed)⟩)]
      simp only [Except.mapError, ok_bind, listed]
      rfl
    | ok parts left =>
      have read : readParts body = .ok (counts, parts) left :=
        run_bind_eq_ok.mpr ⟨counts, rest, counted, run_bind_eq_ok.mpr ⟨parts, left, listed, rfl⟩⟩
      rw [read]
      simp only [Except.mapError, ok_bind, listed]
      rfl

end Solver

/-- Designs, solvers under any registry, and layered circuits are stored in bytes that tell where they end. -/
theorem ofBytes_delimits :
    (∀ (bytes : List UInt8) (D : Design F), Design.ofBytes bytes = .ok D → Delimits (Design.ofBytes (F := F)) bytes) ∧
    (∀ (bytes : List UInt8) (hints : HintRegistry F) (s : Solver F), Solver.ofBytes bytes hints = .ok s →
      Delimits (Solver.ofBytes · hints) bytes) ∧
    ∀ (bytes : List UInt8) (c : LayeredCircuit F), LayeredCircuit.ofBytes bytes = .ok c →
      Delimits (LayeredCircuit.ofBytes (F := F)) bytes := by
  refine ⟨?_, ?_, ?_⟩
  · intro bytes D accepted
    simp only [funext Design.ofBytes_eq_decode] at accepted ⊢
    exact Header.decode_delimits Codec.circuits_delimited accepted
  · intro bytes hints s accepted
    simp only [Solver.ofBytes_eq_decode] at accepted ⊢
    exact Header.decode_delimits Solver.readParts_delimited accepted
  · intro bytes c accepted
    simp only [funext LayeredCircuit.ofBytes_eq_decode] at accepted ⊢
    exact Header.decode_delimits Codec.layered_delimited accepted

/-- A stored design without its last byte, a solver with two more, and a layered circuit cut in its head. -/
theorem ofBytes_delimits_reciprocal :
    (∃ bytes, Design.reciprocal.toBytes = .ok bytes ∧ Design.ofBytes bytes = .ok Design.reciprocal ∧
      Design.ofBytes (F := .mersenne31) bytes.dropLast = .error (.codec .notEnoughBytes)) ∧
    (∃ bytes s, Solver.ofBytes bytes Solver.reciprocalHints = .ok s ∧ s.design = Design.reciprocal ∧
      Solver.ofBytes (bytes ++ [0, 7]) Solver.reciprocalHints = .error (.codec (.trailingBytes 2))) ∧
    ∃ bytes, LayeredCircuit.ofBytes bytes = .ok LayeredCircuit.sumAndProduct ∧
      LayeredCircuit.ofBytes (F := .mersenne31) (bytes.take 5) = .error (.codec .notEnoughBytes) := by
  obtain ⟨designs, solvers, circuits⟩ := ofBytes_delimits (F := .mersenne31)
  have checked : Design.reciprocal.validate = .ok () := by decide
  refine ⟨?_, ?_, ?_⟩
  · obtain ⟨bytes, stored⟩ := exists_of_isOk (x := Design.reciprocal.toBytes) (by decide +kernel)
    have read := Design.ofBytes_toBytes checked stored
    refine ⟨bytes, stored, read, (designs bytes _ read).shorter _ bytes.dropLast_prefix ?_⟩
    obtain ⟨body, -, rfl⟩ := Design.toBytes_eq_ok_iff.mp stored
    intro same
    simpa [Header.bytes, Header.length_magic] using congrArg List.length same
  · have registered : ∀ name ∈ Design.reciprocal.hintNames, Table.contains Solver.reciprocalHints name = true := by decide
    have made : Solver.new Design.reciprocal Solver.reciprocalHints = .ok ⟨Design.reciprocal, Solver.reciprocalHints, 1, 0⟩ := rfl
    obtain ⟨bytes, stored⟩ := exists_of_isOk
      (x := (⟨Design.reciprocal, Solver.reciprocalHints, 1, 0⟩ : Solver .mersenne31).toBytes) (by decide +kernel)
    have read := (Solver.ofBytes_toBytes checked made registered stored).trans made
    exact ⟨bytes, _, read, rfl, (solvers bytes _ _ read).longer [0, 7] (by decide)⟩
  · obtain ⟨bytes, stored⟩ := exists_of_isOk (x := LayeredCircuit.sumAndProduct.toBytes) (by decide +kernel)
    have read := LayeredCircuit.ofBytes_eq_ok_iff.mpr ⟨rfl, stored⟩
    refine ⟨bytes, read, (circuits bytes _ read).shorter _ (List.take_prefix 5 bytes) ?_⟩
    obtain ⟨body, -, rfl⟩ := LayeredCircuit.toBytes_eq_ok_iff.mp stored
    intro same
    have length := congrArg List.length same
    simp [Header.bytes, Header.length_magic] at length
    omega

end ArithCircuit
