import ArithCircuit.Proofs.Codec.Solver

/-!
Bytes that are accepted, and the bytes that are stored again for what was read. Reading forgets two
things about its input: the order in which the circuits stand, and which names the hint table has beside
those in use. So stored bytes come back as they were exactly when the circuits stand in the order of their
ids and every name of the table is used. All else is told by what was read: numbers, forms, tags, texts and
lengths have one encoding each, as their codecs are lawful.
-/
namespace ArithCircuit
variable {F : ScalarField}

/-! ### Writers that succeed -/

namespace Writer

/-- A writer that writes some bytes, given room. -/
def Succeeds (writer : Writer Unit) : Prop := ∃ bytes, writer.Writes bytes

theorem succeeds_bind_iff {first second : Writer Unit} (left : first.Plain) (right : second.Plain) :
    (first >>= fun _ => second).Succeeds ↔ first.Succeeds ∧ second.Succeeds := by
  constructor
  · rintro ⟨_, written⟩
    obtain ⟨early, late, first, second, -⟩ := (writes_bind_iff left right).mp written
    exact ⟨⟨early, first⟩, late, second⟩
  · rintro ⟨⟨_, first⟩, _, second⟩
    exact ⟨_, first.bind second⟩

/-- One writer after another succeeds where both succeed that they stand in for. -/
theorem Succeeds.imp_bind {first second first' second' : Writer Unit} (left : first.Plain) (right : second.Plain)
    (early : first.Succeeds → first'.Succeeds) (late : second.Succeeds → second'.Succeeds)
    (written : (first >>= fun _ => second).Succeeds) : (first' >>= fun _ => second').Succeeds := by
  obtain ⟨done, rest⟩ := (succeeds_bind_iff left right).mp written
  obtain ⟨_, first⟩ := early done
  obtain ⟨_, second⟩ := late rest
  exact ⟨_, first.bind second⟩

end Writer

namespace Codec

theorem number_succeeds_iff {width n : Nat} : ((number width).write n).Succeeds ↔ n < 256 ^ width := by
  constructor
  · rintro ⟨_, written⟩
    exact (number_writes_iff.mp written).1
  · intro below
    exact ⟨_, number_writes_iff.mpr ⟨below, rfl⟩⟩

theorem succeeds_writeAll_iff {α : Type} {write : α → Writer Unit} (plain : ∀ x, (write x).Plain) {xs : List α} :
    (writeAll write xs).Succeeds ↔ ∀ x ∈ xs, (write x).Succeeds := by
  induction xs with
  | nil => exact iff_of_true ⟨_, Writer.writes_done_iff.mpr rfl⟩ (List.forall_mem_nil _)
  | cons x rest ih =>
    rw [List.forall_mem_cons, ← ih]
    exact Writer.succeeds_bind_iff (plain x) (plain_writeAll plain rest)

section
variable {α : Type} {c : Codec α} {P : α → Prop} (lawful : c.Lawful P) {xs ys : List α}
include lawful

theorem Lawful.succeeds_list_iff :
    ((list c).write xs).Succeeds ↔ xs.length < 256 ^ 4 ∧ ∀ x ∈ xs, (c.write x).Succeeds := by
  rw [← succeeds_writeAll_iff lawful.plain, ← number_succeeds_iff]
  exact Writer.succeeds_bind_iff ((number_lawful 4).plain _) (lawful.plain_writeAll xs)

/-- Fewer values can be written if more can. -/
theorem Lawful.succeeds_of_subset (distinct : xs.Nodup) (among : ∀ x ∈ xs, x ∈ ys)
    (written : ((list c).write ys).Succeeds) : ((list c).write xs).Succeeds := by
  obtain ⟨short, each⟩ := lawful.succeeds_list_iff.mp written
  have fewer : xs.length ≤ ys.length := (distinct.subperm among).length_le
  exact lawful.succeeds_list_iff.mpr ⟨fewer.trans_lt short, fun x member => each x (among x member)⟩

end

/-! ### Other hint tables -/

theorem hintName_succeeds {names : List String} (distinct : names.Nodup) (few : names.length ≤ 256 ^ 4) {name : String}
    (known : name ∈ names) : ((hintName names).write name).Succeeds := by
  obtain ⟨i, stands⟩ := List.mem_iff_getElem?.mp known
  obtain ⟨inside, -⟩ := List.getElem?_eq_some_iff.mp stands
  simp only [hintName, (idxOf?_eq_some_iff_getElem? distinct).mpr stands]
  exact number_succeeds_iff.mpr (inside.trans_le few)

section
variable {names names' : List String} (distinct : names.Nodup) (distinct' : names'.Nodup) (few : names'.length ≤ 256 ^ 4)
include distinct distinct' few

/-- What can be written with one table can be written with any other that has the names in use. -/
theorem instruction_succeeds {i : Instruction F} (known : ∀ name, i.hintName? = some name → name ∈ names')
    (written : ((instruction names).write i).Succeeds) : ((instruction names').write i).Succeeds := by
  cases i with
  | linear e out => exact written
  | product lhs rhs out => exact written
  | call callee inputs outputs => exact written
  | hint name inputs outputs =>
    have operands : ((list form).write inputs >>= fun _ => (list wire).write outputs).Plain :=
      ((list_lawful form_lawful).plain inputs).bind ((list_lawful (number_lawful 4)).plain outputs)
    have named := (hintName_lawful distinct).plain name
    refine .imp_bind ((number_lawful 1).plain _) (named.bind operands) id ?_ written
    exact .imp_bind named operands (fun _ => hintName_succeeds distinct' few (known name rfl)) id

theorem entry_succeeds {e : CircuitId × Circuit F}
    (known : ∀ i ∈ e.2.instructions, ∀ name, i.hintName? = some name → name ∈ names')
    (written : ((entry names).write e).Succeeds) : ((entry names').write e).Succeeds := by
  have lawful := instruction_lawful (F := F) distinct
  have lawful' := instruction_lawful (F := F) distinct'
  have forms (es : List (LinearForm F)) := (list_lawful form_lawful).plain es
  have tail := (forms e.2.constraints).bind (forms e.2.outputs)
  have instructions := (list_lawful lawful).plain e.2.instructions
  have counted (n : Nat) : (count.write n).Plain := (number_lawful 4).plain n
  -- The parts of an entry in turn, of which only the instructions depend on the table.
  refine .imp_bind ((number_lawful 8).plain _) ((counted _).bind ((counted _).bind (instructions.bind tail))) id ?_ written
  refine .imp_bind (counted _) ((counted _).bind (instructions.bind tail)) id ?_
  refine .imp_bind (counted _) (instructions.bind tail) id ?_
  refine .imp_bind instructions tail (fun listed => ?_) id
  obtain ⟨short, each⟩ := lawful.succeeds_list_iff.mp listed
  refine lawful'.succeeds_list_iff.mpr ⟨short, fun i member => ?_⟩
  exact instruction_succeeds distinct distinct' few (known i member) (each i member)

end
end Codec

/-! ### Circuits as they stand -/

/-- What stands in stored bytes: a table of hint names, and circuits with their ids, in this order. -/
structure Listing (F : ScalarField) where
  names : List String
  entries : List (CircuitId × Circuit F)
deriving DecidableEq

namespace Listing

/-- The ids increase, and every name is that of a hint of some circuit. -/
structure Normal (l : Listing F) : Prop where
  ordered : l.entries.Pairwise fun a b => a.1 < b.1
  used : ∀ name ∈ l.names, ∃ e ∈ l.entries, ∃ i ∈ e.2.instructions, i.hintName? = some name

/-- The names are sorted, and the circuits keep to them. -/
structure Fits (l : Listing F) : Prop where
  sorted : l.names.Pairwise (· < ·)
  entries : ∀ e ∈ l.entries, Codec.CircuitFits l.names e.2

/-- The listing that is stored for a design. -/
def ofDesign (D : Design F) : Listing F := ⟨D.hintNames, D.circuits.entries⟩

theorem fits_ofDesign {D : Design F} (valid : D.Valid) : (ofDesign D).Fits := ⟨D.hintNames_sorted, valid.circuitFits⟩

end Listing

namespace Codec

/-- Listings, kept as they stand. -/
def listing : Codec (Listing F) where
  write l := do
    hintTable.write l.names
    (list (entry l.names)).write l.entries
  read := do
    let names ← hintTable.read
    let entries ← (list (entry names)).read
    return ⟨names, entries⟩

theorem listing_reads {l : Listing F} (fits : l.Fits) {bytes : List UInt8} (written : (listing.write l).Writes bytes)
    (rest : List UInt8) : listing.read (bytes ++ rest) = .ok l rest := by
  have lawful := list_lawful (entry_lawful (F := F) (nodup_of_sorted fits.sorted))
  obtain ⟨early, late, left, right, rfl⟩ :=
    (Writer.writes_bind_iff (hintTable_lawful.plain l.names) (lawful.plain l.entries)).mp written
  rw [List.append_assoc]
  refine run_bind_eq_ok.mpr ⟨l.names, _, hintTable_lawful.reads fits.sorted left _, ?_⟩
  exact run_bind_eq_ok.mpr ⟨l.entries, rest, lawful.reads fits.entries right rest, rfl⟩

theorem listing_writes {l : Listing F} {input rest : List UInt8} (read : listing.read input = .ok l rest) :
    l.Fits ∧ ∃ bytes, (listing.write l).Writes bytes ∧ input = bytes ++ rest := by
  obtain ⟨names, middle, readNames, readRest⟩ := run_bind_eq_ok.mp read
  obtain ⟨sorted, early, left, rfl⟩ := hintTable_lawful.writes readNames
  obtain ⟨entries, last, readEntries, ended⟩ := run_bind_eq_ok.mp readRest
  obtain ⟨fits, late, right, rfl⟩ := (list_lawful (entry_lawful (nodup_of_sorted sorted))).writes readEntries
  cases ended
  exact ⟨⟨sorted, fits⟩, early ++ late, left.bind right, (List.append_assoc ..).symm⟩

/-- Reading into a table lists the same circuits, each once. -/
theorem readEntries_lists {names : List String} {count : Nat} {table table' : Table CircuitId (Circuit F)}
    {input rest : List UInt8} (read : readEntries names count table input = .ok table' rest)
    (earlier : List (CircuitId × Circuit F)) :
    ∃ entries, readMany (entry names).read count earlier input = .ok (earlier.reverse ++ entries) rest ∧
      ∀ e, e ∈ table'.entries ↔ e ∈ table.entries ∨ e ∈ entries := by
  induction count generalizing table input earlier with
  | zero =>
    cases read
    refine ⟨[], ?_, by simp⟩
    rw [List.append_nil]
    rfl
  | succ count ih =>
    obtain ⟨first, middle, readFirst, readRest⟩ := run_bind_eq_ok.mp read
    dsimp only at readRest
    split at readRest
    · cases readRest
    · rename_i fresh
      obtain ⟨entries, listed, members⟩ := ih readRest (first :: earlier)
      refine ⟨first :: entries, run_bind_eq_ok.mpr ⟨first, middle, readFirst, by simpa using listed⟩, fun e => ?_⟩
      rw [members, Table.mem_insert fresh, List.mem_cons, or_assoc, or_left_comm]

theorem circuits_lists {names : List String} {table : Table CircuitId (Circuit F)} {input rest : List UInt8}
    (read : circuits.read input = .ok (names, table) rest) :
    ∃ entries, listing.read input = .ok ⟨names, entries⟩ rest ∧ ∀ e, e ∈ table.entries ↔ e ∈ entries := by
  obtain ⟨_, middle, readNames, readRest⟩ := run_bind_eq_ok.mp read
  obtain ⟨count, middle', readCount, readTable⟩ := run_bind_eq_ok.mp readRest
  obtain ⟨_, _, readTable, ended⟩ := run_bind_eq_ok.mp readTable
  cases ended
  obtain ⟨entries, listed, members⟩ := readEntries_lists readTable []
  refine ⟨entries, ?_, fun e => (members e).trans (or_iff_right List.not_mem_nil)⟩
  refine run_bind_eq_ok.mpr ⟨names, middle, readNames, run_bind_eq_ok.mpr ⟨entries, rest, ?_, rfl⟩⟩
  exact run_bind_eq_ok.mpr ⟨count, middle', readCount, listed⟩

end Codec

/-! ### Storing again -/

namespace Listing

/-- A listing of the circuits of a design, in any order, under a table that may have more names. -/
structure Lists (l : Listing F) (D : Design F) : Prop where
  fits : l.Fits
  members : ∀ e, e ∈ D.circuits.entries ↔ e ∈ l.entries

section
variable {l : Listing F} {D : Design F} (lists : l.Lists D)
include lists

theorem Lists.used_iff {name : String} :
    name ∈ D.hintNames ↔ ∃ e ∈ l.entries, ∃ i ∈ e.2.instructions, i.hintName? = some name := by
  rw [Design.mem_hintNames_iff]
  constructor
  · rintro ⟨id, c, found, i, inside, named⟩
    exact ⟨(id, c), (lists.members _).mp (Table.get?_eq_some_iff.mp found), i, inside, named⟩
  · rintro ⟨e, member, i, inside, named⟩
    exact ⟨e.1, e.2, Table.get?_eq_some_iff.mpr ((lists.members e).mpr member), i, inside, named⟩

theorem Lists.names_subset : ∀ name ∈ D.hintNames, name ∈ l.names := by
  intro name member
  obtain ⟨e, listed, i, inside, named⟩ := lists.used_iff.mp member
  exact ((lists.fits.entries e listed).1 i inside).2 name named

/-- A listing is normal exactly when it is the one that is stored for the design. -/
theorem Lists.normal_iff : l.Normal ↔ l = ofDesign D := by
  constructor
  · intro normal
    have names : l.names = D.hintNames := by
      refine lists.fits.sorted.eq_of_mem_iff D.hintNames_sorted fun name => ?_
      exact ⟨fun member => lists.used_iff.mpr (normal.used name member), lists.names_subset name⟩
    have entries : l.entries = D.circuits.entries :=
      normal.ordered.eq_of_mem_iff D.circuits.sorted fun e => (lists.members e).symm
    cases l
    cases names
    cases entries
    rfl
  · intro same
    refine ⟨?_, fun name member => lists.used_iff.mp ?_⟩
    · rw [same]
      exact D.circuits.sorted
    · rwa [same] at member

/-- If a listing of a design was written, then the one for the design can be. -/
theorem Lists.succeeds (written : (Codec.listing.write l).Succeeds) : (Codec.listing.write (ofDesign D)).Succeeds := by
  have distinct := Codec.nodup_of_sorted lists.fits.sorted
  have distinct' := Codec.nodup_of_sorted D.hintNames_sorted
  have lawful := Codec.entry_lawful (F := F) distinct
  have lawful' := Codec.entry_lawful (F := F) distinct'
  obtain ⟨names, entries⟩ := (Writer.succeeds_bind_iff (Codec.hintTable_lawful.plain l.names)
    ((Codec.list_lawful lawful).plain l.entries)).mp written
  have names' : ((Codec.list Codec.text).write D.hintNames).Succeeds :=
    Codec.text_lawful.succeeds_of_subset distinct' lists.names_subset names
  have few : D.hintNames.length ≤ 256 ^ 4 := (Codec.text_lawful.succeeds_list_iff.mp names').1.le
  refine (Writer.succeeds_bind_iff (Codec.hintTable_lawful.plain _) ((Codec.list_lawful lawful').plain _)).mpr ⟨names', ?_⟩
  have entries := lawful.succeeds_of_subset D.circuits.nodup_entries (fun e => (lists.members e).mp) entries
  obtain ⟨short, each⟩ := lawful.succeeds_list_iff.mp entries
  refine lawful'.succeeds_list_iff.mpr ⟨short, fun e member => ?_⟩
  refine Codec.entry_succeeds distinct distinct' few (fun i inside name named => ?_) (each e member)
  exact lists.used_iff.mpr ⟨e, (lists.members e).mp member, i, inside, named⟩

end
end Listing

namespace Design

/-- What was read is stored again, and the bytes are the same exactly if they list it in the normal form. -/
theorem rewrites {D : Design F} (valid : D.Valid) {names : List String} {body : List UInt8}
    (read : Codec.circuits.read body = .ok (names, D.circuits) []) :
    ∃ l : Listing F, Codec.listing.read body = .ok l [] ∧
      ∃ body', (Codec.circuits.write (D.hintNames, D.circuits)).Writes body' ∧ (body' = body ↔ l.Normal) := by
  obtain ⟨entries, listed, members⟩ := Codec.circuits_lists read
  obtain ⟨fits, bytes, written, rfl⟩ := Codec.listing_writes listed
  have lists : Listing.Lists ⟨names, entries⟩ D := ⟨fits, members⟩
  obtain ⟨body', written'⟩ := lists.succeeds ⟨bytes, written⟩
  refine ⟨_, listed, body', written', ?_⟩
  rw [lists.normal_iff, List.append_nil]
  constructor
  · rintro rfl
    have again := Codec.listing_reads (Listing.fits_ofDesign valid) written' []
    cases listed.symm.trans again
    rfl
  · intro same
    rw [same] at written
    exact written'.unique written

/-- The listing that stands in stored bytes. -/
def listed (bytes : List UInt8) : Except Error (Listing F) := do
  let body ← Header.expect .design F bytes
  let (l, rest) ← ((Codec.listing (F := F)).read.parse body).mapError .codec
  (Reader.finish rest).mapError .codec
  return l

theorem listed_eq_ok {l : Listing F} {body : List UInt8} (read : Codec.listing.read body = .ok l []) :
    listed (Header.bytes .design F ++ body) = .ok l := by
  simp only [listed, bind_eq_ok, mapError_eq_ok, Prod.exists]
  exact ⟨body, Header.expect_eq_ok_iff.mpr rfl, l, [], Reader.parse_eq_ok_iff.mpr read, (), Reader.finish_eq_ok_iff.mpr rfl, rfl⟩

end Design

namespace Solver

/-- The listing that stands in the bytes of a stored solver. -/
def listed (bytes : List UInt8) : Except Error (Listing F) := do
  let body ← Header.expect .solver F bytes
  let (_, rest) ← (Codec.solverCounts.read.parse body).mapError .codec
  let (l, rest) ← ((Codec.listing (F := F)).read.parse rest).mapError .codec
  (Reader.finish rest).mapError .codec
  return l

theorem listed_eq_ok {counts : SolverCounts} {l : Listing F} {head body : List UInt8}
    (opened : (Codec.solverCounts.write counts).Writes head) (read : Codec.listing.read body = .ok l []) :
    listed (Header.bytes .solver F ++ (head ++ body)) = .ok l := by
  have opened := Codec.solverCounts_lawful.reads trivial opened body
  simp only [listed, bind_eq_ok, mapError_eq_ok, Prod.exists]
  exact ⟨head ++ body, Header.expect_eq_ok_iff.mpr rfl, counts, body, Reader.parse_eq_ok_iff.mpr opened, l, [],
    Reader.parse_eq_ok_iff.mpr read, (), Reader.finish_eq_ok_iff.mpr rfl, rfl⟩

end Solver

namespace Design

/-- Accepted bytes are stored again in the normal form, which is read as the same design, or solver. -/
theorem stored_again :
    (∀ (bytes : List UInt8) (D : Design F), ofBytes bytes = .ok D →
      ∃ (l : Listing F) (bytes' : List UInt8), listed bytes = .ok l ∧ D.toBytes = .ok bytes' ∧ ofBytes bytes' = .ok D ∧
        (bytes' = bytes ↔ l.Normal)) ∧
    ∀ (bytes : List UInt8) (hints : HintRegistry F) (s : Solver F), Solver.ofBytes bytes hints = .ok s →
      ∃ (l : Listing F) (bytes' : List UInt8), Solver.listed bytes = .ok l ∧ s.toBytes = .ok bytes' ∧
        Solver.ofBytes bytes' hints = .ok s ∧ (bytes' = bytes ↔ l.Normal) := by
  constructor
  · intro bytes D read
    obtain ⟨checked, names, body, rfl, inside⟩ := ofBytes_eq_ok read
    obtain ⟨l, listed, body', written, same⟩ := rewrites (valid_of_validate checked) inside
    have stored := toBytes_eq_ok_iff.mpr ⟨body', written, rfl⟩
    refine ⟨l, _, listed_eq_ok listed, stored, ofBytes_toBytes checked stored, ?_⟩
    rw [List.append_cancel_left_eq, same]
  · intro bytes hints s read
    obtain ⟨checked, made, counts, head, names, body, counted, opened, rfl, inside⟩ := Solver.ofBytes_eq_ok read
    obtain ⟨l, listed, body', written, same⟩ := rewrites (valid_of_validate checked) inside
    have stored := Solver.toBytes_eq_ok_iff.mpr ⟨counts, head, body', counted, opened, written, rfl⟩
    have registered := (Solver.new_eq_ok_iff.mp made).1
    have again := (Solver.ofBytes_toBytes checked made registered stored).trans made
    refine ⟨l, _, Solver.listed_eq_ok opened listed, stored, again, ?_⟩
    rw [List.append_cancel_left_eq, List.append_cancel_left_eq, same]

/-- The circuits of the design for reciprocals, last first, under a table with a name that none of them uses. -/
def shuffled : Listing .mersenne31 := ⟨["guess", "spare"], reciprocal.circuits.entries.reverse⟩

/-- The shuffled listing after the head of a design. -/
def shuffledBytes : List UInt8 :=
  let writer : Writer Unit := do
    Header.write .design .mersenne31
    Codec.listing.write shuffled
  writer.toBytes.toOption.getD []

/-- The shuffled listing is read and stored as other bytes; a solver that was stored is stored as the same. -/
theorem reciprocal_stored_again :
    (∃ bytes', ofBytes shuffledBytes = .ok reciprocal ∧ reciprocal.toBytes = .ok bytes' ∧ ofBytes bytes' = .ok reciprocal ∧
      bytes' ≠ shuffledBytes) ∧
    ∃ (s : Solver .mersenne31) (bytes : List UInt8) (l : Listing .mersenne31), s.toBytes = .ok bytes ∧
      Solver.ofBytes bytes Solver.reciprocalHints = .ok s ∧ Solver.listed bytes = .ok l ∧ l.Normal := by
  obtain ⟨designs, solvers⟩ := stored_again (F := .mersenne31)
  constructor
  · have read : ofBytes shuffledBytes = .ok reciprocal := by decide +kernel
    have stands : listed shuffledBytes = .ok shuffled := by decide +kernel
    obtain ⟨l, bytes', listed, stored, again, same⟩ := designs shuffledBytes reciprocal read
    cases stands.symm.trans listed
    refine ⟨bytes', read, stored, again, fun equal => ?_⟩
    exact absurd (same.mp equal).ordered (by decide)
  · have checked : reciprocal.validate = .ok () := by decide
    have registered : ∀ name ∈ reciprocal.hintNames, Table.contains Solver.reciprocalHints name = true := by decide
    have made : Solver.new reciprocal Solver.reciprocalHints = .ok ⟨reciprocal, Solver.reciprocalHints, 1, 0⟩ := rfl
    obtain ⟨bytes, stored⟩ := exists_of_isOk
      (x := (⟨reciprocal, Solver.reciprocalHints, 1, 0⟩ : Solver .mersenne31).toBytes) (by decide +kernel)
    have read := (Solver.ofBytes_toBytes checked made registered stored).trans made
    obtain ⟨l, bytes', listed, stored', -, same⟩ := solvers bytes _ _ read
    exact ⟨_, bytes, l, stored, read, listed, same.mp (Except.ok.inj (stored'.symm.trans stored))⟩

end Design
end ArithCircuit
