import ArithCircuit.Codec.Tagged
import ArithCircuit.Proofs.Codec.Design

/-!
Designs and solvers come back from their bytes as they were, over the field they were stored for, and
over no other field. A loaded solver is the solver that the design and the registry make.
-/
namespace ArithCircuit
variable {F : ScalarField}

theorem Codec.solverCounts_lawful : solverCounts.Lawful fun _ => True := by
  have made : solverCounts = count.part (·.numInputs) fun numInputs => count.part (·.numPublic) fun numPublic =>
      count.part (·.numInstructions) fun numInstructions => count.refine (·.numConstraints)
        (fun numConstraints => some ⟨numInputs, numPublic, numInstructions, numConstraints⟩) fun _ => .bufferFull := rfl
  rw [made]
  refine ((number_lawful 4).part (fun numInputs => (number_lawful 4).part (fun numPublic => (number_lawful 4).part
    (fun numInstructions => (number_lawful 4).refine fun found => ?_)
    fun valid => ?_) fun valid => ?_) fun valid => ?_).congr fun counts => ?_
  · exact (congrArg SolverCounts.numConstraints (Option.some.inj found)).symm
  · exact (congrArg SolverCounts.numInstructions (Option.some.inj valid.2)).symm
  · exact (congrArg SolverCounts.numPublic (Option.some.inj valid.2.2)).symm
  · exact (congrArg SolverCounts.numInputs (Option.some.inj valid.2.2.2)).symm
  · simp

namespace Solver

theorem toBytes_eq_ok_iff {s : Solver F} {bytes : List UInt8} :
    s.toBytes = .ok bytes ↔ ∃ counts head body, SolverCounts.ofDesign s.design = .ok counts ∧
      (Codec.solverCounts.write counts).Writes head ∧
      (Codec.circuits.write (s.design.hintNames, s.design.circuits)).Writes body ∧
      bytes = Header.bytes .solver F ++ (head ++ body) := by
  have plain := Codec.circuits_plain s.design.hintNames_sorted s.design.circuits
  simp only [toBytes, bind_eq_ok, mapError_eq_ok (x := SolverCounts.ofDesign _)]
  constructor
  · rintro ⟨counts, counted, stored⟩
    have head := Codec.solverCounts_lawful.plain counts
    obtain ⟨_, writes, rfl⟩ := (Header.toBytes_eq_ok_iff (head.bind plain)).mp stored
    obtain ⟨early, late, left, right, rfl⟩ := (Writer.writes_bind_iff head plain).mp writes
    exact ⟨counts, early, late, counted, left, right, rfl⟩
  · rintro ⟨counts, early, late, counted, left, right, rfl⟩
    have head := Codec.solverCounts_lawful.plain counts
    exact ⟨counts, counted, (Header.toBytes_eq_ok_iff (head.bind plain)).mpr ⟨_, left.bind right, rfl⟩⟩

/-- Bytes are loaded as a solver of a design that keeps the rules, whose counts stand before it. -/
theorem ofBytes_eq_ok {bytes : List UInt8} {hints : HintRegistry F} {s : Solver F} (read : ofBytes bytes hints = .ok s) :
    s.design.validate = .ok () ∧ new s.design hints = .ok s ∧
      ∃ counts head names body, SolverCounts.ofDesign s.design = .ok counts ∧
        (Codec.solverCounts.write counts).Writes head ∧ bytes = Header.bytes .solver F ++ (head ++ body) ∧
        Codec.circuits.read body = .ok (names, s.design.circuits) [] := by
  simp only [ofBytes, bind_eq_ok, mapError_eq_ok, Header.expect_eq_ok_iff, Design.ofCircuits_eq_ok_iff] at read
  obtain ⟨_, rfl, ⟨counts, rest⟩, opened, ⟨⟨names, table⟩, rest'⟩, parsed, _, ended, D, ⟨same, checked⟩, _, counted, checks⟩ := read
  obtain rfl : rest' = [] := Reader.finish_eq_ok_iff.mp ended
  obtain ⟨-, head, written, rfl⟩ := Codec.solverCounts_lawful.writes (Reader.parse_eq_ok_iff.mp opened)
  have inside : Codec.circuits.read rest = .ok (names, D.circuits) [] := same ▸ Reader.parse_eq_ok_iff.mp parsed
  split at checks
  · cases checks
  · rename_i agree
    split at checks
    · cases checks
    · obtain ⟨-, entry, found, rfl⟩ := new_eq_ok_iff.mp checks
      rw [not_not.mp agree] at counted
      exact ⟨checked, checks, counts, head, names, rest, counted, written, rfl, inside⟩

/-- A stored solver is loaded as the solver of its design and the registry at hand. -/
theorem ofBytes_toBytes {D : Design F} (checked : D.validate = .ok ()) {hints₀ hints : HintRegistry F} {s : Solver F}
    (made : new D hints₀ = .ok s) (registered : ∀ name ∈ D.hintNames, Table.contains hints name = true)
    {bytes : List UInt8} (stored : s.toBytes = .ok bytes) : ofBytes bytes hints = new D hints := by
  obtain ⟨-, entry, found, rfl⟩ := new_eq_ok_iff.mp made
  obtain ⟨counts, head, body, counted, left, right, rfl⟩ := toBytes_eq_ok_iff.mp stored
  have opened : Codec.solverCounts.read.parse (head ++ body) = .ok (counts, body) :=
    Reader.parse_eq_ok_iff.mpr (Codec.solverCounts_lawful.reads trivial left body)
  have listed : (D.hintNames.find? fun name => !Table.contains hints name) = none := by
    simpa using registered
  simp only [ofBytes, Header.expect_eq_ok_iff.mpr rfl, ok_bind, opened, (Design.valid_of_validate checked).reads right,
    Except.mapError, Reader.finish_eq_ok_iff.mpr rfl, Design.ofCircuits_eq_ok_iff.mpr ⟨rfl, checked⟩, counted, listed]
  rw [if_neg (not_not.mpr rfl)]

end Solver

namespace Design

/-- A design that keeps the rules, and every solver over it, is what its bytes are read as. -/
theorem stored_faithfully {D : Design F} (checked : D.validate = .ok ()) :
    (∀ bytes, D.toBytes = .ok bytes → ofBytes bytes = .ok D ∧
      (∀ G, F ≠ G → ofBytes (F := G) bytes = .error (.fieldMismatch G F)) ∧ Tagged.designOfBytes bytes = .ok ⟨F, D⟩) ∧
    ∀ hints₀ s bytes, Solver.new D hints₀ = .ok s → s.toBytes = .ok bytes →
      ∀ hints, (∀ name ∈ D.hintNames, Table.contains hints name = true) →
        ∃ s', Solver.ofBytes bytes hints = .ok s' ∧ Solver.new D hints = .ok s' ∧
          s'.design = D ∧ s'.numInputs = s.numInputs ∧ s'.numPublic = s.numPublic := by
  constructor
  · intro bytes stored
    have read := ofBytes_toBytes checked stored
    obtain ⟨body, -, rfl⟩ := toBytes_eq_ok_iff.mp stored
    refine ⟨read, ?_, ?_⟩
    · intro G differ
      rw [ofBytes, Header.expect_of_ne differ]
      rfl
    · rw [Tagged.designOfBytes, Tagged.decode, Header.peek_bytes, ok_bind, read]
      rfl
  · intro hints₀ s bytes made stored hints registered
    obtain ⟨-, entry, found, rfl⟩ := Solver.new_eq_ok_iff.mp made
    have made' := Solver.new_eq_ok_iff.mpr ⟨registered, entry, found, rfl⟩
    exact ⟨_, (Solver.ofBytes_toBytes checked made registered stored).trans made', made', rfl, rfl, rfl⟩

theorem reciprocal_stored_faithfully :
    (∃ bytes, reciprocal.toBytes = .ok bytes ∧ ofBytes bytes = .ok reciprocal ∧
      ofBytes (F := .bn254) bytes = .error (.fieldMismatch .bn254 .mersenne31) ∧
      Tagged.designOfBytes bytes = .ok ⟨.mersenne31, reciprocal⟩) ∧
    ∃ s bytes, Solver.new reciprocal Solver.reciprocalHints = .ok s ∧ s.toBytes = .ok bytes ∧
      ∃ s', Solver.ofBytes bytes Solver.reciprocalHints = .ok s' ∧ s'.design = reciprocal ∧ s'.numInputs = s.numInputs := by
  obtain ⟨designs, solvers⟩ := stored_faithfully (D := reciprocal) (by decide)
  constructor
  · obtain ⟨bytes, stored⟩ := exists_of_isOk (x := reciprocal.toBytes) (by decide +kernel)
    obtain ⟨read, mismatch, tagged⟩ := designs bytes stored
    exact ⟨bytes, stored, read, mismatch .bn254 (by decide), tagged⟩
  · have registered : ∀ name ∈ reciprocal.hintNames, Table.contains Solver.reciprocalHints name = true := by decide
    obtain ⟨entry, found⟩ : ∃ entry, reciprocal.get? .entry = some entry := ⟨_, rfl⟩
    have made := Solver.new_eq_ok_iff.mpr ⟨registered, entry, found, rfl⟩
    cases found
    obtain ⟨bytes, stored⟩ := exists_of_isOk
      (x := (⟨reciprocal, Solver.reciprocalHints, 1, 0⟩ : Solver .mersenne31).toBytes) (by decide +kernel)
    obtain ⟨s', read, -, sameDesign, sameInputs, -⟩ := solvers _ _ bytes made stored _ registered
    exact ⟨_, bytes, made, stored, s', read, sameDesign, sameInputs⟩

end Design
end ArithCircuit
