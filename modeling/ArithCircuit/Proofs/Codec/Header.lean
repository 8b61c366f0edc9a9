import ArithCircuit.Codec.Header
import ArithCircuit.Proofs.Codec.Stream

/-!
The head of an artifact tells its kind and its field and nothing else: there is one head for each, and
an artifact opens for its own field only.
-/
namespace ArithCircuit

theorem ScalarField.ofId?_eq_some_iff {n : Nat} {F : ScalarField} : ofId? n = some F ↔ n = F.id := by
  constructor
  · intro found
    have same := List.find?_some found
    exact (beq_iff_eq.mp same).symm
  · rintro rfl
    cases F <;> rfl

theorem Reader.parse_eq_ok_iff {α : Type} {reader : Reader α} {input rest : List UInt8} {x : α} :
    reader.parse input = .ok (x, rest) ↔ reader input = .ok x rest := by
  rw [parse]
  cases reader input with
  | ok y remaining => simp
  | error e remaining => simp

theorem Reader.finish_eq_ok_iff {rest : List UInt8} : finish rest = .ok () ↔ rest = [] := by
  cases rest <;> simp [finish]

namespace Header

/-- The bytes of a head. -/
def bytes (artifact : Artifact) (F : ScalarField) : List UInt8 :=
  artifact.magic ++ (littleEndian 2 formatVersion ++ littleEndian 1 F.id)

theorem write_writes (artifact : Artifact) (F : ScalarField) : (write artifact F).Writes (bytes artifact F) := by
  have version : ((Codec.number 2).write formatVersion).Writes (littleEndian 2 formatVersion) :=
    Codec.number_writes_iff.mpr ⟨by decide, rfl⟩
  have field : ((Codec.number 1).write F.id).Writes (littleEndian 1 F.id) :=
    Codec.number_writes_iff.mpr ⟨by cases F <;> decide, rfl⟩
  exact (Writer.writes_put_iff.mpr rfl).bind (version.bind field)

theorem write_plain (artifact : Artifact) (F : ScalarField) : (write artifact F).Plain :=
  (Writer.Plain.put _).bind (((Codec.number_lawful 2).plain _).bind ((Codec.number_lawful 1).plain _))

/-- An artifact is its head and then what its writer writes. -/
theorem toBytes_eq_ok_iff {artifact : Artifact} {F : ScalarField} {writer : Writer Unit} (plain : writer.Plain)
    {stored : List UInt8} :
    (write artifact F >>= fun _ => writer).toBytes.mapError Error.codec = .ok stored ↔
      ∃ body, writer.Writes body ∧ stored = bytes artifact F ++ body := by
  rw [mapError_eq_ok, ((write_plain _ _).bind plain).toBytes_eq_ok_iff, Writer.writes_bind_iff (write_plain _ _) plain]
  constructor
  · rintro ⟨head, body, opened, written, rfl⟩
    exact ⟨body, written, by rw [opened.unique (write_writes _ _)]⟩
  · rintro ⟨body, written, rfl⟩
    exact ⟨_, body, write_writes _ _, written, rfl⟩

theorem readField_eq_ok_iff {input rest : List UInt8} {F : ScalarField} :
    readField input = .ok F rest ↔ input = littleEndian 2 formatVersion ++ (littleEndian 1 F.id ++ rest) := by
  constructor
  · intro read
    obtain ⟨version, middle, readVersion, checked⟩ := run_bind_eq_ok.mp read
    obtain ⟨-, early, written, rfl⟩ := (Codec.number_lawful 2).writes readVersion
    obtain ⟨-, rfl⟩ := Codec.number_writes_iff.mp written
    split at checked
    · cases checked
    · rename_i supported
      obtain rfl := not_not.mp supported
      obtain ⟨id, last, readId, ended⟩ := run_bind_eq_ok.mp checked
      obtain ⟨-, late, written, rfl⟩ := (Codec.number_lawful 1).writes readId
      obtain ⟨-, rfl⟩ := Codec.number_writes_iff.mp written
      cases found : ScalarField.ofId? id with
      | none =>
        rw [found] at ended
        cases ended
      | some G =>
        rw [found] at ended
        cases ended
        rw [ScalarField.ofId?_eq_some_iff.mp found]
  · rintro rfl
    have field : ((Codec.number 1).write F.id).Writes (littleEndian 1 F.id) :=
      Codec.number_writes_iff.mpr ⟨by cases F <;> decide, rfl⟩
    have version : ((Codec.number 2).write formatVersion).Writes (littleEndian 2 formatVersion) :=
      Codec.number_writes_iff.mpr ⟨by decide, rfl⟩
    refine run_bind_eq_ok.mpr ⟨_, _, (Codec.number_lawful 2).reads trivial version _, ?_⟩
    rw [if_neg (not_not.mpr rfl)]
    refine run_bind_eq_ok.mpr ⟨_, _, (Codec.number_lawful 1).reads trivial field _, ?_⟩
    rw [ScalarField.ofId?_eq_some_iff.mpr rfl]
    rfl

theorem length_magic (artifact : Artifact) : artifact.magic.length = 4 := by
  cases artifact <;> rfl

theorem read_eq_ok_iff {artifact : Artifact} {input rest : List UInt8} {F : ScalarField} :
    read artifact input = .ok F rest ↔ input = bytes artifact F ++ rest := by
  rw [bytes, List.append_assoc, List.append_assoc]
  constructor
  · intro opened
    obtain ⟨magic, middle, taken, checked⟩ := run_bind_eq_ok.mp opened
    obtain ⟨rfl, -⟩ := Reader.take_eq_ok_iff.mp taken
    split at checked
    · cases checked
    · rename_i known
      rw [not_not.mp known, readField_eq_ok_iff.mp checked]
  · rintro rfl
    refine run_bind_eq_ok.mpr ⟨artifact.magic, _, Reader.take_eq_ok_iff.mpr ⟨rfl, length_magic artifact⟩, ?_⟩
    rw [if_neg (not_not.mpr rfl)]
    exact readField_eq_ok_iff.mpr rfl

/-- An artifact opens for a field exactly when it has the head of that field. -/
theorem expect_eq_ok_iff {artifact : Artifact} {F : ScalarField} {input rest : List UInt8} :
    expect artifact F input = .ok rest ↔ input = bytes artifact F ++ rest := by
  rw [← read_eq_ok_iff]
  simp only [expect, bind_eq_ok, mapError_eq_ok, Prod.exists, Reader.parse_eq_ok_iff]
  constructor
  · rintro ⟨G, remaining, opened, ended⟩
    split at ended
    · cases ended
    · rename_i same
      cases ended
      rwa [not_not.mp same] at opened
  · intro opened
    exact ⟨F, rest, opened, if_neg (not_not.mpr rfl)⟩

theorem expect_of_ne {artifact : Artifact} {F G : ScalarField} (differ : F ≠ G) (rest : List UInt8) :
    expect artifact G (bytes artifact F ++ rest) = .error (.fieldMismatch G F) := by
  have opened : (read artifact).parse (bytes artifact F ++ rest) = .ok (F, rest) :=
    Reader.parse_eq_ok_iff.mpr (read_eq_ok_iff.mpr rfl)
  rw [expect, opened]
  exact if_pos differ

/-- The field of an artifact is told without knowing its kind. -/
theorem peek_bytes (artifact : Artifact) (F : ScalarField) (rest : List UInt8) :
    peek (bytes artifact F ++ rest) = .ok F := by
  have known : artifact.magic ∈ Artifact.all.map Artifact.magic :=
    List.mem_map_of_mem (by cases artifact <;> decide)
  have opened : readAny.parse (bytes artifact F ++ rest) = .ok (F, rest) := by
    rw [Reader.parse_eq_ok_iff, bytes, List.append_assoc, List.append_assoc]
    refine run_bind_eq_ok.mpr ⟨artifact.magic, _, Reader.take_eq_ok_iff.mpr ⟨rfl, length_magic artifact⟩, ?_⟩
    rw [if_pos known]
    exact readField_eq_ok_iff.mpr rfl
  rw [peek, opened]
  rfl

end Header
end ArithCircuit
