import ArithCircuit.Codec.Stream

/-!
The head of every stored artifact: four bytes that tell its kind, the version of the format, and the
field.
-/
namespace ArithCircuit

/-- The kinds of stored artifacts. -/
inductive Artifact where
  | design | solver | layered
deriving DecidableEq, Repr

namespace Artifact

def all : List Artifact := [design, solver, layered]

/-- The first bytes of an artifact. -/
def magic : Artifact → List UInt8
  | design => [69, 67, 73, 82]
  | solver => [69, 67, 73, 83]
  | layered => [69, 67, 76, 67]

end Artifact

/-- The version that is written, and the only one that is read. -/
def formatVersion : Nat := 1

namespace Header

def write (artifact : Artifact) (F : ScalarField) : Writer Unit := do
  Writer.put artifact.magic
  (Codec.number 2).write formatVersion
  (Codec.number 1).write F.id

/-- What follows the first four bytes. -/
def readField : Reader ScalarField := do
  let version ← (Codec.number 2).read
  if version ≠ formatVersion then throw (.unsupportedVersion version)
  let id ← (Codec.number 1).read
  match ScalarField.ofId? id with
  | some F => return F
  | none => throw (.unknownChoice .field id)

/-- The head of an artifact of a known kind. -/
def read (artifact : Artifact) : Reader ScalarField := do
  let magic ← Reader.take 4
  if magic ≠ artifact.magic then throw (.badMagic artifact.magic magic)
  readField

/-- The head of an artifact of any kind. -/
def readAny : Reader ScalarField := do
  let magic ← Reader.take 4
  if magic ∈ Artifact.all.map Artifact.magic then readField
  else throw (.badMagic Artifact.design.magic magic)

/-- Opens an artifact of a field. Returns what follows its head. -/
def expect (artifact : Artifact) (F : ScalarField) (bytes : List UInt8) : Except Error (List UInt8) := do
  let (got, rest) ← ((read artifact).parse bytes).mapError .codec
  if got ≠ F then throw (.fieldMismatch F got)
  return rest

/-- The field of an artifact of any kind. -/
def peek (bytes : List UInt8) : Except Error ScalarField := do
  let (F, _) ← (readAny.parse bytes).mapError .codec
  return F

end Header
end ArithCircuit
