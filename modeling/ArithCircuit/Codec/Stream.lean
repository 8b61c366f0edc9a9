import ArithCircuit.Error
import ArithCircuit.Scalar.Bytes

/-!
Byte streams. A writer appends chunks to a buffer, which may be bounded; a chunk that does not fit
is not written at all, and what came before it stays. A reader takes chunks off the front of its
input; a failed reader keeps what it took. A codec is a writer and a reader of one type.
-/
namespace ArithCircuit

/-- Bytes written so far, and how many there may be. -/
structure Buffer where
  bytes : Array UInt8
  capacity : Option Nat

namespace Buffer

/-- An empty buffer without a bound. -/
def unbounded : Buffer := ⟨#[], none⟩

/-- An empty buffer of a fixed size. -/
def bounded (capacity : Nat) : Buffer := ⟨#[], some capacity⟩

/-- Whether `count` more bytes fit. -/
def fits (buffer : Buffer) (count : Nat) : Bool :=
  match buffer.capacity with
  | none => true
  | some capacity => decide (buffer.bytes.size + count ≤ capacity)

/-- The bytes of the buffer, with zeros where a buffer of a fixed size has not been written. -/
def contents (buffer : Buffer) : List UInt8 :=
  match buffer.capacity with
  | none => buffer.bytes.toList
  | some capacity => buffer.bytes.toList ++ List.replicate (capacity - buffer.bytes.size) 0

end Buffer

abbrev Writer := EStateM CodecError Buffer

abbrev Reader := EStateM CodecError (List UInt8)

/-- Writes a chunk whole, or not at all. -/
def Writer.put (chunk : List UInt8) : Writer Unit := fun buffer =>
  if buffer.fits chunk.length then .ok () { buffer with bytes := buffer.bytes ++ chunk }
  else .error .bufferFull buffer

/-- The bytes of a writer without a bound. -/
def Writer.toBytes (writer : Writer Unit) : Except CodecError (List UInt8) :=
  match writer .unbounded with
  | .ok () buffer => .ok buffer.bytes.toList
  | .error e _ => .error e

/-- Takes `count` bytes, or none if there are fewer. -/
def Reader.take (count : Nat) : Reader (List UInt8) := fun input =>
  let chunk := input.take count
  if chunk.length = count then .ok chunk (input.drop count) else .error .notEnoughBytes input

/-- The value a reader takes and the input that is left. -/
def Reader.parse {α : Type} (reader : Reader α) (input : List UInt8) :
    Except CodecError (α × List UInt8) :=
  match reader input with
  | .ok value rest => .ok (value, rest)
  | .error e _ => .error e

/-- Nothing may be left. -/
def Reader.finish (rest : List UInt8) : Except CodecError Unit :=
  if rest.isEmpty then .ok () else .error (.trailingBytes rest.length)

/-- How values of a type are written and read. -/
structure Codec (α : Type) where
  write : α → Writer Unit
  read : Reader α

namespace Codec
variable {α : Type} {F : ScalarField}

/-- Numbers of a fixed number of bytes, lowest first. Larger numbers are not written. -/
def number (width : Nat) : Codec Nat where
  write n := if n < Nat.pow 256 width then Writer.put (littleEndian width n) else throw (.numberTooLarge n)
  read := return ofLittleEndian (← Reader.take width)

/-- Counts and positions take four bytes. -/
def count : Codec Nat := number 4

def wire : Codec Wire := number 4

def circuitId : Codec CircuitId := number 8

/-- Text as UTF-8, after its length in bytes. -/
def text : Codec String where
  write s := do
    let bytes := s.toUTF8.toList
    count.write bytes.length
    Writer.put bytes
  read := do
    let length ← count.read
    let bytes ← Reader.take length
    match String.fromUTF8? bytes.toByteArray with
    | some s => return s
    | none => throw .invalidText

/-- Field elements in their byte form. -/
def scalar : Codec (Scalar F) where
  write a := Writer.put a.toBytes
  read := do
    match Scalar.ofBytes? (← Reader.take F.byteLength) with
    | some a => return a
    | none => throw .nonCanonicalScalar

def writeAll (write : α → Writer Unit) : List α → Writer Unit
  | [] => return ()
  | x :: rest => do
    write x
    writeAll write rest

/-- Reads `count` values, after those already read, which are listed last first. -/
def readMany (read : Reader α) : (count : Nat) → List α → Reader (List α)
  | 0, values => return values.reverse
  | count + 1, values => do
    let value ← read
    readMany read count (value :: values)

/-- Lists, after their length. -/
def list (c : Codec α) : Codec (List α) where
  write xs := do
    count.write xs.length
    writeAll c.write xs
  read := do
    let length ← count.read
    readMany c.read length []

end Codec
end ArithCircuit
