import ArithCircuit.Proofs.Codec.Design
import ArithCircuit.Proofs.Codec.Layered

/-!
Writing into a buffer of a fixed size. A chunk is written whole or not at all, and a writer stops at the first
chunk that has no room. So it writes all that it would write without a bound, if there is room for all of it,
and else it reports a full buffer after a part that all of it begins with. This goes through from chunks to one
writer after another, and so to every codec, however deep its lists are nested.
-/
namespace ArithCircuit

/-! ### Writers -/

namespace Writer

/-- Behind any bytes of a buffer, a writer writes the given bytes. Without room for all of them it reports a
    full buffer, after some that they begin with. -/
structure Fills (writer : Writer Unit) (bytes : List UInt8) : Prop where
  whole : ∀ {earlier : Array UInt8} {capacity : Nat}, earlier.size + bytes.length ≤ capacity →
    writer ⟨earlier, some capacity⟩ = .ok () ⟨earlier ++ bytes, some capacity⟩
  part : ∀ {earlier : Array UInt8} {capacity : Nat}, earlier.size ≤ capacity → capacity < earlier.size + bytes.length →
    ∃ written, written <+: bytes ∧ earlier.size + written.length ≤ capacity ∧
      writer ⟨earlier, some capacity⟩ = .error .bufferFull ⟨earlier ++ written, some capacity⟩

namespace Fills

theorem put (chunk : List UInt8) : (Writer.put chunk).Fills chunk where
  whole room := if_pos (decide_eq_true room)
  part {earlier capacity} before full := by
    have refused : ¬ Buffer.fits ⟨earlier, some capacity⟩ chunk.length = true := by
      simpa [Buffer.fits] using full
    refine ⟨[], List.nil_prefix, before, ?_⟩
    rw [Writer.put, if_neg refused, Array.appendList_nil]

theorem done : (Pure.pure () : Writer Unit).Fills [] where
  whole _ := by
    rw [Array.appendList_nil]
    rfl
  part before full := absurd full (Nat.not_lt.mpr before)

/-- One writer after another. The second is reached if there is room for all that the first writes. -/
theorem bind {first second : Writer Unit} {bytes bytes' : List UInt8} (left : first.Fills bytes)
    (right : second.Fills bytes') : (first >>= fun _ => second).Fills (bytes ++ bytes') where
  whole {earlier capacity} room := by
    rw [List.length_append, ← Nat.add_assoc] at room
    rw [← appendList_append]
    refine run_bind_eq_ok.mpr ⟨(), _, left.whole ((Nat.le_add_right _ _).trans room), right.whole ?_⟩
    rwa [size_appendList]
  part {earlier capacity} before full := by
    rw [List.length_append, ← Nat.add_assoc] at full
    by_cases room : earlier.size + bytes.length ≤ capacity
    · have size : (earlier ++ bytes).size = earlier.size + bytes.length := size_appendList earlier bytes
      obtain ⟨written, begins, inside, failed⟩ := right.part (size.trans_le room) (size.symm ▸ full)
      rw [size, Nat.add_assoc, ← List.length_append] at inside
      rw [appendList_append] at failed
      refine ⟨bytes ++ written, (List.prefix_append_right_inj bytes).mpr begins, inside, ?_⟩
      exact run_bind_eq_error.mpr (.inr ⟨(), _, left.whole room, failed⟩)
    · obtain ⟨written, begins, inside, failed⟩ := left.part before (Nat.lt_of_not_le room)
      exact ⟨written, begins.trans (List.prefix_append bytes bytes'), inside, run_bind_eq_error.mpr (.inl failed)⟩

end Fills

theorem Writes.fills {writer : Writer Unit} {bytes : List UInt8} (writes : writer.Writes bytes) : writer.Fills bytes := by
  obtain ⟨chunks, rfl, rfl⟩ := writes
  induction chunks with
  | nil => exact .done
  | cons chunk rest ih => exact (Fills.put chunk).bind ih

end Writer

/-! ### Types of stored values -/

/-- The types whose values are stored on their own. -/
inductive StoredType
  | number (width : Nat)
  | count
  | wire
  | circuitId
  | text
  | scalar (F : ScalarField)
  | form (F : ScalarField)
  | gate (F : ScalarField)
  | list (item : StoredType)

namespace StoredType

def Value : StoredType → Type
  | number _ => Nat
  | count => Nat
  | wire => Wire
  | circuitId => CircuitId
  | text => String
  | scalar F => Scalar F
  | form F => LinearForm F
  | gate F => Gate F
  | list item => List item.Value

def codec : (t : StoredType) → Codec t.Value
  | number width => .number width
  | count => .count
  | wire => .wire
  | circuitId => .circuitId
  | text => .text
  | scalar _ => .scalar
  | form _ => .form
  | gate _ => .gate
  | list item => .list item.codec

/-- The values that are read back. -/
def Canonical : (t : StoredType) → t.Value → Prop
  | form _ => fun e => LinearForm.isCanonical e = true
  | list item => fun (xs : List item.Value) => ∀ x ∈ xs, item.Canonical x
  | _ => fun _ => True

theorem lawful (t : StoredType) : t.codec.Lawful t.Canonical := by
  induction t with
  | number width => exact Codec.number_lawful width
  | count => exact Codec.number_lawful 4
  | wire => exact Codec.number_lawful 4
  | circuitId => exact Codec.number_lawful 8
  | text => exact Codec.text_lawful
  | scalar F => exact Codec.scalar_lawful
  | form F => exact Codec.form_lawful
  | gate F => exact Codec.gate_lawful
  | list item ih => exact Codec.list_lawful ih

/-- Into a buffer of a fixed size a value is written as it is without a bound, if and only if there is room.
    Otherwise the buffer is reported full, with a part in it that the whole begins with. -/
theorem write_bounded (t : StoredType) (x : t.Value) {bytes : List UInt8} (whole : (t.codec.write x).toBytes = .ok bytes)
    (capacity : Nat) :
    ((∃ buffer, t.codec.write x (.bounded capacity) = .ok () buffer) ↔ bytes.length ≤ capacity) ∧
    (∀ buffer, t.codec.write x (.bounded capacity) = .ok () buffer → buffer.bytes.toList = bytes) ∧
    (¬ bytes.length ≤ capacity → ∃ buffer, t.codec.write x (.bounded capacity) = .error .bufferFull buffer ∧
      buffer.bytes.toList <+: bytes ∧ buffer.bytes.toList ≠ bytes ∧ buffer.bytes.size ≤ capacity) := by
  have fills := ((t.lawful.plain x).toBytes_eq_ok_iff.mp whole).fills
  have empty (n : Nat) : (#[] : Array UInt8).size + n = n := Nat.zero_add n
  by_cases room : bytes.length ≤ capacity
  · have done : t.codec.write x (.bounded capacity) = .ok () ⟨#[] ++ bytes, some capacity⟩ :=
      fills.whole ((empty _).trans_le room)
    rw [done]
    refine ⟨⟨fun _ => room, fun _ => ⟨_, rfl⟩⟩, ?_, fun full => absurd room full⟩
    rintro buffer ⟨⟩
    simp
  · obtain ⟨written, begins, inside, failed⟩ :=
      fills.part (Nat.zero_le capacity) ((Nat.lt_of_not_le room).trans_eq (empty _).symm)
    have failed : t.codec.write x (.bounded capacity) = .error .bufferFull ⟨#[] ++ written, some capacity⟩ := failed
    rw [empty] at inside
    rw [failed]
    refine ⟨⟨nofun, fun fits => absurd fits room⟩, nofun, fun _ => ⟨_, rfl, ?_, ?_, ?_⟩⟩
    · simpa using begins
    · rintro rfl
      simp at room
      omega
    · simpa using inside

/-- Ten bytes hold a list of one text of two letters. Nine hold the two lengths, and no letter. -/
theorem write_bounded_text : ∃ bytes, ((list text).codec.write ["ab"]).toBytes = .ok bytes ∧ bytes.length = 10 ∧
    (∃ buffer, (list text).codec.write ["ab"] (.bounded 10) = .ok () buffer ∧ buffer.bytes.toList = bytes) ∧
    ∃ buffer, (list text).codec.write ["ab"] (.bounded 9) = .error .bufferFull buffer ∧ buffer.bytes.toList <+: bytes ∧
      buffer.bytes.toList ≠ bytes ∧ buffer.bytes.size ≤ 9 := by
  have whole : ((list text).codec.write ["ab"]).toBytes = .ok [1, 0, 0, 0, 2, 0, 0, 0, 97, 98] := by decide +kernel
  obtain ⟨fits, written, -⟩ := write_bounded (list text) ["ab"] whole 10
  obtain ⟨buffer, done⟩ := fits.mpr le_rfl
  obtain ⟨-, -, full⟩ := write_bounded (list text) ["ab"] whole 9
  exact ⟨_, whole, rfl, ⟨buffer, done, written buffer done⟩, full (by decide)⟩

end StoredType
end ArithCircuit
