import ArithCircuit.Codec.Stream
import ArithCircuit.Proofs.Basic
import ArithCircuit.Proofs.Scalar.Bytes

/-!
Codecs that lose nothing. A writer is plain if it only puts chunks and then ends, so what it writes
does not depend on what was written before. A codec is lawful if it reads back what it writes, whatever
follows, and reads only what it writes. Codecs of records are put together from those of their parts.
-/
namespace ArithCircuit

namespace Writer

/-- Writes chunks in order, and then fails if there is an error. -/
def ofChunks : List (List UInt8) → Option CodecError → Writer Unit
  | [], none => return ()
  | [], some e => throw e
  | chunk :: rest, ending => do
    put chunk
    ofChunks rest ending

/-- A writer that writes chunks in order and then ends, well or with an error. -/
def Plain (writer : Writer Unit) : Prop := ∃ chunks ending, writer = ofChunks chunks ending

/-- A writer that writes chunks in order, which join to the given bytes. -/
def Writes (writer : Writer Unit) (bytes : List UInt8) : Prop :=
  ∃ chunks, writer = ofChunks chunks none ∧ chunks.flatten = bytes

theorem ofChunks_bind (first second : List (List UInt8)) (ending : Option CodecError) :
    (ofChunks first none >>= fun _ => ofChunks second ending) = ofChunks (first ++ second) ending := by
  induction first with
  | nil => rfl
  | cons chunk rest ih => rw [ofChunks, bind_assoc, ih, List.cons_append, ofChunks]

theorem ofChunks_error_bind (chunks : List (List UInt8)) (e : CodecError) (next : Writer Unit) :
    (ofChunks chunks (some e) >>= fun _ => next) = ofChunks chunks (some e) := by
  induction chunks with
  | nil => rfl
  | cons chunk rest ih => rw [ofChunks, bind_assoc, ih]

/-- Without a bound, chunks are written one after another. -/
theorem ofChunks_unbounded (chunks : List (List UInt8)) (bytes : Array UInt8) :
    ofChunks chunks none ⟨bytes, none⟩ = .ok () ⟨bytes ++ chunks.flatten, none⟩ := by
  induction chunks generalizing bytes with
  | nil => simp [ofChunks, pure, EStateM.pure]
  | cons chunk rest ih =>
    refine run_bind_eq_ok.mpr ⟨(), ⟨bytes ++ chunk, none⟩, rfl, ?_⟩
    rw [ih, appendList_append, List.flatten_cons]

theorem ofChunks_error_unbounded (chunks : List (List UInt8)) (e : CodecError) (bytes : Array UInt8) :
    ∃ buffer, ofChunks chunks (some e) ⟨bytes, none⟩ = .error e buffer := by
  induction chunks generalizing bytes with
  | nil => exact ⟨_, rfl⟩
  | cons chunk rest ih => exact ih (bytes ++ chunk)

theorem put_eq (chunk : List UInt8) : put chunk = ofChunks [chunk] none := bind_pure_unit.symm

theorem Plain.put (chunk : List UInt8) : (Writer.put chunk).Plain := ⟨[chunk], none, put_eq chunk⟩

theorem Plain.throw (e : CodecError) : (MonadExcept.throw e : Writer Unit).Plain := ⟨[], some e, rfl⟩

theorem Plain.done : (Pure.pure () : Writer Unit).Plain := ⟨[], none, rfl⟩

theorem Plain.bind {first second : Writer Unit} (left : first.Plain) (right : second.Plain) :
    (first >>= fun _ => second).Plain := by
  obtain ⟨chunks, ending, rfl⟩ := left
  obtain ⟨chunks', ending', rfl⟩ := right
  cases ending with
  | none => exact ⟨chunks ++ chunks', ending', ofChunks_bind ..⟩
  | some e => exact ⟨chunks, some e, ofChunks_error_bind ..⟩

theorem Writes.toBytes {writer : Writer Unit} {bytes : List UInt8} (writes : writer.Writes bytes) :
    writer.toBytes = .ok bytes := by
  obtain ⟨chunks, rfl, rfl⟩ := writes
  rw [Writer.toBytes, Buffer.unbounded, ofChunks_unbounded]
  simp

/-- The bytes of a plain writer are the chunks that it writes. -/
theorem Plain.toBytes_eq_ok_iff {writer : Writer Unit} (plain : writer.Plain) {bytes : List UInt8} :
    writer.toBytes = .ok bytes ↔ writer.Writes bytes := by
  refine ⟨fun written => ?_, Writes.toBytes⟩
  obtain ⟨chunks, ending, rfl⟩ := plain
  cases ending with
  | none => exact ⟨chunks, rfl, Except.ok.inj ((Writes.toBytes ⟨chunks, rfl, rfl⟩).symm.trans written)⟩
  | some e =>
    obtain ⟨buffer, failed⟩ := ofChunks_error_unbounded chunks e #[]
    rw [toBytes, Buffer.unbounded, failed] at written
    cases written

theorem Writes.unique {writer : Writer Unit} {bytes bytes' : List UInt8} (writes : writer.Writes bytes)
    (writes' : writer.Writes bytes') : bytes = bytes' :=
  Except.ok.inj (writes.toBytes.symm.trans writes'.toBytes)

theorem Writes.bind {first second : Writer Unit} {bytes bytes' : List UInt8} (left : first.Writes bytes)
    (right : second.Writes bytes') : (first >>= fun _ => second).Writes (bytes ++ bytes') := by
  obtain ⟨chunks, rfl, rfl⟩ := left
  obtain ⟨chunks', rfl, rfl⟩ := right
  exact ⟨chunks ++ chunks', ofChunks_bind .., List.flatten_append⟩

/-- Two plain writers write what each of them writes. -/
theorem writes_bind_iff {first second : Writer Unit} (left : first.Plain) (right : second.Plain) {bytes : List UInt8} :
    (first >>= fun _ => second).Writes bytes ↔
      ∃ early late, first.Writes early ∧ second.Writes late ∧ bytes = early ++ late := by
  constructor
  · intro writes
    obtain ⟨chunks, ending, rfl⟩ := left
    obtain ⟨chunks', ending', rfl⟩ := right
    have failing (chunks : List (List UInt8)) (e : CodecError) : ¬ (ofChunks chunks (some e)).Writes bytes := by
      intro written
      obtain ⟨buffer, failed⟩ := ofChunks_error_unbounded chunks e #[]
      have ended := written.toBytes
      rw [toBytes, Buffer.unbounded, failed] at ended
      cases ended
    cases ending with
    | some e =>
      rw [ofChunks_error_bind] at writes
      exact absurd writes (failing chunks e)
    | none =>
      rw [ofChunks_bind] at writes
      cases ending' with
      | some e => exact absurd writes (failing _ e)
      | none =>
        refine ⟨_, _, ⟨chunks, rfl, rfl⟩, ⟨chunks', rfl, rfl⟩, ?_⟩
        rw [writes.unique ⟨_, rfl, rfl⟩, List.flatten_append]
  · rintro ⟨early, late, left, right, rfl⟩
    exact left.bind right

theorem writes_put_iff {chunk bytes : List UInt8} : (Writer.put chunk).Writes bytes ↔ bytes = chunk := by
  have writes : (Writer.put chunk).Writes chunk := ⟨[chunk], put_eq chunk, by simp⟩
  constructor
  · exact fun other => other.unique writes
  · rintro rfl
    exact writes

theorem writes_done_iff {bytes : List UInt8} : (Pure.pure () : Writer Unit).Writes bytes ↔ bytes = [] := by
  have writes : (Pure.pure () : Writer Unit).Writes [] := ⟨[], rfl, rfl⟩
  constructor
  · exact fun other => other.unique writes
  · rintro rfl
    exact writes

theorem not_writes_throw (e : CodecError) (bytes : List UInt8) :
    ¬ (MonadExcept.throw e : Writer Unit).Writes bytes := by
  intro writes
  cases writes.toBytes

end Writer

namespace Reader

theorem take_eq_ok_iff {count : Nat} {input chunk rest : List UInt8} :
    take count input = .ok chunk rest ↔ input = chunk ++ rest ∧ chunk.length = count := by
  rw [take]
  constructor
  · intro taken
    split at taken
    · rename_i enough
      cases taken
      exact ⟨(List.take_append_drop count input).symm, enough⟩
    · cases taken
  · rintro ⟨rfl, rfl⟩
    simp

end Reader

namespace Codec
variable {α β : Type}

/-- A codec that reads back what it writes and reads nothing else. -/
structure Lawful (c : Codec α) (valid : α → Prop) : Prop where
  plain : ∀ x, (c.write x).Plain
  /-- What was written is read back, whatever follows. -/
  reads : ∀ {x bytes}, valid x → (c.write x).Writes bytes → ∀ rest, c.read (bytes ++ rest) = .ok x rest
  /-- What was read would be written so. -/
  writes : ∀ {input x rest}, c.read input = .ok x rest → valid x ∧ ∃ bytes, (c.write x).Writes bytes ∧ input = bytes ++ rest

theorem Lawful.congr {c : Codec α} {P Q : α → Prop} (lawful : c.Lawful P) (same : ∀ x, P x ↔ Q x) : c.Lawful Q where
  plain := lawful.plain
  reads valid := lawful.reads ((same _).mpr valid)
  writes read := (lawful.writes read).imp_left (same _).mp

/-! ### Codecs from codecs -/

/-- A part of a value, and then what remains to be told of a value with this part. -/
def part (c : Codec α) (get : β → α) (others : α → Codec β) : Codec β where
  write x := do
    c.write (get x)
    (others (get x)).write x
  read := do
    let a ← c.read
    (others a).read

theorem Lawful.part {c : Codec α} {get : β → α} {others : α → Codec β} {P : α → Prop} {Q : α → β → Prop}
    (first : c.Lawful P) (rest : ∀ a, (others a).Lawful (Q a)) (same : ∀ {a x}, Q a x → get x = a) :
    (c.part get others).Lawful fun x => P (get x) ∧ Q (get x) x where
  plain x := (first.plain (get x)).bind ((rest (get x)).plain x)
  reads {x bytes} valid written input := by
    obtain ⟨early, late, left, right, rfl⟩ :=
      (Writer.writes_bind_iff (first.plain (get x)) ((rest (get x)).plain x)).mp written
    rw [List.append_assoc]
    exact run_bind_eq_ok.mpr ⟨get x, late ++ input, first.reads valid.1 left _, (rest (get x)).reads valid.2 right _⟩
  writes {input x remaining} read := by
    obtain ⟨a, middle, readFirst, readRest⟩ := run_bind_eq_ok.mp read
    obtain ⟨validFirst, early, left, rfl⟩ := first.writes readFirst
    obtain ⟨validRest, late, right, rfl⟩ := (rest a).writes readRest
    obtain rfl := same validRest
    exact ⟨⟨validFirst, validRest⟩, early ++ late, left.bind right, (List.append_assoc ..).symm⟩

/-- The values that a codec's values stand for, where they stand for one. -/
def refine (c : Codec α) (stored : β → α) (value? : α → Option β) (error : α → CodecError) : Codec β where
  write y := c.write (stored y)
  read := do
    let a ← c.read
    (value? a).elim (throw (error a)) pure

theorem Lawful.refine {c : Codec α} {stored : β → α} {value? : α → Option β} {error : α → CodecError} {P : α → Prop}
    (lawful : c.Lawful P) (inverse : ∀ {a y}, value? a = some y → stored y = a) :
    (c.refine stored value? error).Lawful fun y => P (stored y) ∧ value? (stored y) = some y where
  plain y := lawful.plain (stored y)
  reads {y bytes} valid written rest := by
    refine run_bind_eq_ok.mpr ⟨stored y, rest, lawful.reads valid.1 written rest, ?_⟩
    rw [valid.2]
    rfl
  writes {input y rest} read := by
    obtain ⟨a, middle, readFirst, ended⟩ := run_bind_eq_ok.mp read
    cases found : value? a with
    | none =>
      rw [found] at ended
      cases ended
    | some y' =>
      rw [found] at ended
      cases ended
      obtain rfl := inverse found
      obtain ⟨valid, written⟩ := lawful.writes readFirst
      exact ⟨⟨valid, found⟩, written⟩

/-! ### Numbers, texts, field elements and lists -/

/-- A fixed number of bytes as they are. -/
def raw (count : Nat) : Codec (List UInt8) := ⟨Writer.put, Reader.take count⟩

theorem raw_lawful (count : Nat) : (raw count).Lawful fun bytes => bytes.length = count where
  plain := Writer.Plain.put
  reads {chunk bytes} length written rest := by
    rw [Writer.writes_put_iff.mp written]
    exact Reader.take_eq_ok_iff.mpr ⟨rfl, length⟩
  writes {input chunk rest} read := by
    obtain ⟨split, length⟩ := Reader.take_eq_ok_iff.mp read
    exact ⟨length, chunk, Writer.writes_put_iff.mpr rfl, split⟩

theorem number_writes_iff {width n : Nat} {bytes : List UInt8} :
    ((number width).write n).Writes bytes ↔ n < 256 ^ width ∧ bytes = littleEndian width n := by
  simp only [number]
  by_cases below : n < Nat.pow 256 width
  · rw [if_pos below, Writer.writes_put_iff]
    exact (and_iff_right below).symm
  · rw [if_neg below]
    exact iff_of_false (Writer.not_writes_throw _ _) fun valid => below valid.1

theorem number_lawful (width : Nat) : (number width).Lawful fun _ => True where
  plain n := by
    simp only [number]
    split
    · exact .put _
    · exact .throw _
  reads {n bytes} _ written rest := by
    obtain ⟨below, rfl⟩ := number_writes_iff.mp written
    refine run_bind_eq_ok.mpr ⟨_, rest, Reader.take_eq_ok_iff.mpr ⟨rfl, length_littleEndian width n⟩, ?_⟩
    rw [ofLittleEndian_littleEndian below]
    rfl
  writes {input n rest} read := by
    obtain ⟨chunk, middle, taken, ended⟩ := run_bind_eq_ok.mp read
    cases ended
    obtain ⟨split, rfl⟩ := Reader.take_eq_ok_iff.mp taken
    refine ⟨trivial, chunk, number_writes_iff.mpr ⟨ofLittleEndian_lt chunk, ?_⟩, split⟩
    rw [littleEndian_ofLittleEndian]

theorem scalar_lawful {F : ScalarField} : (scalar (F := F)).Lawful fun _ => True := by
  have made : scalar (F := F) =
      (raw F.byteLength).refine Scalar.toBytes Scalar.ofBytes? fun _ => .nonCanonicalScalar := by
    simp only [scalar, refine, raw]
    congr 2
    funext bytes
    cases Scalar.ofBytes? (F := F) bytes <;> rfl
  rw [made]
  refine ((raw_lawful F.byteLength).refine Scalar.ofBytes?_eq_some_iff.mp).congr fun a => ?_
  simp [Scalar.ofBytes?_eq_some_iff]

theorem toList_eq_data (bytes : ByteArray) : bytes.toList = bytes.data.toList := by
  have looped (index : Nat) (acc : List UInt8) :
      ByteArray.toList.loop bytes index acc = acc.reverse ++ bytes.data.toList.drop index := by
    induction index, acc using ByteArray.toList.loop.induct bytes with
    | case1 index acc before ih =>
      have inside : index < bytes.data.toList.length := before
      rw [ByteArray.toList.loop, if_pos before, ih, List.drop_eq_getElem_cons inside]
      simp [ByteArray.get!, getElem!_pos bytes.data index before]
    | case2 index acc after =>
      have outside : bytes.data.toList.length ≤ index := Nat.le_of_not_lt after
      rw [ByteArray.toList.loop, if_neg after, List.drop_eq_nil_of_le outside, List.append_nil]
  simp [ByteArray.toList, looped]

/-- Bytes are the text of a string exactly when they are its own. -/
theorem fromUTF8?_eq_some_iff {bytes : List UInt8} {s : String} :
    String.fromUTF8? bytes.toByteArray = some s ↔ s.toUTF8.toList = bytes := by
  have same : s.toUTF8.toList = bytes ↔ s.toUTF8 = bytes.toByteArray := by
    rw [toList_eq_data]
    constructor
    · rintro rfl
      exact ByteArray.ext (by simp)
    · intro equal
      rw [equal]
      simp
  rw [same, String.fromUTF8?]
  constructor
  · intro read
    split at read
    · cases read
      rfl
    · cases read
  · intro equal
    rw [← equal]
    exact dif_pos s.isValidUTF8

theorem text_lawful : text.Lawful fun _ => True := by
  have made : text = count.part (fun s => s.toUTF8.toList.length) fun length =>
      (raw length).refine (fun s => s.toUTF8.toList) (fun bytes => String.fromUTF8? bytes.toByteArray)
        fun _ => .invalidText := by
    simp only [text, part, refine, raw]
    congr 2
    funext length
    congr 1
    funext bytes
    cases String.fromUTF8? bytes.toByteArray <;> rfl
  rw [made]
  refine ((number_lawful 4).part (fun length => (raw_lawful length).refine fromUTF8?_eq_some_iff.mp) And.left).congr fun s => ?_
  simp [fromUTF8?_eq_some_iff]

/-- As many values as the list has. -/
def many (c : Codec α) (count : Nat) : Codec (List α) := ⟨writeAll c.write, readMany c.read count []⟩

theorem plain_writeAll {write : α → Writer Unit} (plain : ∀ x, (write x).Plain) (xs : List α) :
    (writeAll write xs).Plain := by
  induction xs with
  | nil => exact .done
  | cons x rest ih => exact (plain x).bind ih

section
variable {c : Codec α} {P : α → Prop} (lawful : c.Lawful P)

include lawful

theorem Lawful.plain_writeAll (xs : List α) : (writeAll c.write xs).Plain := Codec.plain_writeAll lawful.plain xs

theorem Lawful.reads_writeAll {xs : List α} {bytes : List UInt8} (valid : ∀ x ∈ xs, P x)
    (written : (writeAll c.write xs).Writes bytes) (earlier : List α) (rest : List UInt8) :
    readMany c.read xs.length earlier (bytes ++ rest) = .ok (earlier.reverse ++ xs) rest := by
  induction xs generalizing bytes earlier with
  | nil =>
    rw [Writer.writes_done_iff.mp written, List.append_nil]
    rfl
  | cons x xs ih =>
    obtain ⟨first, others⟩ := List.forall_mem_cons.mp valid
    obtain ⟨early, late, left, right, rfl⟩ :=
      (Writer.writes_bind_iff (lawful.plain x) (lawful.plain_writeAll xs)).mp written
    rw [List.append_assoc]
    refine run_bind_eq_ok.mpr ⟨x, late ++ rest, lawful.reads first left _, ?_⟩
    rw [ih others right, List.reverse_cons, List.append_assoc, List.singleton_append]

theorem Lawful.writes_readMany {count : Nat} {earlier ys : List α} {input rest : List UInt8}
    (read : readMany c.read count earlier input = .ok ys rest) :
    ∃ xs, ys = earlier.reverse ++ xs ∧ xs.length = count ∧ (∀ x ∈ xs, P x) ∧
      ∃ bytes, (writeAll c.write xs).Writes bytes ∧ input = bytes ++ rest := by
  induction count generalizing earlier input with
  | zero =>
    cases read
    exact ⟨[], (List.append_nil _).symm, rfl, List.forall_mem_nil _, [], Writer.writes_done_iff.mpr rfl, rfl⟩
  | succ count ih =>
    obtain ⟨x, middle, readFirst, readRest⟩ := run_bind_eq_ok.mp read
    obtain ⟨validFirst, early, left, rfl⟩ := lawful.writes readFirst
    obtain ⟨xs, rfl, rfl, validRest, late, right, rfl⟩ := ih readRest
    refine ⟨x :: xs, by simp, rfl, List.forall_mem_cons.mpr ⟨validFirst, validRest⟩, early ++ late, left.bind right, ?_⟩
    rw [List.append_assoc]

theorem many_lawful (count : Nat) : (many c count).Lawful fun xs => xs.length = count ∧ ∀ x ∈ xs, P x where
  plain := lawful.plain_writeAll
  reads {xs bytes} valid written rest := by
    obtain ⟨rfl, valid⟩ := valid
    exact lawful.reads_writeAll valid written [] rest
  writes {input xs rest} read := by
    obtain ⟨xs', rfl, length, valid, written⟩ := lawful.writes_readMany read
    exact ⟨⟨length, valid⟩, written⟩

theorem list_lawful : (list c).Lawful fun xs => ∀ x ∈ xs, P x := by
  have counted : ((number 4).part List.length (many c)).Lawful _ := (number_lawful 4).part (many_lawful lawful) And.left
  refine counted.congr fun xs => ?_
  simp

end

end Codec
end ArithCircuit
