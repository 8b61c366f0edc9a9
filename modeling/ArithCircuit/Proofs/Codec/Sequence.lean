import ArithCircuit.Proofs.Codec.Filling
import ArithCircuit.Proofs.Codec.NormalForm

/-!
Values of any types, written one after another. A value can be written if its numbers and lengths fit the bytes
that they take. No codec reads past what it wrote, so nothing has to stand between two values: the types alone say
where each value ends, also where lists of values of different lengths are nested, and fields of both sizes mixed.
-/
namespace ArithCircuit
variable {F : ScalarField}

/-! ### Values that can be written -/

/-- The index of an input and the operands of a sum or a product are below a bound. -/
def Gate.Below (bound : Nat) : Gate F → Prop
  | .input index => index < bound
  | .constant _ => True
  | .add a b _ => a < bound ∧ b < bound
  | .mul a b _ => a < bound ∧ b < bound

instance Gate.decidableBelow (bound : Nat) : (g : Gate F) → Decidable (g.Below bound)
  | .input index => Nat.decLt index bound
  | .constant _ => .isTrue trivial
  | .add a b _ | .mul a b _ => inferInstanceAs (Decidable (a < bound ∧ b < bound))

theorem Writer.put_succeeds (chunk : List UInt8) : (put chunk).Succeeds := ⟨chunk, writes_put_iff.mpr rfl⟩

namespace Codec

theorem count_succeeds_iff {n : Nat} : (count.write n).Succeeds ↔ n < 2 ^ 32 := number_succeeds_iff

theorem count_bind_succeeds_iff {n : Nat} {next : Writer Unit} (plain : next.Plain) :
    (count.write n >>= fun _ => next).Succeeds ↔ n < 2 ^ 32 ∧ next.Succeeds := by
  rw [← count_succeeds_iff]
  exact Writer.succeeds_bind_iff ((number_lawful 4).plain n) plain

theorem text_succeeds_iff {s : String} : (text.write s).Succeeds ↔ s.utf8ByteSize < 2 ^ 32 := by
  have length : s.toUTF8.toList.length = s.utf8ByteSize := by
    rw [toList_eq_data]
    rfl
  rw [← length]
  exact (count_bind_succeeds_iff (.put _)).trans (and_iff_left (Writer.put_succeeds _))

theorem term_succeeds_iff {t : Term F} : (term.write t).Succeeds ↔ t.wire < 2 ^ 32 :=
  (count_bind_succeeds_iff (.put _)).trans (and_iff_left (Writer.put_succeeds _))

theorem form_succeeds_iff {e : LinearForm F} : (form.write e).Succeeds ↔ e.size < 2 ^ 32 ∧ ∀ w ∈ e.wires, w < 2 ^ 32 := by
  rw [LinearForm.wires, List.forall_mem_map]
  simp only [← term_succeeds_iff]
  exact term_lawful.succeeds_list_iff

theorem gate_succeeds_iff {g : Gate F} : (gate.write g).Succeeds ↔ g.Below (2 ^ 32) := by
  have tagged : ((number 1).write g.kind.tag).Succeeds := by
    refine number_succeeds_iff.mpr ?_
    cases g.kind <;> decide
  -- A record has room for two numbers, whatever the kind; those that a kind has no use for are zero.
  have fields (a b : Nat) (coef : Scalar F) :
      ((number 1).write g.kind.tag >>= fun _ => count.write a >>= fun _ => count.write b >>= fun _ => scalar.write coef).Succeeds ↔
        a < 2 ^ 32 ∧ b < 2 ^ 32 := by
    have last : (scalar.write coef).Plain := scalar_lawful.plain coef
    have second : (count.write b >>= fun _ => scalar.write coef).Plain := ((number_lawful 4).plain b).bind last
    have first : (count.write a >>= fun _ => count.write b >>= fun _ => scalar.write coef).Plain :=
      ((number_lawful 4).plain a).bind second
    rw [Writer.succeeds_bind_iff ((number_lawful 1).plain _) first, and_iff_right tagged, count_bind_succeeds_iff second,
      count_bind_succeeds_iff last]
    exact and_congr_right fun _ => and_iff_left (Writer.put_succeeds _)
  cases g with
  | input index => exact (fields index 0 0).trans (and_iff_left (by decide))
  | constant value => exact (fields 0 0 value).trans (iff_of_true (by decide) trivial)
  | add a b coef => exact fields a b coef
  | mul a b coef => exact fields a b coef

end Codec

namespace StoredType

/-- The values that can be written: numbers, wires and gate numbers in the bytes that they take, and every length in
    four bytes. -/
def Fits : (t : StoredType) → t.Value → Prop
  | number width => fun (n : Nat) => n < 256 ^ width
  | count => fun (n : Nat) => n < 2 ^ 32
  | wire => fun (w : Wire) => w < 2 ^ 32
  | circuitId => fun (id : CircuitId) => id < 2 ^ 64
  | text => fun (s : String) => s.utf8ByteSize < 2 ^ 32
  | scalar _ => fun _ => True
  | form F => fun (e : LinearForm F) => e.size < 2 ^ 32 ∧ ∀ w ∈ e.wires, w < 2 ^ 32
  | gate F => fun (g : Gate F) => g.Below (2 ^ 32)
  | list item => fun (xs : List item.Value) => xs.length < 2 ^ 32 ∧ ∀ x ∈ xs, item.Fits x

instance decidableFits : (t : StoredType) → (x : t.Value) → Decidable (t.Fits x)
  | number _, n | count, n | wire, n | circuitId, n => Nat.decLt n _
  | text, s => Nat.decLt (String.utf8ByteSize s) _
  | scalar _, _ => .isTrue trivial
  | form _, (e : LinearForm _) => inferInstanceAs (Decidable (e.size < 2 ^ 32 ∧ ∀ w ∈ e.wires, w < 2 ^ 32))
  | gate _, (g : Gate _) => inferInstanceAs (Decidable (g.Below (2 ^ 32)))
  | list item, (xs : List item.Value) =>
    have := decidableFits item
    inferInstanceAs (Decidable (xs.length < 2 ^ 32 ∧ ∀ x ∈ xs, item.Fits x))

instance decidableCanonical : (t : StoredType) → (x : t.Value) → Decidable (t.Canonical x)
  | form _, (e : LinearForm _) => inferInstanceAs (Decidable (e.isCanonical = true))
  | list item, (xs : List item.Value) =>
    have := decidableCanonical item
    inferInstanceAs (Decidable (∀ x ∈ xs, item.Canonical x))
  | number _, _ | count, _ | wire, _ | circuitId, _ | text, _ | scalar _, _ | gate _, _ => .isTrue trivial

theorem succeeds_iff_fits (t : StoredType) (x : t.Value) : (t.codec.write x).Succeeds ↔ t.Fits x := by
  induction t with
  | number width => exact Codec.number_succeeds_iff
  | count => exact Codec.count_succeeds_iff
  | wire => exact Codec.count_succeeds_iff
  | circuitId => exact Codec.number_succeeds_iff
  | text => exact Codec.text_succeeds_iff
  | scalar F => exact iff_of_true (Writer.put_succeeds _) trivial
  | form F => exact Codec.form_succeeds_iff
  | gate F => exact Codec.gate_succeeds_iff
  | list item ih =>
    refine item.lawful.succeeds_list_iff.trans (and_congr_right fun _ => ?_)
    exact forall₂_congr fun x _ => ih x

end StoredType

/-! ### Values in turn -/

/-- A value together with its type. -/
abbrev StoredValue := (t : StoredType) × t.Value

namespace StoredValue

def write (v : StoredValue) : Writer Unit := v.1.codec.write v.2

/-- Reads a value of each of the types in turn. -/
def readEach : List StoredType → Reader (List StoredValue)
  | [] => return []
  | t :: types => do
    let x ← t.codec.read
    let values ← readEach types
    return ⟨t, x⟩ :: values

theorem plain (v : StoredValue) : v.write.Plain := v.1.lawful.plain v.2

/-- Each value is read from the bytes that it was written as, and the next reader starts right behind them. -/
theorem reads_writeAll {values : List StoredValue} (canonical : ∀ v ∈ values, v.1.Canonical v.2) {bytes : List UInt8}
    (written : (Codec.writeAll write values).Writes bytes) (rest : List UInt8) :
    readEach (values.map Sigma.fst) (bytes ++ rest) = .ok values rest := by
  induction values generalizing bytes with
  | nil =>
    rw [Writer.writes_done_iff.mp written]
    rfl
  | cons v values ih =>
    obtain ⟨first, others⟩ := List.forall_mem_cons.mp canonical
    obtain ⟨early, late, left, right, rfl⟩ := (Writer.writes_bind_iff v.plain (Codec.plain_writeAll plain values)).mp written
    rw [List.append_assoc]
    refine run_bind_eq_ok.mpr ⟨v.2, late ++ rest, v.1.lawful.reads first left _, ?_⟩
    exact run_bind_eq_ok.mpr ⟨values, rest, ih others right, rfl⟩

/-- Values can be written one after another exactly if each fits. Reading their types in turn then gives the same
    values, and leaves what follows them. -/
theorem readEach_written (values : List StoredValue) (canonical : ∀ v ∈ values, v.1.Canonical v.2) :
    ((∃ bytes, (Codec.writeAll write values).toBytes = .ok bytes) ↔ ∀ v ∈ values, v.1.Fits v.2) ∧
    ∀ bytes, (Codec.writeAll write values).toBytes = .ok bytes →
      ∀ rest, readEach (values.map Sigma.fst) (bytes ++ rest) = .ok values rest := by
  have written {bytes : List UInt8} :
      (Codec.writeAll write values).toBytes = .ok bytes ↔ (Codec.writeAll write values).Writes bytes :=
    (Codec.plain_writeAll plain values).toBytes_eq_ok_iff
  constructor
  · calc (∃ bytes, (Codec.writeAll write values).toBytes = .ok bytes)
        ↔ (Codec.writeAll write values).Succeeds := exists_congr fun _ => written
      _ ↔ ∀ v ∈ values, v.write.Succeeds := Codec.succeeds_writeAll_iff plain
      _ ↔ ∀ v ∈ values, v.1.Fits v.2 := forall₂_congr fun v _ => v.1.succeeds_iff_fits v.2
  · intro bytes done rest
    exact reads_writeAll canonical (written.mp done) rest

/-- A number, texts of which one is empty, forms over both fields, and a gate. -/
def mixed : List StoredValue :=
  [⟨.number 2, (513 : Nat)⟩, ⟨.list .text, ["ab", ""]⟩, ⟨.form .bn254, ⟨[⟨1, .one⟩, ⟨-1, 2⟩]⟩⟩,
    ⟨.list (.form .mersenne31), [⟨[⟨-1, 1⟩]⟩, .zero]⟩, ⟨.gate .mersenne31, .mul 0 1 1⟩]

theorem mixed_readEach_written : ∃ bytes, (Codec.writeAll write mixed).toBytes = .ok bytes ∧
    readEach (mixed.map Sigma.fst) (bytes ++ [1, 0]) = .ok mixed [1, 0] := by
  have canonical : ∀ v ∈ mixed, v.1.Canonical v.2 := by decide +kernel
  have fits : ∀ v ∈ mixed, v.1.Fits v.2 := by decide +kernel
  obtain ⟨writable, read⟩ := readEach_written mixed canonical
  obtain ⟨bytes, done⟩ := writable.mpr fits
  exact ⟨bytes, done, read bytes done [1, 0]⟩

end StoredValue
end ArithCircuit
