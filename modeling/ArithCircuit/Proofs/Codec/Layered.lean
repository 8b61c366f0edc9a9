import ArithCircuit.Codec.Layered
import ArithCircuit.Proofs.Codec.Header

/-!
Stored layered circuits. The decoder accepts exactly what the encoder writes: every layered circuit
that can be stored has one byte form, and every other byte string is refused.
-/
namespace ArithCircuit
variable {F : ScalarField}

theorem Gate.Kind.ofTag?_eq_some_iff {n : Nat} {kind : Gate.Kind} : ofTag? n = some kind ↔ n = kind.tag := by
  constructor
  · intro found
    have same := List.find?_some found
    exact (beq_iff_eq.mp same).symm
  · rintro rfl
    cases kind <;> rfl

namespace Codec

/-- A record stands for a gate exactly when it is the gate's own. -/
theorem gateOfFields?_eq_some_iff {kind : Gate.Kind} {a b : Nat} {coef : Scalar F} {g : Gate F} :
    gateOfFields? kind a b coef = some g ↔ g.kind = kind ∧ gateFields g = (a, b, coef) := by
  cases kind with
  | input => cases g <;> simp [gateOfFields?, gateFields, Gate.kind, and_comm, eq_comm]
  | constant => cases g <;> simp [gateOfFields?, gateFields, Gate.kind, and_assoc, eq_comm]
  | add => cases g <;> simp [gateOfFields?, gateFields, Gate.kind, eq_comm]
  | mul => cases g <;> simp [gateOfFields?, gateFields, Gate.kind, eq_comm]

/-- The kind of a gate, as its tag. -/
def gateKind : Codec Gate.Kind :=
  (number 1).refine Gate.Kind.tag Gate.Kind.ofTag? fun tag => .unknownChoice .gate tag

theorem gateKind_lawful : gateKind.Lawful fun _ => True := by
  refine ((number_lawful 1).refine fun found => (Gate.Kind.ofTag?_eq_some_iff.mp found).symm).congr fun kind => ?_
  simp [Gate.Kind.ofTag?_eq_some_iff]

theorem gate_lawful : (gate (F := F)).Lawful fun _ => True := by
  have made : gate (F := F) = gateKind.part Gate.kind fun kind => count.part (fun g => (gateFields g).1) fun a =>
      count.part (fun g => (gateFields g).2.1) fun b =>
        scalar.refine (fun g => (gateFields g).2.2) (gateOfFields? kind a b) fun _ => .badPart .gateRecord := by
    simp only [gate, part, refine, gateKind, bind_assoc]
    congr 2
    funext tag
    cases Gate.Kind.ofTag? tag with
    | none => rfl
    | some kind =>
      simp only [Option.elim, pure_bind]
      congr 1
      funext a
      congr 1
      funext b
      congr 1
      funext coef
      cases gateOfFields? kind a b coef <;> rfl
  rw [made]
  have fields {kind : Gate.Kind} {a b : Nat} {coef : Scalar F} {g : Gate F} (found : gateOfFields? kind a b coef = some g) :=
    gateOfFields?_eq_some_iff.mp found
  refine (gateKind_lawful.part (fun kind => (number_lawful 4).part (fun a => (number_lawful 4).part
    (fun b => scalar_lawful.refine fun found => ?_) fun valid => ?_) fun valid => ?_) fun valid => ?_).congr fun g => ?_
  · rw [(fields found).2]
  · rw [(fields valid.2).2]
  · rw [(fields valid.2.2).2]
  · exact (fields valid.2.2.2).1
  · simp [gateOfFields?_eq_some_iff]

theorem layered_lawful : (layered (F := F)).Lawful fun _ => True := by
  have made : layered (F := F) = count.part (·.numInputs) fun numInputs => count.part (·.numExternal) fun numExternal =>
      count.part (·.numPublic) fun numPublic => (list (list gate)).part (·.layers) fun layers =>
        (list count).part (·.outputs) fun outputs => (list count).refine (·.constraints)
          (fun constraints => some ⟨numInputs, numExternal, numPublic, layers, outputs, constraints⟩) fun _ => .bufferFull :=
    rfl
  rw [made]
  refine ((number_lawful 4).part (fun numInputs => (number_lawful 4).part (fun numExternal => (number_lawful 4).part
    (fun numPublic => (list_lawful (list_lawful gate_lawful)).part (fun layers =>
      (list_lawful (number_lawful 4)).part (fun outputs => (list_lawful (number_lawful 4)).refine fun made => ?_)
    fun valid => ?_) fun valid => ?_) fun valid => ?_) fun valid => ?_) fun valid => ?_).congr fun c => ?_
  · exact (congrArg LayeredCircuit.constraints (Option.some.inj made)).symm
  · exact (congrArg LayeredCircuit.outputs (Option.some.inj valid.2)).symm
  · exact (congrArg LayeredCircuit.layers (Option.some.inj valid.2.2)).symm
  · exact (congrArg LayeredCircuit.numPublic (Option.some.inj valid.2.2.2)).symm
  · exact (congrArg LayeredCircuit.numExternal (Option.some.inj valid.2.2.2.2)).symm
  · exact (congrArg LayeredCircuit.numInputs (Option.some.inj valid.2.2.2.2.2)).symm
  · simp

end Codec

namespace LayeredCircuit

theorem toBytes_eq_ok_iff {c : LayeredCircuit F} {bytes : List UInt8} :
    c.toBytes = .ok bytes ↔ ∃ body, (Codec.layered.write c).Writes body ∧ bytes = Header.bytes .layered F ++ body :=
  Header.toBytes_eq_ok_iff (Codec.layered_lawful.plain c)

/-- A byte string is accepted exactly when it is the byte form of a layered circuit that keeps the rules. -/
theorem ofBytes_eq_ok_iff {c : LayeredCircuit F} {bytes : List UInt8} :
    ofBytes bytes = .ok c ↔ c.validate = .ok () ∧ c.toBytes = .ok bytes := by
  simp only [ofBytes, bind_eq_ok, mapError_eq_ok, Prod.exists, Reader.parse_eq_ok_iff, Header.expect_eq_ok_iff,
    toBytes_eq_ok_iff]
  constructor
  · rintro ⟨body, rfl, d, rest, read, _, ended, _, checked, ⟨⟩⟩
    obtain rfl := Reader.finish_eq_ok_iff.mp ended
    obtain ⟨-, written, writes, rfl⟩ := Codec.layered_lawful.writes read
    exact ⟨checked, written, writes, by rw [List.append_nil]⟩
  · rintro ⟨checked, body, written, rfl⟩
    refine ⟨body, rfl, c, [], ?_, (), rfl, (), checked, rfl⟩
    simpa using Codec.layered_lawful.reads trivial written []

/-- Storing is a bijection between the layered circuits that can be stored and the accepted byte strings. -/
theorem stored_uniquely (F : ScalarField) :
    (∀ (c : LayeredCircuit F) (bytes : List UInt8), c.validate = .ok () → c.toBytes = .ok bytes → ofBytes bytes = .ok c) ∧
    (∀ (bytes : List UInt8) (c : LayeredCircuit F), ofBytes bytes = .ok c → c.validate = .ok () ∧ c.toBytes = .ok bytes) ∧
    ∀ (bytes bytes' : List UInt8) (c : LayeredCircuit F), ofBytes bytes = .ok c → ofBytes bytes' = .ok c → bytes = bytes' := by
  refine ⟨fun c bytes checked stored => ofBytes_eq_ok_iff.mpr ⟨checked, stored⟩,
    fun bytes c read => ofBytes_eq_ok_iff.mp read, ?_⟩
  intro bytes bytes' c read read'
  have stored := (ofBytes_eq_ok_iff.mp read).2
  rw [(ofBytes_eq_ok_iff.mp read').2] at stored
  exact (Except.ok.inj stored).symm

/-- The sum of an input and three times a constant, and the product of the inputs, which must be zero. -/
def sumAndProduct : LayeredCircuit .mersenne31 :=
  ⟨2, 1, 1, [[.input 0, .input 1, .constant (.ofNat 5)], [.add 0 2 (.ofNat 3), .mul 0 1 1]], [3], [4]⟩

theorem sumAndProduct_stored_uniquely :
    sumAndProduct.validate = .ok () ∧ ∃ bytes, sumAndProduct.toBytes = .ok bytes ∧ ofBytes bytes = .ok sumAndProduct ∧
      ∀ bytes', ofBytes bytes' = .ok sumAndProduct → bytes = bytes' := by
  have checked : sumAndProduct.validate = .ok () := rfl
  obtain ⟨bytes, stored⟩ := exists_of_isOk (x := sumAndProduct.toBytes) (by decide +kernel)
  obtain ⟨reads, -, one⟩ := stored_uniquely .mersenne31
  have read := reads _ _ checked stored
  exact ⟨checked, bytes, stored, read, fun bytes' read' => one bytes bytes' _ read read'⟩

end LayeredCircuit
end ArithCircuit
