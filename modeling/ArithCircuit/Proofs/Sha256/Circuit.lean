import ArithCircuit.Proofs.Blueprint
import ArithCircuit.Proofs.Sha256.Digest

/-!
The circuit that hashes. Its inputs are bytes, and its outputs are the bytes of the digest that the
standard gives, the lowest byte of each word first. It has no other inputs and outputs, whatever values
stand in place of the hint outputs.
-/
namespace ArithCircuit
variable {F : ScalarField} {W : World F}

open Builder (Carries Demands Sound)

namespace Sha256

/-- The bytes of inputs. -/
def message (x : List (Scalar F)) : List (BitVec 8) := x.map fun a => BitVec.ofNat 8 a.val

/-- The bytes of a word, lowest first. -/
def lowestFirst (w : BitVec 32) : List (BitVec 8) := (List.range 4).map fun i => w.extractLsb' (8 * i) 8

/-- The digest of a message as outputs. -/
def outputs (x : List (Scalar F)) : List (Scalar F) :=
  ((Standard.compressAll Standard.start (chunks 64 (Standard.pad (message x)))).toList.flatMap lowestFirst).map
    fun byte => (byte.toNat : Scalar F)

/-- Inputs that are bytes, and their digest. -/
def Hashes (n : Nat) (x outs : List (Scalar F)) : Prop := x.length = n ∧ (∀ a ∈ x, a.val < 256) ∧ outs = outputs x

theorem hashes_zeros (n : Nat) : Hashes n (List.replicate n (0 : Scalar F)) (outputs (List.replicate n 0)) := by
  refine ⟨List.length_replicate, fun a member => ?_, rfl⟩
  rw [List.eq_of_mem_replicate member]
  exact Nat.zero_lt_succ 255

theorem eval_bytes {w : Wire → Scalar F} {words : List (Word F)} {xs : List (BitVec 32)}
    (shows : List.Forall₂ (Word.Shows w) words xs) : (words.flatMap Word.littleEndianBytes).map (·.eval w) =
      (xs.flatMap lowestFirst).map fun byte => (byte.toNat : Scalar F) := by
  induction shows with
  | nil => rfl
  | cons first _ ih =>
    rw [List.flatMap_cons, List.flatMap_cons, List.map_append, List.map_append, ih, first.map_littleEndianBytes, lowestFirst,
      List.map_map]
    rfl

/-- The forms of the inputs. -/
def inputForms (n : Nat) : List (LinearForm F) := (List.range n).map fun i => .wire (.input i)

theorem eval_inputForms (n : Nat) (w : Wire → Scalar F) : (inputForms n).map (·.eval w) = inputValues n w := by
  simp [inputForms, inputValues, Function.comp_def]

theorem bytes_inputForms_iff (n : Nat) (w : Wire → Scalar F) :
    (∀ e ∈ inputForms n, (e.eval w).val < 256) ↔ ∀ a ∈ inputValues n w, a.val < 256 := by
  rw [← eval_inputForms, List.forall_mem_map]

theorem messageBytes_inputForms (n : Nat) (w : Wire → Scalar F) :
    messageBytes (inputForms n) w = message (inputValues n w) := by
  rw [← eval_inputForms, message, List.map_map]
  rfl

theorem exists_inputs {n : Nat} {x : List (Scalar F)} (length : x.length = n) (numPublic : Nat) (hints : HintRegistry F)
    (subs : SubCircuits F) : ∃ w, (Builder.blank n numPublic hints subs).Satisfied W w ∧ inputValues n w = x := by
  refine ⟨Builder.inputWires x, Builder.satisfied_blank rfl, ?_⟩
  rw [← length]
  exact Builder.inputValues_inputWires x

theorem readable_inputForms (n : Nat) : ∀ e ∈ (inputForms n : List (LinearForm F)), e.Readable (n + 1) := by
  intro e member
  obtain ⟨i, inside, rfl⟩ := List.mem_map.mp member
  exact .wire (Nat.succ_lt_succ (List.mem_range.mp inside))

/-- The digest of the inputs demands that they are bytes, and shows what the standard says. -/
theorem digest_inputs (allows : W.rule.Allows) (room : 35 ≤ F.bits - 1) {n : Nat} (few : n < 2 ^ 32 - 1)
    (hints : HintRegistry F) :
    ∃ S b, digest (inputForms n) (.blank n 0 hints .empty) = .ok S b ∧
      Demands W (.blank n 0 hints .empty) b (fun w => ∀ a ∈ inputValues n w, a.val < 256) ∧ ∀ w, b.Satisfied W w →
        (S.toList.flatMap Word.littleEndianBytes).map (·.eval w) = outputs (inputValues n w) := by
  have sound : Sound W (.blank n 0 hints .empty : Builder F) :=
    ⟨Builder.good_blank W (if_pos few) .., Builder.wellFormed_blank SubCircuits.wellFormed_empty (Nat.zero_le n) hints⟩
  obtain ⟨S, b, digested, demands, carries⟩ := digest_demands allows room sound (readable_inputForms n)
  refine ⟨S, b, digested, demands.congr (bytes_inputForms_iff n), fun w satisfied => ?_⟩
  rw [eval_bytes (carries.shows w satisfied), messageBytes_inputForms, outputs]

/-- In each world, recording succeeds with a circuit that shows the digest of its inputs, if there were numbers for all
    wires. -/
theorem define_shows (allows : W.rule.Allows) (room : 35 ≤ F.bits - 1) {n : Nat} (few : n < 2 ^ 32 - 1)
    (hints : HintRegistry F) :
    ∃ b, (Sample.sha256 n).define (.blank n 0 hints .empty) = .ok () b ∧ b.numInputs = n ∧ b.WellFormed ∧
      b.subCircuits = .empty ∧ b.Good W ∧ (b.nextWire ≤ 2 ^ 32 → ∀ {x outs}, (∃ w, b.Satisfied W w ∧
        inputValues n w = x ∧ b.outputs.toList.map (·.eval w) = outs) ↔ Hashes n x outs) := by
  obtain ⟨S, b, digested, demands, shown⟩ := digest_inputs allows room few hints
  have done : (Sample.sha256 n).define (.blank n 0 hints .empty) = .ok ()
      { b with outputs := b.outputs ++ S.toList.flatMap Word.littleEndianBytes } :=
    run_bind_eq_ok.mpr ⟨inputForms n, _, rfl, run_bind_eq_ok.mpr ⟨S, b, digested, Builder.outputAll_eq ..⟩⟩
  have blank := Builder.wellFormed_blank SubCircuits.wellFormed_empty (Nat.zero_le n) hints
  have wellFormed := ((Sample.define_keeps blank (.sha256 n)).made done).1.wellFormed
  have grown : Builder.Grown W b { b with outputs := b.outputs ++ S.toList.flatMap Word.littleEndianBytes } :=
    .listing demands.recorded.good (fun e member => (wellFormed.outputs_readable e member).reads) demands.recorded.good.calls
  have listed : (b.outputs ++ S.toList.flatMap Word.littleEndianBytes).toList = S.toList.flatMap Word.littleEndianBytes := by
    rw [demands.recorded.outputs]
    simp [Builder.blank]
  refine ⟨_, done, demands.recorded.numInputs, wellFormed, demands.recorded.subCircuits, grown.good,
    fun fits {x outs} => ⟨?_, ?_⟩⟩
  · rintro ⟨w, satisfied, rfl, rfl⟩
    have satisfied := grown.satisfied satisfied
    exact ⟨length_inputValues .., demands.necessary satisfied, (congrArg _ listed).trans (shown w satisfied)⟩
  · rintro ⟨length, bytes, rfl⟩
    obtain ⟨w, satisfied, given⟩ := exists_inputs length 0 hints .empty
    obtain ⟨w', agree, later⟩ := demands.extension fits satisfied (given ▸ bytes)
    have given' : inputValues n w' = x := (inputValues_congr (Nat.lt_succ_self n) agree).symm.trans given
    refine ⟨w', Builder.satisfied_listing_iff.mpr later, given', ?_⟩
    rw [listed, shown w' later, given']

/-- The recorded circuit. -/
theorem define_relates (room : 35 ≤ F.bits - 1) {n : Nat} (few : n < 2 ^ 32 - 1) (hints : HintRegistry F) :
    ∃ b, (Sample.sha256 n).define (.blank n 0 hints .empty) = .ok () b ∧ b.numInputs = n ∧
      (b.nextWire ≤ 2 ^ 32 → b.Relates (Hashes n)) := by
  -- Recording knows no world, so the builder is the same in all of them.
  obtain ⟨b, done, numInputs, wellFormed, alone, -⟩ :=
    define_shows (W := ⟨.any, fun _ _ _ => True⟩) HintRule.any_allows room few hints
  refine ⟨b, done, numInputs, fun fits => ⟨wellFormed, alone, fits, fun allows => ?_, fun allows => ?_⟩⟩
  · obtain ⟨_, done', -, -, -, good, -⟩ := define_shows allows room few hints
    cases done.symm.trans done'
    exact good
  · obtain ⟨_, done', -, -, -, -, meaning⟩ := define_shows allows room few hints
    cases done.symm.trans done'
    rw [numInputs]
    exact meaning fits

/-! ### Positions -/

/-- An entry of lists of one length that stand one after another. -/
theorem getElem?_flatMap {α β : Type} {f : α → List β} {size : Nat} (each : ∀ a, (f a).length = size) (as : List α) (i : Nat)
    {j : Nat} (below : j < size) : (as.flatMap f)[size * i + j]? = as[i]?.bind fun a => (f a)[j]? := by
  induction as generalizing i with
  | nil => simp
  | cons a rest ih =>
    rw [List.flatMap_cons]
    cases i with
    | zero =>
      rw [Nat.mul_zero, Nat.zero_add, List.getElem?_append_left (by rw [each]; exact below)]
      rfl
    | succ i =>
      have past : size * (i + 1) + j = size + (size * i + j) := by rw [Nat.mul_succ]; omega
      rw [past, List.getElem?_append_right (by rw [each]; omega), each, Nat.add_sub_cancel_left, ih]
      rfl

theorem getElem?_lowestFirst (words : List (BitVec 32)) (i : Nat) {j : Nat} (below : j < 4) :
    (words.flatMap lowestFirst)[4 * i + j]? = (words.flatMap Standard.bytes)[4 * i + 3 - j]? := by
  have place : 4 * i + 3 - j = 4 * i + (3 - j) := by omega
  rw [place, getElem?_flatMap (by simp [lowestFirst]) words i below,
    getElem?_flatMap (by simp [Standard.bytes]) words i (show 3 - j < 4 by omega)]
  congr 1
  funext w
  have bit : 24 - 8 * (3 - j) = 8 * j := by omega
  simp [lowestFirst, Standard.bytes, below, show 3 - j < 4 by omega, bit]

/-- Outputs that show the digest of a message: of each word, the lowest byte comes first. -/
def ShowsDigest (x outs : List (Scalar F)) : Prop :=
  outs.length = 32 ∧ ∀ i < 8, ∀ j < 4,
    outs[4 * i + j]?.map (·.val) = (Standard.digest (message x))[4 * i + 3 - j]?.map (·.toNat)

theorem showsDigest_outputs (large : 256 ≤ F.modulus) (x : List (Scalar F)) : ShowsDigest x (outputs x) := by
  refine ⟨?_, fun i _ j below => ?_⟩
  · simp [outputs, State.toList, lowestFirst]
  · have value (byte : BitVec 8) : ((byte.toNat : Scalar F)).val = byte.toNat :=
      Nat.mod_eq_of_lt (byte.isLt.trans_le large)
    rw [outputs, List.getElem?_map, Option.map_map, Standard.digest, getElem?_lowestFirst _ _ below]
    congr 1
    funext byte
    exact value byte

/-! ### Compiling -/

/-- There are numbers for all wires of messages of up to 7900000 bytes. -/
theorem nextWire_of_record {n : Nat} (short : n ≤ 7900000) {hints : HintRegistry F} {b : Builder F}
    (recorded : (Sample.sha256 n).blueprint.record hints = .ok b) : b.nextWire ≤ 2 ^ 32 := by
  obtain ⟨-, -, done⟩ := Blueprint.record_eq_ok_iff.mp recorded
  obtain ⟨_, _, ⟨⟩, rest⟩ := run_bind_eq_ok.mp done
  obtain ⟨S, b₁, digested, exposed⟩ := run_bind_eq_ok.mp rest
  cases (Builder.outputAll_eq ..).symm.trans exposed
  have wires : b₁.nextWire ≤ n + 1 + ((inputForms n).length * 16 + ((inputForms n).length + 72) / 64 * 33360) :=
    (digest_behaves (inputForms n)).nextWire (Builder.truthful_blank n 0 hints .empty) (.inl ⟨S, digested⟩)
  rw [inputForms, List.length_map, List.length_range] at wires
  show b₁.nextWire ≤ 2 ^ 32
  omega

/-- For every length that leaves all wires a number of their own, the circuit that hashes compiles. The solver succeeds
    exactly on bytes, with their digest. The layered circuit accepts bytes only, with their digest, and all bytes with
    some hint outputs after them. -/
theorem compiles_to_digest {n : Nat} (few : n < 2 ^ 32 - 1)
    (fits : ∀ b, (Sample.sha256 n).blueprint.record (F := .bn254) .builtins = .ok b → b.nextWire ≤ 2 ^ 32) :
    ∃ compiled, (Sample.sha256 n).blueprint.compile (F := .bn254) .standard = .ok compiled ∧
      (∀ (config : SolverConfig) (x : List (Scalar .bn254)), config.hintMode = .strict → x.length = n →
        ((∃ w, compiled.solver.solve x config = .ok w) ↔ ∀ a ∈ x, a.val < 256) ∧
          ∀ w, compiled.solver.solve x config = .ok w → ShowsDigest x w.outputs) ∧
      (∀ v outs, compiled.layered.evaluate v = .ok outs →
        n ≤ v.length ∧ (∀ a ∈ v.take n, a.val < 256) ∧ ShowsDigest (v.take n) outs) ∧
      ∀ x, x.length = n → (∀ a ∈ x, a.val < 256) → ∃ h outs, compiled.layered.evaluate (x ++ h) = .ok outs := by
  obtain ⟨b, done, numInputs, relates⟩ := define_relates (F := .bn254) (by decide) few .builtins
  have large : 256 ≤ ScalarField.bn254.modulus := by decide
  have recorded : (Sample.sha256 n).blueprint.record .builtins = .ok b :=
    Blueprint.record_eq_ok_iff.mpr ⟨if_pos few, Nat.zero_le n, done⟩
  obtain ⟨compiled, ok, solves, accepts, accepted⟩ := (relates (fits b recorded)).compiles (hashes_zeros n) recorded
  refine ⟨compiled, ok, fun config x strict length => ⟨⟨?_, fun bytes => ?_⟩, fun w solved => ?_⟩,
    fun v outs evaluated => ?_, fun x length bytes => ?_⟩
  · rintro ⟨w, solved⟩
    exact ((solves config x _ strict).mp ⟨w, solved, rfl⟩).2.1
  · obtain ⟨w, solved, -⟩ := (solves config x _ strict).mpr ⟨length, bytes, rfl⟩
    exact ⟨w, solved⟩
  · obtain ⟨-, -, same⟩ := (solves config x _ strict).mp ⟨w, solved, rfl⟩
    rw [same]
    exact showsDigest_outputs large x
  · obtain ⟨enough, hashed⟩ := accepts v outs evaluated
    rw [numInputs] at enough hashed
    obtain ⟨-, bytes, rfl⟩ := hashed
    exact ⟨enough, bytes, showsDigest_outputs large _⟩
  · obtain ⟨h, evaluated⟩ := accepted x _ ⟨length, bytes, rfl⟩
    exact ⟨h, _, evaluated⟩

/-- The digest of three letters, of which the first output is the fourth byte; 256 is no byte. -/
theorem compiles_to_digest_letters : 3 < 2 ^ 32 - 1 ∧
    (∀ b, (Sample.sha256 3).blueprint.record (F := .bn254) .builtins = .ok b → b.nextWire ≤ 2 ^ 32) ∧
    ∃ compiled, (Sample.sha256 3).blueprint.compile (F := .bn254) .standard = .ok compiled ∧
      (∃ w, compiled.solver.solve [97, 98, 99] { } = .ok w ∧ w.outputs[0]?.map (·.val) = some 0xbf) ∧
      (∀ w, compiled.solver.solve [97, 256, 99] { } ≠ .ok w) ∧
      (∃ h outs, compiled.layered.evaluate ([97, 98, 99] ++ h) = .ok outs ∧ outs[0]?.map (·.val) = some 0xbf) ∧
      ∀ h outs, compiled.layered.evaluate ([97, 256, 99] ++ h) ≠ .ok outs := by
  have few : 3 < 2 ^ 32 - 1 := by decide
  have fits : ∀ b, (Sample.sha256 3).blueprint.record (F := .bn254) .builtins = .ok b → b.nextWire ≤ 2 ^ 32 :=
    fun _ => nextWire_of_record (by decide)
  have fourth : (Standard.digest (message ([97, 98, 99] : List (Scalar .bn254))))[3]?.map (·.toNat) = some 0xbf := by
    simp only [Standard.digest, Standard.compressAll, Standard.compress, Standard.constants_eq]
    decide +kernel
  have bytes : ∀ a ∈ ([97, 98, 99] : List (Scalar .bn254)), a.val < 256 := by decide
  have other : ¬ ∀ a ∈ ([97, 256, 99] : List (Scalar .bn254)), a.val < 256 := by decide
  obtain ⟨compiled, ok, solves, accepts, accepted⟩ := compiles_to_digest few fits
  refine ⟨few, fits, compiled, ok, ?_, fun w solved => ?_, ?_, fun h outs evaluated => ?_⟩
  · obtain ⟨w, solved⟩ := (solves { } [97, 98, 99] rfl rfl).1.mpr bytes
    exact ⟨w, solved, (((solves { } _ rfl rfl).2 w solved).2 0 (by decide) 0 (by decide)).trans fourth⟩
  · exact other ((solves { } _ rfl rfl).1.mp ⟨w, solved⟩)
  · obtain ⟨h, outs, evaluated⟩ := accepted [97, 98, 99] rfl bytes
    obtain ⟨-, -, shows⟩ := accepts _ outs evaluated
    exact ⟨h, outs, evaluated, (shows.2 0 (by decide) 0 (by decide)).trans fourth⟩
  · exact other (accepts _ outs evaluated).2.1

end Sha256
end ArithCircuit
