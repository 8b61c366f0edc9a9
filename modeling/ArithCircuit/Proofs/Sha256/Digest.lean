import ArithCircuit.Proofs.Sha256.Compression

/-!
The digest of a message is the one of the standard. Splitting the bytes of the message is the one step
that rules assignments out, and it rules out exactly those under which some byte is 256 or more; the
blocks after it are compressed under every assignment that is left, as long as there are numbers for all
wires.
-/
namespace ArithCircuit
variable {F : ScalarField} {W : World F} {b b₁ b₂ : Builder F}

open Builder (Carries Computes Advances Sound)

/-! ### Chunks -/

section
variable {α β : Type}

theorem forall₂_chunks (size : Nat) {R : α → β → Prop} {as : List α} {bs : List β} (related : List.Forall₂ R as bs) :
    List.Forall₂ (List.Forall₂ R) (chunks size as) (chunks size bs) := by
  fun_induction chunks size as generalizing bs with
  | case1 as none =>
    have none' : size = 0 ∨ bs = [] := by
      refine none.imp_right fun empty => ?_
      rwa [empty, List.forall₂_nil_left_iff] at related
    rw [chunks.eq_def size bs, if_pos none']
    exact .nil
  | case2 as some ih =>
    have some' : ¬ (size = 0 ∨ bs = []) := by
      refine fun none => some (none.imp_right fun empty => ?_)
      rwa [empty, List.forall₂_nil_right_iff] at related
    rw [chunks.eq_def size bs, if_neg some']
    exact .cons (List.forall₂_take size related) (ih (List.forall₂_drop size related))

/-- Chunks hold what the list holds. -/
theorem mem_of_mem_chunks {size : Nat} (positive : 0 < size) {as chunk : List α} (cut : chunk ∈ chunks size as) {a : α}
    (member : a ∈ chunk) : a ∈ as := by
  rw [← flatten_chunks positive as]
  exact List.mem_flatten.mpr ⟨chunk, cut, member⟩

end

/-- A byte, by its bits. -/
instance : Showing F (List (LinearForm F)) (BitVec 8) := ⟨fun w bits x => Spells w bits x⟩

namespace Sha256

/-! ### Blocks -/

theorem chunks_carries {α β : Type} [Legible α] [Showing F α β] {as : List α} {vs : (Wire → Scalar F) → List β}
    {size : Nat} (positive : 0 < size) (carries : Carries W b as vs) :
    Carries W b (chunks size as) fun w => chunks size (vs w) :=
  ⟨legible_chunks positive carries.legible, fun w satisfied => forall₂_chunks size (carries.shows w satisfied)⟩

theorem constantByte_carries (sound : b.Sound W) (k : Nat) :
    Carries W b (constantByte k : List (LinearForm F)) fun _ => BitVec.ofNat 8 k where
  legible := legible_constantByte sound.wellFormed k
  shows w satisfied := by
    show Spells w _ _
    rw [Spells, constantByte, List.map_map, List.map_map]
    refine List.map_congr_left fun i member => ?_
    simp only [Function.comp_apply, LinearForm.eval_constant satisfied.one, BitVec.getLsbD_ofNat, List.mem_range.mp member,
      decide_true, Bool.true_and]

theorem constantBytes_carries (sound : b.Sound W) (ks : List Nat) :
    Carries W b (ks.map constantByte : List (List (LinearForm F))) fun _ => ks.map (BitVec.ofNat 8) := by
  induction ks with
  | nil => exact .nil
  | cons k rest ih => exact (constantByte_carries sound k).cons ih

theorem start_carries (sound : b.Sound W) :
    Carries W b (initial.map .constant : State (Word F)) fun _ => Standard.start := by
  rw [Standard.start_eq]
  refine State.carries_iff.mpr ⟨?_, ?_, ?_, ?_, ?_, ?_, ?_, ?_⟩
  all_goals exact Word.constant_carries sound _

/-- Four bytes make a word, highest byte first. -/
theorem ofBigEndian_carries {b₃ b₂ b₁ b₀ : List (LinearForm F)} {xs : (Wire → Scalar F) → List (BitVec 8)}
    (eight : ∀ byte ∈ [b₃, b₂, b₁, b₀], byte.length = 8) (carries : Carries W b [b₃, b₂, b₁, b₀] xs) :
    ∃ X, Word.ofBigEndian b₃ b₂ b₁ b₀ = .ok X ∧ Carries W b X fun w => Standard.word (xs w) := by
  have bits (w : Wire → Scalar F) (satisfied : b.Satisfied W w) :
      Spells w (b₀ ++ b₁ ++ b₂ ++ b₃) (Standard.word (xs w)) := by
    obtain ⟨x₃, _, spells₃, others, same⟩ := List.forall₂_cons_left_iff.mp (carries.shows w satisfied)
    obtain ⟨x₂, _, spells₂, others₂, rfl⟩ := List.forall₂_cons_left_iff.mp others
    obtain ⟨x₁, _, spells₁, others₁, rfl⟩ := List.forall₂_cons_left_iff.mp others₂
    obtain ⟨x₀, _, spells₀, others₀, rfl⟩ := List.forall₂_cons_left_iff.mp others₁
    rw [same, List.forall₂_nil_left_iff.mp others₀, List.append_assoc, List.append_assoc]
    exact Spells.append spells₀ (Spells.append spells₁ (Spells.append spells₂ spells₃))
  have length : (b₀ ++ b₁ ++ b₂ ++ b₃).length = wordBits := by
    simp only [List.mem_cons, forall_eq_or_imp, List.not_mem_nil, false_imp_iff, implies_true, and_true] at eight
    obtain ⟨length₃, length₂, length₁, length₀⟩ := eight
    simp only [List.length_append, length₃, length₂, length₁, length₀]
    rfl
  have made : Word.ofBigEndian b₃ b₂ b₁ b₀ = .ok _ := dif_pos length
  exact ⟨_, made, Word.legible_ofBigEndian carries.legible made,
    fun w satisfied => Word.shows_of_ofBits made (bits w satisfied)⟩

theorem blockWords_computes (sound : b.Sound W) {groups : List (List (List (LinearForm F)))}
    {ys : (Wire → Scalar F) → List (List (BitVec 8))} (carries : Carries W b groups ys)
    (four : ∀ group ∈ groups, group.length = 4 ∧ ∀ byte ∈ group, byte.length = 8) :
    Computes W b (blockWords groups) fun w => (ys w).map Standard.word := by
  induction groups generalizing ys with
  | nil =>
    refine .pure sound (Carries.nil.congr fun w satisfied => ?_)
    rw [List.forall₂_nil_left_iff.mp (carries.shows w satisfied), List.map_nil]
  | cons group rest ih =>
    obtain ⟨carriesGroup, carriesRest, whole⟩ := carries.uncons []
    obtain ⟨⟨length, eight⟩, later⟩ := List.forall_mem_cons.mp four
    obtain ⟨b₃, b₂, b₁, b₀, rfl⟩ := List.length_eq_four.mp length
    obtain ⟨X, made, carriesX⟩ := ofBigEndian_carries eight carriesGroup
    have others := (ih carriesRest later).bind fun next carriesOthers =>
      Computes.pure next.sound ((carriesX.later next).cons carriesOthers)
    simp only [blockWords, made]
    refine others.congr fun w satisfied => ?_
    rw [whole w satisfied, List.map_cons]
    rfl

theorem compressAll_computes (allows : W.rule.Allows) (room : 35 ≤ F.bits - 1) (sound : b.Sound W)
    {S : State (Word F)} {s : (Wire → Scalar F) → State (BitVec 32)} (carries : Carries W b S s)
    {blocks : List (List (List (LinearForm F)))} {zs : (Wire → Scalar F) → List (List (BitVec 8))}
    (carriesBlocks : Carries W b blocks zs)
    (full : ∀ block ∈ blocks, block.length = 64 ∧ ∀ byte ∈ block, byte.length = 8) :
    Computes W b (compressAll S blocks) fun w => Standard.compressAll (s w) (zs w) := by
  induction blocks generalizing b S s zs with
  | nil =>
    refine .pure sound (carries.congr fun w satisfied => ?_)
    rw [List.forall₂_nil_left_iff.mp (carriesBlocks.shows w satisfied)]
    rfl
  | cons block rest ih =>
    obtain ⟨carriesBlock, carriesRest, whole⟩ := carriesBlocks.uncons []
    obtain ⟨⟨length, eight⟩, later⟩ := List.forall_mem_cons.mp full
    have four : ∀ group ∈ chunks 4 block, group.length = 4 ∧ ∀ byte ∈ group, byte.length = 8 := fun group cut =>
      ⟨length_of_mem_chunks ⟨16, length⟩ group cut, fun byte member => eight byte (mem_of_mem_chunks (by decide) cut member)⟩
    have sixteen (w : Wire → Scalar F) (satisfied : b.Satisfied W w) :
        ((chunks 4 ((zs w).headD [])).map Standard.word).length = 16 := by
      have same : ((zs w).headD []).length = 4 * 16 := (carriesBlock.shows w satisfied).length_eq.symm.trans length
      rw [List.length_map, length_chunks (by decide) same]
    have mixed := (blockWords_computes sound (chunks_carries (by decide) carriesBlock) four).bind
      fun {words b₁} next₁ carriesWords => (compress_computes allows room next₁.sound (carries.later next₁) carriesWords
        fun w satisfied => sixteen w (next₁.satisfied satisfied)).bind fun {T b₂} next₂ carriesT =>
          ih next₂.sound carriesT (carriesRest.later (next₁.trans next₂)) later
    refine mixed.congr fun w satisfied => ?_
    have cut := congrArg (Standard.compressAll (s w)) (whole w satisfied)
    rw [cut, Standard.compressAll, Standard.compressAll, List.foldl_cons]

end Sha256

/-! ### Messages -/

namespace Builder
variable {P Q : (Wire → Scalar F) → Prop}

/-- One builder comes from another by recording that rules out the assignments without a property, and no others if
    there are numbers for all wires. -/
structure Demands (W : World F) (b b' : Builder F) (P : (Wire → Scalar F) → Prop) : Prop where
  recorded : Recorded W b b'
  continues : Continues b b'
  necessary : ∀ {w}, b'.Satisfied W w → P w
  extension : b'.nextWire ≤ 2 ^ 32 → ∀ {w}, b.Satisfied W w → P w →
    ∃ w', LinearForm.Agree b.nextWire w w' ∧ b'.Satisfied W w'

namespace Demands

theorem sound (demands : Demands W b b₁ P) : b₁.Sound W := ⟨demands.recorded.good, demands.continues.wellFormed⟩

theorem refl (sound : b.Sound W) (always : ∀ w, P w) : Demands W b b P :=
  ⟨.refl sound.good, .refl sound.wellFormed, fun _ => always _, fun _ _ satisfied _ => ⟨_, fun _ _ => rfl, satisfied⟩⟩

/-- Two demands, the second on wires that have values before the first. -/
theorem trans (first : Demands W b b₁ P) (second : Demands W b₁ b₂ Q)
    (early : ∀ {w w'}, LinearForm.Agree b.nextWire w w' → Q w → Q w') : Demands W b b₂ fun w => P w ∧ Q w where
  recorded := first.recorded.trans second.recorded
  continues := first.continues.trans second.continues
  necessary satisfied := ⟨first.necessary (second.recorded.satisfied satisfied), second.necessary satisfied⟩
  extension room _ satisfied holds := by
    obtain ⟨w₁, agree₁, satisfied₁⟩ := first.extension (second.continues.nextWire.trans room) satisfied holds.1
    obtain ⟨w₂, agree₂, satisfied₂⟩ := second.extension room satisfied₁ (early agree₁ holds.2)
    have agree : LinearForm.Agree b.nextWire _ w₂ := fun v below =>
      (agree₁ v below).trans (agree₂ v (below.trans_le first.continues.nextWire))
    exact ⟨w₂, agree, satisfied₂⟩

theorem congr (demands : Demands W b b₁ P) (same : ∀ w, P w ↔ Q w) : Demands W b b₁ Q :=
  ⟨demands.recorded, demands.continues, fun satisfied => (same _).mp (demands.necessary satisfied),
    fun room _ satisfied holds => demands.extension room satisfied ((same _).mpr holds)⟩

theorem advance (first : Demands W b b₁ P) (second : Advances W b₁ b₂) : Demands W b b₂ P := by
  have later : Demands W b₁ b₂ fun _ => True :=
    ⟨second.recorded, second.continues, fun _ => trivial, fun room _ satisfied _ => second.extension room satisfied⟩
  exact (first.trans later fun _ => id).congr fun _ => and_iff_left trivial

end Demands
end Builder

open Builder (Demands)

namespace Sha256

/-- Splitting a byte demands that it is one. -/
theorem toBinary_demands (allows : W.rule.Allows) (few : 8 ≤ F.bits - 1) (sound : b.Sound W) {e : LinearForm F}
    (readable : e.Readable b.nextWire) : ∃ bits b', Builder.toBinary e 8 b = .ok bits b' ∧ bits.length = 8 ∧
      Demands W b b' (fun w => (e.eval w).val < 256) ∧ Carries W b' bits fun w => BitVec.ofNat 8 (e.eval w).val := by
  obtain ⟨bits, b', done⟩ := Builder.toBinary_succeeds few e b
  obtain ⟨recorded, _, gives⟩ := Builder.toBinary_performs allows sound.good readable.reads 8 bits b' done
  obtain ⟨continues, legible⟩ := (Builder.toBinary_keeps sound.wellFormed readable 8).made done
  have split {w : Wire → Scalar F} (later : b'.Satisfied W w) :
      (e.eval w).val < 256 ∧ bits.map (·.eval w) = Scalar.toBinary 8 (e.eval w) :=
    (gives (recorded.satisfied later)).sound w (fun _ _ => rfl) later
  refine ⟨bits, b', done, Builder.length_of_toBinary done,
    ⟨recorded, continues, fun later => (split later).1, fun room _ satisfied small => ?_⟩, legible,
    fun w later => Spells.of_toBinary (split later).2⟩
  obtain ⟨w', agree, later, _⟩ := (gives satisfied).complete room _ ⟨small, rfl⟩
  exact ⟨w', agree, later⟩

/-- The bytes that forms show. -/
def messageBytes (message : List (LinearForm F)) (w : Wire → Scalar F) : List (BitVec 8) :=
  message.map fun e => BitVec.ofNat 8 (e.eval w).val

theorem splitBytes_demands (allows : W.rule.Allows) (few : 8 ≤ F.bits - 1) (sound : b.Sound W)
    {message : List (LinearForm F)} (readable : ∀ e ∈ message, e.Readable b.nextWire) :
    ∃ bytes b', splitBytes message b = .ok bytes b' ∧ (∀ byte ∈ bytes, byte.length = 8) ∧
      Demands W b b' (fun w => ∀ e ∈ message, (e.eval w).val < 256) ∧ Carries W b' bytes (messageBytes message) := by
  induction message generalizing b with
  | nil => exact ⟨[], b, rfl, List.forall_mem_nil _, .refl sound (by simp), .nil⟩
  | cons e rest ih =>
    obtain ⟨first, later⟩ := List.forall_mem_cons.mp readable
    obtain ⟨bits, b₁, split, length, demands, carries⟩ := toBinary_demands allows few sound first
    obtain ⟨bytes, b₂, splitRest, lengths, demandsRest, carriesRest⟩ :=
      ih demands.sound fun e member => (later e member).mono demands.continues.nextWire
    refine ⟨bits :: bytes, b₂, ?_, List.forall_mem_cons.mpr ⟨length, lengths⟩, ?_, ?_⟩
    · exact run_bind_eq_ok.mpr ⟨bits, b₁, split, run_bind_eq_ok.mpr ⟨bytes, b₂, splitRest, rfl⟩⟩
    · refine (demands.trans demandsRest fun agree small e member => ?_).congr fun w => by rw [List.forall_mem_cons]
      rw [← LinearForm.eval_congr (later e member).reads agree]
      exact small e member
    · exact (carries.kept demandsRest.recorded demandsRest.continues).cons carriesRest

/-- Recording a digest demands that the message consists of bytes, and gives the words of its digest. -/
theorem digest_demands (allows : W.rule.Allows) (room : 35 ≤ F.bits - 1) (sound : b.Sound W) {message : List (LinearForm F)}
    (readable : ∀ e ∈ message, e.Readable b.nextWire) :
    ∃ S b', digest message b = .ok S b' ∧ Demands W b b' (fun w => ∀ e ∈ message, (e.eval w).val < 256) ∧
      Carries W b' S fun w => Standard.compressAll Standard.start (chunks 64 (Standard.pad (messageBytes message w))) := by
  obtain ⟨bytes, b₁, split, eight, demands, carries⟩ := splitBytes_demands allows (le_trans (by decide) room) sound readable
  have sound₁ := demands.sound
  have carriesPadded : Carries W b₁ (bytes ++ (padding message.length).map constantByte) fun w =>
      Standard.pad (messageBytes message w) := by
    refine (carries.append (constantBytes_carries sound₁ _)).congr fun w _ => ?_
    rw [Standard.pad_eq, messageBytes, List.length_map]
  have full : ∀ block ∈ chunks 64 (bytes ++ (padding message.length).map constantByte),
      block.length = 64 ∧ ∀ byte ∈ block, byte.length = 8 := by
    have taken := split
    rw [splitBytes_eq] at taken
    intro block cut
    refine ⟨length_of_mem_chunks ⟨_, length_padded (Builder.length_of_mapM taken)⟩ block cut, fun byte member => ?_⟩
    rcases List.mem_append.mp (mem_of_mem_chunks (by decide) cut member) with own | padded
    · exact eight byte own
    · obtain ⟨k, -, rfl⟩ := List.mem_map.mp padded
      simp [constantByte]
  obtain ⟨S, b₂, done, advances, carriesS⟩ := compressAll_computes allows room sound₁ (start_carries sound₁)
    (chunks_carries (by decide) carriesPadded) full
  exact ⟨S, b₂, run_bind_eq_ok.mpr ⟨bytes, b₁, split, done⟩, demands.advance advances, carriesS⟩

end Sha256
end ArithCircuit
