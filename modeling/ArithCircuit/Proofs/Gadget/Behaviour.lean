import ArithCircuit.Proofs.Builder.Behaviour
import ArithCircuit.Proofs.Gadget.Keeping
import ArithCircuit.Script.Action

/-!
What the gadgets do to any builder: those on bits and words, the adder, the hash function, the samples, and
with them all actions. An action fails before it records, apart from the hash function and the samples,
which may fail at any point.
-/
namespace ArithCircuit
variable {F : ScalarField} {α β : Type}

open Builder (Behaves Failing)

theorem Builder.length_of_mapM {step : α → Build F β} {as : List α} {rs : List β} {b b' : Builder F}
    (done : as.mapM step b = .ok rs b') : rs.length = as.length := by
  induction as generalizing rs b with
  | nil =>
    rw [List.mapM_nil] at done
    cases done
    rfl
  | cons a rest ih =>
    rw [List.mapM_cons] at done
    obtain ⟨r, _, -, continued⟩ := run_bind_eq_ok.mp done
    obtain ⟨others, _, mapped, ⟨⟩⟩ := run_bind_eq_ok.mp continued
    rw [List.length_cons, List.length_cons, ih mapped]

namespace Builder.Behaves
variable {f : Failing} {k : Option Nat} {n : Nat}

/-- What is made of the result does not matter. -/
theorem map_iff {step : Build F α} {h : α → β} : Behaves f k (h <$> step) ↔ Behaves f k step := by
  have ends {b b' : Builder F} : Ends (h <$> step) b b' ↔ Ends step b b' := by
    simp [Ends, run_map_eq_ok, run_map_eq_error]
  have succeeds {b : Builder F} : (∃ c b', (h <$> step) b = .ok c b') ↔ ∃ a b', step b = .ok a b' := by
    constructor
    · rintro ⟨_, b', done⟩
      obtain ⟨a, done, -⟩ := run_map_eq_ok.mp done
      exact ⟨a, b', done⟩
    · rintro ⟨a, b', done⟩
      exact ⟨h a, b', run_map_eq_ok.mpr ⟨a, done, rfl⟩⟩
  constructor
  · intro behaves
    exact ⟨fun truthful done => behaves.later truthful (ends.mpr done), fun tidy done => behaves.adds tidy (ends.mpr done),
      fun truthful done => behaves.takes truthful (ends.mpr done),
      fun never _ truthful => succeeds.mp (behaves.succeeds never truthful),
      fun notLate _ _ _ tidy failed => behaves.unchanged notLate tidy (run_map_eq_error.mpr failed)⟩
  · intro behaves
    exact ⟨fun truthful done => behaves.later truthful (ends.mp done), fun tidy done => behaves.adds tidy (ends.mp done),
      fun truthful done => behaves.takes truthful (ends.mp done),
      fun never _ truthful => succeeds.mpr (behaves.succeeds never truthful),
      fun notLate _ _ _ tidy failed => behaves.unchanged notLate tidy (run_map_eq_error.mp failed)⟩

theorem returning {step : Build F α} (behaves : Behaves f k step) (h : α → β) :
    Behaves f k (step >>= fun a => Pure.pure (h a)) := by
  rw [← map_eq_pure_bind]
  exact map_iff.mpr behaves

/-- A step for each of a list. -/
theorem mapM {step : α → Build F β} (each : ∀ a, Behaves .never (some n) (step a)) (as : List α) :
    Behaves .never (some (as.length * n)) (as.mapM step) := by
  induction as with
  | nil =>
    rw [List.mapM_nil]
    exact (Behaves.pure _).weaken (Nat.zero_le _)
  | cons a rest ih =>
    rw [List.mapM_cons, List.length_cons, Nat.succ_mul]
    refine (each a).bind (Nat.le_add_left ..) fun r => ?_
    rw [Nat.add_sub_cancel]
    exact ih.bind le_rfl fun rs => (Behaves.pure _).weaken (Nat.zero_le _)

theorem lateMapM {step : α → Build F β} (each : ∀ a, Behaves f (some n) (step a)) (as : List α) :
    Behaves .late (some (as.length * n)) (as.mapM step) := by
  induction as with
  | nil =>
    rw [List.mapM_nil]
    exact (Behaves.pure _).late.weaken (Nat.zero_le _)
  | cons a rest ih =>
    rw [List.mapM_cons, List.length_cons, Nat.succ_mul]
    refine (each a).lateBind (Nat.le_add_left ..) fun r => ?_
    rw [Nat.add_sub_cancel]
    exact ih.bind le_rfl fun rs => (Behaves.pure _).weaken (Nat.zero_le _)

/-- A bit for each place of a word. -/
theorem word {step : α → Build F (LinearForm F)} (each : ∀ a, Behaves .never (some n) (step a)) (as : Vector α wordBits) :
    Behaves .never (some (wordBits * n)) (do
      let bits ← as.mapM step
      return (⟨bits⟩ : Word F)) := by
  have listed := mapM each as.toList
  rw [Vector.length_toList, ← toList_mapM, map_iff] at listed
  exact listed.bind le_rfl fun bits => (Behaves.pure _).weaken (Nat.zero_le _)

end Builder.Behaves

namespace Bit

theorem xor_behaves (x y : LinearForm F) : Behaves .never (some 1) (xor x y) := by
  rcases xor_cases x y with ⟨z, -, decided, -⟩ | multiplied
  · rw [decided]
    exact (Behaves.pure z).weaken (Nat.zero_le 1)
  · rw [multiplied]
    exact (Builder.mul_behaves x y).bind le_rfl fun _ => .pure _

theorem and_behaves (x y : LinearForm F) : Behaves .never (some 1) (and x y) := by
  have decided (z : LinearForm F) : Behaves .never (some 1) (pure z : Build F (LinearForm F)) :=
    (Behaves.pure z).weaken (Nat.zero_le 1)
  unfold and
  dsimp only
  split
  · exact decided _
  · split
    · exact decided _
    · split
      · exact decided _
      · exact Builder.mul_behaves x y

theorem select_behaves (c t f : LinearForm F) : Behaves .never (some 1) (select c t f) := by
  unfold select
  dsimp only
  split
  · exact (Behaves.pure f).weaken (Nat.zero_le 1)
  · split
    · exact (Behaves.pure t).weaken (Nat.zero_le 1)
    · exact Builder.select_behaves c t f

end Bit

namespace Word

theorem xor_behaves (x y : Word F) : Behaves .never (some 32) (xor x y) := by
  have each (p : LinearForm F × LinearForm F) := Bit.xor_behaves p.1 p.2
  exact .word each (x.bits.zip y.bits)

theorem and_behaves (x y : Word F) : Behaves .never (some 32) (and x y) := by
  have each (p : LinearForm F × LinearForm F) := Bit.and_behaves p.1 p.2
  exact .word each (x.bits.zip y.bits)

theorem select_behaves (c t f : Word F) : Behaves .never (some 32) (select c t f) := by
  have each (p : LinearForm F × LinearForm F × LinearForm F) := Bit.select_behaves p.1 p.2.1 p.2.2
  exact .word each (c.bits.zip (t.bits.zip f.bits))

theorem majority_behaves (x y z : Word F) : Behaves .never (some 64) (majority x y z) := by
  have each (p : LinearForm F × LinearForm F × LinearForm F) : Behaves .never (some 2) (do
      let differ ← Bit.xor p.1 p.2.1
      Bit.select differ p.2.2 p.1) :=
    (Bit.xor_behaves p.1 p.2.1).bind (by decide) fun differ => Bit.select_behaves differ p.2.2 p.1
  exact .word each (x.bits.zip (y.bits.zip z.bits))

theorem build_behaves (bits : List (LinearForm F)) : Behaves .early (some 0) (build bits) := by
  unfold build
  split
  · exact (Behaves.pure _).early
  · exact .throw _

/-- Splitting gives the bits that were asked for, so a word is made of them where 32 of them are taken. -/
theorem split_behaves (e : LinearForm F) {count : Nat} (taken : List (LinearForm F) → List (LinearForm F))
    (fits : ∀ bits, bits.length = count → (taken bits).length = wordBits) :
    Behaves .early (some (2 * count)) (do
      let bits ← Builder.toBinary e count
      build (taken bits)) := by
  refine (Builder.toBinary_behaves e count).follow le_rfl fun {_ bits _} done => ?_
  have built : build (taken bits) = pure ⟨⟨(taken bits).toArray, fits bits (Builder.length_of_toBinary done)⟩⟩ := by
    simp only [build, ofBits, dif_pos (fits bits (Builder.length_of_toBinary done))]
  rw [built]
  exact (Behaves.pure _).weaken (Nat.zero_le _)

theorem decompose_behaves (e : LinearForm F) : Behaves .early (some 64) (decompose e) :=
  split_behaves e id fun _ length => length

theorem sum_behaves (words : List (Word F)) :
    Behaves .early (some (2 * (wordBits + bitLength (words.length - 1)))) (sum words) := by
  refine split_behaves _ (List.take wordBits) fun bits length => ?_
  rw [List.length_take, length]
  omega

theorem sum_few_behaves {words : List (Word F)} (few : words.length ≤ 8) : Behaves .early (some 70) (sum words) := by
  have carries : bitLength (words.length - 1) ≤ 3 := lt_two_pow_iff_bitLength_le.mp (by omega)
  refine (sum_behaves words).weaken ?_
  unfold wordBits
  omega

end Word

/-! ### The adder -/

namespace Span

theorem join_behaves (high low : Span F) : Behaves .never (some 2) (join high low) :=
  (Builder.mul_behaves ..).bind (by decide) fun _ => (Builder.mul_behaves ..).bind (by decide) fun _ => .pure _

theorem joinAt_behaves (distance : Nat) (positions : List Nat) (spans : Array (Span F)) :
    Behaves .never (some (positions.length * 2)) (joinAt distance positions spans) := by
  induction positions generalizing spans with
  | nil => exact .pure spans
  | cons i rest ih =>
    rw [List.length_cons, Nat.succ_mul]
    refine (join_behaves ..).bind (Nat.le_add_left ..) fun joined => ?_
    rw [Nat.add_sub_cancel]
    exact ih _

theorem size_of_joinAt {distance : Nat} {positions : List Nat} {spans spans' : Array (Span F)} {b b' : Builder F}
    (done : joinAt distance positions spans b = .ok spans' b') : spans'.size = spans.size := by
  induction positions generalizing spans b with
  | nil =>
    cases done
    rfl
  | cons i rest ih =>
    obtain ⟨joined, b₁, -, rest⟩ := run_bind_eq_ok.mp done
    rw [ih rest, Array.size_setIfInBounds]

theorem length_stride_le (first bound : Nat) {step : Nat} (positive : 0 < step) : (stride first bound step).length ≤ bound := by
  rw [stride, List.length_map, List.length_range, ← Nat.lt_succ_iff, Nat.div_lt_iff_lt_mul positive, Nat.succ_mul]
  have grows : bound ≤ bound * step := Nat.le_mul_of_pos_right bound positive
  omega

theorem sweep_behaves (first : Nat → Nat) (levels : List Nat) (spans : Array (Span F)) :
    Behaves .never (some (levels.length * (spans.size * 2))) (sweep first levels spans) := by
  induction levels generalizing spans with
  | nil => exact (Behaves.pure spans).weaken (Nat.zero_le _)
  | cons level rest ih =>
    rw [List.length_cons, Nat.succ_mul]
    have joins := (joinAt_behaves (2 ^ level) (stride (first (2 ^ level)) spans.size (2 * 2 ^ level)) spans).weaken
      (Nat.mul_le_mul_right 2 (length_stride_le (first (2 ^ level)) spans.size (by positivity)))
    refine joins.follow (Nat.le_add_left ..) fun {_ spans' _} done => ?_
    rw [Nat.add_sub_cancel, ← size_of_joinAt done]
    exact ih spans'

theorem size_of_sweep {first : Nat → Nat} {levels : List Nat} {spans spans' : Array (Span F)} {b b' : Builder F}
    (done : sweep first levels spans b = .ok spans' b') : spans'.size = spans.size := by
  induction levels generalizing spans b with
  | nil =>
    cases done
    rfl
  | cons level rest ih =>
    obtain ⟨_, _, joined, rest⟩ := run_bind_eq_ok.mp done
    rw [ih rest, size_of_joinAt joined]

theorem prefixes_behaves (spans : Array (Span F)) :
    Behaves .never (some (bitLength (spans.size - 1) * (spans.size * 4))) (prefixes spans) := by
  have up := sweep_behaves (fun d => 2 * d - 1) (List.range (bitLength (spans.size - 1))) spans
  rw [List.length_range] at up
  refine up.follow (Nat.mul_le_mul_left _ (by omega)) fun {_ spans' _} done => ?_
  have down := sweep_behaves (fun d => 3 * d - 1) (List.range (bitLength (spans.size - 1) - 1)).reverse spans'
  rw [List.length_reverse, List.length_range, size_of_sweep done] at down
  refine down.weaken ?_
  rw [← Nat.mul_sub]
  exact Nat.mul_le_mul (Nat.sub_le ..) (by omega)

end Span

namespace PrefixAdder

theorem propagateAll_behaves (pairs : List (LinearForm F × LinearForm F)) :
    Behaves .never (some (pairs.length * 1)) (propagateAll pairs) := by
  rw [propagateAll_eq]
  exact .mapM (fun p => Bit.xor_behaves p.1 p.2) pairs

theorem generateAll_behaves (pairs : List (LinearForm F × LinearForm F)) :
    Behaves .never (some (pairs.length * 1)) (generateAll pairs) := by
  rw [generateAll_eq]
  exact .mapM (fun p => Builder.mul_behaves p.1 p.2) pairs

theorem sumBits_behaves (carry : LinearForm F) (places : List (LinearForm F × Span F)) :
    Behaves .never (some places.length) (sumBits carry places) := by
  induction places generalizing carry with
  | nil => exact .pure _
  | cons place rest ih =>
    refine (Bit.xor_behaves place.1 carry).bind (Nat.le_add_left ..) fun bit => ?_
    exact (ih place.2.generate).bind le_rfl fun sums => (Behaves.pure _).weaken (Nat.zero_le _)

theorem add_behaves (xs ys : List (LinearForm F)) (carry : LinearForm F) :
    Behaves .early (some (xs.length * 3 + 1 + bitLength (xs.length - 1) * (xs.length * 4))) (add xs ys carry) := by
  unfold add
  split
  · exact (Behaves.throw _).weaken (Nat.zero_le _)
  · rename_i same
    have length : (xs.zip ys).length = xs.length := by
      rw [List.length_zip, ← not_not.mp same, Nat.min_self]
    refine Behaves.early ((propagateAll_behaves _).follow (by omega) fun {_ propagate _} propagated => ?_)
    refine (generateAll_behaves _).follow (by omega) fun {_ generate _} generated => ?_
    rw [propagateAll_eq] at propagated
    rw [generateAll_eq] at generated
    have places := (Builder.length_of_mapM propagated).trans length
    have places' := (Builder.length_of_mapM generated).trans length
    split
    · rename_i p ps g gs
      refine (Builder.mul_behaves p carry).bind (by omega) fun absorbed => ?_
      let spans : List (Span F) := ⟨g + absorbed, p⟩ :: (gs.zip ps).map fun place => ⟨place.1, place.2⟩
      have size : spans.toArray.size = xs.length := by
        rw [List.size_toArray, List.length_cons, List.length_map, List.length_zip]
        rw [List.length_cons] at places places'
        omega
      have joined := Span.prefixes_behaves spans.toArray
      rw [size] at joined
      refine joined.bind (by omega) fun spans' => (sumBits_behaves carry _).weaken ?_
      rw [List.length_zip]
      omega
    · exact (Behaves.pure _).weaken (Nat.zero_le _)

end PrefixAdder

/-! ### The hash function -/

/-- A list of a whole number of chunks has no shorter chunk. -/
theorem length_of_mem_chunks {size : Nat} {as : List α} (whole : size ∣ as.length) :
    ∀ chunk ∈ chunks size as, chunk.length = size := by
  fun_induction chunks size as with
  | case1 as none => simp
  | case2 as some ih =>
    have full : size ≤ as.length := Nat.le_of_dvd (List.length_pos_iff.mpr fun empty => some (.inr empty)) whole
    refine List.forall_mem_cons.mpr ⟨List.length_take_of_le full, ih ?_⟩
    rw [List.length_drop]
    exact Nat.dvd_sub whole (dvd_refl size)

theorem length_chunks {size : Nat} (positive : 0 < size) {as : List α} {count : Nat} (length : as.length = size * count) :
    (chunks size as).length = count := by
  have each := length_of_mem_chunks ⟨count, length⟩
  have total := congrArg List.length (flatten_chunks positive as)
  rw [List.length_flatten, List.map_congr_left each, List.map_const', List.sum_replicate, smul_eq_mul, length,
    Nat.mul_comm] at total
  exact Nat.eq_of_mul_eq_mul_left positive total

namespace Sha256

theorem xor3_behaves (x y z : Word F) : Behaves .never (some 64) (xor3 x y z) :=
  (Word.xor_behaves x y).bind (by decide) fun xy => Word.xor_behaves xy z

theorem extendSchedule_behaves (count : Nat) (words : Array (Word F)) :
    Behaves .late (some (count * 198)) (extendSchedule count words) := by
  induction count generalizing words with
  | zero => exact (Behaves.pure words).late.weaken (Nat.zero_le _)
  | succ count ih =>
    rw [Nat.succ_mul]
    refine (xor3_behaves ..).lateBind (by omega) fun s₀ => (xor3_behaves ..).lateBind (by omega) fun s₁ => ?_
    exact (Word.sum_few_behaves (by simp)).lateBind (by omega) fun next => (ih _).weaken (by omega)

theorem round_behaves (s : State (Word F)) (k : Nat) (w : Word F) : Behaves .late (some 364) (round s k w) := by
  refine (xor3_behaves ..).lateBind (by decide) fun sigmaE => (Word.select_behaves ..).lateBind (by decide) fun choice => ?_
  refine (xor3_behaves ..).lateBind (by decide) fun sigmaA => (Word.majority_behaves ..).lateBind (by decide) fun majority => ?_
  refine (Word.sum_few_behaves (by simp)).lateBind (by decide) fun newE => ?_
  exact ((Word.sum_few_behaves (by simp)).bind (by decide) fun newA => .pure _).late

theorem rounds_behaves (s : State (Word F)) (inputs : List (Nat × Word F)) :
    Behaves .late (some (inputs.length * 364)) (rounds s inputs) := by
  induction inputs generalizing s with
  | nil => exact (Behaves.pure s).late.weaken (Nat.zero_le _)
  | cons input rest ih =>
    rw [List.length_cons, Nat.succ_mul]
    exact (round_behaves s input.1 input.2).lateBind (by omega) fun s => (ih s).weaken (by omega)

theorem addStates_behaves (s t : State (Word F)) : Behaves .late (some 560) (addStates s t) := by
  have each (p : Word F × Word F) : Behaves .early (some 70) (Word.sum [p.1, p.2]) := Word.sum_few_behaves (by simp)
  have listed := Behaves.lateMapM each (s.toList.zip t.toList)
  have eight : (s.toList.zip t.toList).length = 8 := rfl
  rw [← toList_addStates, Behaves.map_iff, eight] at listed
  exact listed

theorem compress_behaves (s : State (Word F)) (block : List (Word F)) : Behaves .late (some 33360) (compress s block) := by
  refine (extendSchedule_behaves 48 _).lateBind (by decide) fun words => ?_
  have few : (roundConstants.zip words.toList).length ≤ 64 := by
    rw [List.length_zip]
    exact Nat.min_le_left ..
  exact (rounds_behaves s _).lateBind (by omega) fun mixed => (addStates_behaves s mixed).weaken (by omega)

theorem blockWords_behaves (bytes : List (List (List (LinearForm F)))) : Behaves .late (some 0) (blockWords bytes) := by
  induction bytes with
  | nil => exact (Behaves.pure _).late
  | cons first rest ih =>
    unfold blockWords
    split
    · split
      · exact (Behaves.throw _).late
      · exact ih.bind le_rfl fun _ => .pure _
    · exact ih

theorem compressAll_behaves (s : State (Word F)) (blocks : List (List (List (LinearForm F)))) :
    Behaves .late (some (blocks.length * 33360)) (compressAll s blocks) := by
  induction blocks generalizing s with
  | nil => exact (Behaves.pure s).late.weaken (Nat.zero_le _)
  | cons block rest ih =>
    rw [List.length_cons, Nat.succ_mul]
    refine (blockWords_behaves _).lateBind (Nat.zero_le _) fun words => ?_
    exact (compress_behaves s words).lateBind (by omega) fun s => (ih s).weaken (by omega)

theorem splitBytes_behaves (message : List (LinearForm F)) :
    Behaves .late (some (message.length * 16)) (splitBytes message) := by
  rw [splitBytes_eq]
  exact .lateMapM (fun byte => Builder.toBinary_behaves byte 8) message

theorem length_padding (n : Nat) : (padding n).length = paddedLength n - n := by
  rw [padding, List.length_append, List.length_cons, List.length_replicate, bigEndian64, List.length_map,
    List.length_reverse, List.length_range]
  unfold paddedLength
  omega

/-- A padded message is made of whole blocks. -/
theorem length_padded {bytes : List (List (LinearForm F))} {n : Nat} (length : bytes.length = n) :
    (bytes ++ (padding n).map constantByte).length = 64 * ((n + 72) / 64) := by
  rw [List.length_append, List.length_map, length_padding, length]
  unfold paddedLength
  omega

/-- Each byte takes 16 wires, and each block of bytes at most 33360. -/
theorem digest_behaves (message : List (LinearForm F)) :
    Behaves .late (some (message.length * 16 + (message.length + 72) / 64 * 33360)) (digest message) := by
  refine (splitBytes_behaves message).sequence (g := .late) (l := some ((message.length + 72) / 64 * 33360))
    (fun {_ bytes _} done => ?_) fun n same => ⟨_, _, rfl, rfl, (Option.some.inj same).le⟩
  rw [splitBytes_eq] at done
  have whole := length_padded (Builder.length_of_mapM done)
  have blocks := compressAll_behaves (initial.map Word.constant) (chunks 64 (bytes ++ (padding message.length).map constantByte))
  rwa [length_chunks (by decide) whole] at blocks

end Sha256

/-! ### Samples and actions -/

namespace Sample

theorem squareStep_behaves : Behaves .early (some 1) (squareStep : Build F Unit) := by
  refine (Builder.input_behaves 0).bind (by decide) fun x => (Builder.mul_behaves x x).bind (by decide) fun square => ?_
  exact Builder.output_behaves _

theorem iterateCall_behaves (id : CircuitId) (rounds : Nat) (x : LinearForm F) :
    Behaves .late none (iterateCall id rounds x) := by
  induction rounds generalizing x with
  | zero => exact (Behaves.pure x).late.unbounded
  | succ rounds ih => exact (Builder.call_behaves id [x]).unboundedBind fun outputs => ih _

theorem define_behaves (s : Sample) : Behaves .late none (s.define : Build F Unit) := by
  cases s with
  | identity => exact (Builder.input_behaves 0).unboundedBind fun x => (Builder.output_behaves x).any
  | different =>
    refine (Builder.input_behaves 0).unboundedBind fun x => (Builder.input_behaves 1).unboundedBind fun y => ?_
    exact (Builder.assertDistinct_behaves x y).any
  | nonZero => exact (Builder.input_behaves 0).unboundedBind fun x => (Builder.assertDistinct_behaves x .zero).any
  | squareChain rounds =>
    refine (Builder.define_behaves "square_step" 1 squareStep_behaves).unboundedBind fun id => ?_
    refine (Builder.input_behaves 0).unboundedBind fun x => ?_
    exact (iterateCall_behaves id rounds x).unboundedBind fun result => (Builder.output_behaves result).any
  | sha256 length =>
    refine Builder.inputs_behaves.unboundedBind fun message => ?_
    exact (Sha256.digest_behaves message).unboundedBind fun digest => (Builder.outputAll_behaves _).any

end Sample

namespace Action

/-- How an action fails. -/
def failing : Action F → Failing
  | .sha256 _ | .sample _ => .late
  | _ => .early

theorem run_behaves (store : Store F) (action : Action F) : Behaves action.failing none (action.run store) := by
  have made (product : Product F) : Behaves .early none (pure product : Build F (Product F)) :=
    (Behaves.pure product).early.unbounded
  have always {α : Type} {step : Build F α} {k : Option Nat} (behaves : Behaves .never k step) (product : α → Product F) :
      Behaves .early none (step >>= fun a => pure (product a)) :=
    behaves.early.unbounded.returning product
  have early {α : Type} {step : Build F α} {k : Option Nat} (behaves : Behaves .early k step) (product : α → Product F) :
      Behaves .early none (step >>= fun a => pure (product a)) :=
    behaves.unbounded.returning product
  cases action with
  | form _ | add _ _ | sub _ _ | neg _ | scale _ _ | fromBinary _ | wordConstant _ | wordRotateRight _ _
  | wordShiftRight _ _ | wordNot _ | wordValue _ | wordBytes _ | wordBits _ => exact made _
  | input index => exact early (Builder.input_behaves index) _
  | inputs => exact always Builder.inputs_behaves _
  | mul x y => exact always (Builder.mul_behaves ..) _
  | reify x => exact always (Builder.reify_behaves _) _
  | innerProduct xs ys => exact early (Builder.innerProduct_behaves ..) _
  | assertZero x => exact always (Builder.requireZero_behaves ..) _
  | assertEqual x y => exact always (Builder.requireZero_behaves ..) _
  | assertDistinct x y => exact always (Builder.assertDistinct_behaves ..) _
  | assertBoolean x => exact always (Builder.assertBoolean_behaves _) _
  | select c t f => exact always (Builder.select_behaves ..) _
  | inverse x => exact early (Builder.inverse_behaves _) _
  | div x y => exact early (Builder.div_behaves ..) _
  | divUnchecked x y => exact early (Builder.divUnchecked_behaves ..) _
  | isZero x => exact always (Builder.isZero_behaves _) _
  | and x y => exact always (Builder.and_behaves ..) _
  | or x y => exact always (Builder.or_behaves ..) _
  | xor x y => exact always (Builder.xor_behaves ..) _
  | lookup2 c₀ c₁ v₀ v₁ v₂ v₃ => exact always (Builder.lookup2_behaves ..) _
  | toBinary x count => exact early (Builder.toBinary_behaves ..) _
  | output es => exact always (Builder.outputAll_behaves _) _
  | hint name args count => exact early (Builder.hint_behaves ..) _
  | call id args => exact early (Builder.call_behaves ..) _
  | refuse message => exact (Behaves.throw _).unbounded
  | info => exact .look fun _ => made _
  | sample s => exact s.define_behaves.returning _
  | addBits xs ys carry => exact early (PrefixAdder.add_behaves ..) _
  | sha256 message => exact (Sha256.digest_behaves _).unbounded.returning _
  | wordOfBits bits => exact early (Word.build_behaves _) _
  | wordDecompose x => exact early (Word.decompose_behaves _) _
  | wordOfBigEndian b₃ b₂ b₁ b₀ =>
    simp only [run]
    split
    · exact made _
    · exact (Behaves.throw _).unbounded
  | wordXor x y => exact always (Word.xor_behaves ..) _
  | wordAnd x y => exact always (Word.and_behaves ..) _
  | wordSelect c t f => exact always (Word.select_behaves ..) _
  | wordMajority x y z => exact always (Word.majority_behaves ..) _
  | wordSum ws => exact early (Word.sum_behaves _) _

end Action
end ArithCircuit
