import ArithCircuit.Gadget.PrefixAdder
import ArithCircuit.Proofs.Builder.Keeping
import ArithCircuit.Sample

/-!
The gadgets on bits, words and messages keep the rules of builders: they are made of builder operations
on operands that can be read.
-/
namespace ArithCircuit
variable {F : ScalarField} {b : Builder F}

open Builder (Keeps Continues)
open LinearForm (Readable)

namespace Legible
variable {α : Type} [Legible α]

instance : Legible (Array α) :=
  ⟨fun n as => ∀ a ∈ as, At n a, fun le all a member => mono le (all a member)⟩

instance {size : Nat} : Legible (Vector α size) :=
  ⟨fun n as => ∀ a ∈ as, At n a, fun le all a member => mono le (all a member)⟩

instance : Legible (Word F) := ⟨fun n w => At n w.bits, fun le all => mono le all⟩

instance : Legible (Span F) :=
  ⟨fun n s => s.generate.Readable n ∧ s.propagate.Readable n, fun le both => ⟨both.1.mono le, both.2.mono le⟩⟩

instance : Legible (Sha256.State α) := ⟨fun n s => At n s.toList, fun le all => mono le all⟩

@[simp] theorem nil (n : Nat) : At n ([] : List α) := List.forall_mem_nil _

@[simp] theorem cons_iff {n : Nat} {a : α} {as : List α} : At n (a :: as) ↔ At n a ∧ At n as := List.forall_mem_cons

theorem getD {n i : Nat} {as : Array α} {default : α} (all : At n as) (otherwise : At n default) :
    At n (as.getD i default) := by
  rw [Array.getD_eq_getD_getElem?]
  cases found : as[i]? with
  | none => exact otherwise
  | some a => exact all a (Array.mem_of_getElem? found)

end Legible

namespace Builder.Keeps
variable {α β : Type} [Legible β]

/-- A step for each of a list. -/
theorem mapM (wellFormed : b.WellFormed) {as : List α} {f : α → Build F β}
    (each : ∀ a ∈ as, ∀ {b₁}, Continues b b₁ → Keeps b₁ (f a)) : Keeps b (as.mapM f) := by
  induction as generalizing b with
  | nil =>
    rw [List.mapM_nil]
    exact .pure wellFormed (List.forall_mem_nil _)
  | cons a rest ih =>
    obtain ⟨first, later⟩ := List.forall_mem_cons.mp each
    rw [List.mapM_cons]
    refine (first (.refl wellFormed)).bind fun {r b₁} next made => ?_
    refine (ih next.wellFormed fun a member _ more => later a member (next.trans more)).bind fun {rs b₂} after others => ?_
    exact .pure after.wellFormed (List.forall_mem_cons.mpr ⟨Legible.mono after.nextWire made, others⟩)

theorem vectorMapM (wellFormed : b.WellFormed) {size : Nat} {as : Vector α size} {f : α → Build F β}
    (each : ∀ a ∈ as, ∀ {b₁}, Continues b b₁ → Keeps b₁ (f a)) : Keeps b (as.mapM f) := by
  have keeps : Keeps b (as.toList.mapM f) := mapM wellFormed fun a member => each a (Vector.mem_toList_iff.mp member)
  refine ⟨fun {r b'} done => ?_, fun done => keeps.failed (run_mapM_eq_error.mp done)⟩
  obtain ⟨continues, legible⟩ := keeps.made (run_mapM_eq_ok.mp done)
  exact ⟨continues, fun a member => legible a (Vector.mem_toList_iff.mpr member)⟩

end Builder.Keeps

/-! ### Bits -/

namespace Bit

theorem eval_not (x : LinearForm F) {w : Wire → Scalar F} (one : w Wire.one = 1) : (not x).eval w = 1 - x.eval w := by
  rw [not, LinearForm.eval_sub, LinearForm.eval_constant one]

/-- An exclusive or is decided by a constant operand, or takes a product. -/
theorem xor_cases (x y : LinearForm F) :
    (∃ z ∈ [x, y, not x, not y], xor x y = pure z ∧
      ∀ w, w Wire.one = 1 → z.eval w = x.eval w + y.eval w - 2 * (x.eval w * y.eval w)) ∨
    xor x y = do
      let xy ← Builder.mul x y
      return x + y - xy.scale (.ofNat 2) := by
  unfold xor
  dsimp only
  split
  · rename_i zero
    refine .inl ⟨y, by simp, rfl, fun w one => ?_⟩
    rw [LinearForm.eval_of_constant? zero one]
    ring
  · split
    · rename_i zero
      refine .inl ⟨x, by simp, rfl, fun w one => ?_⟩
      rw [LinearForm.eval_of_constant? zero one]
      ring
    · split
      · rename_i isOne
        refine .inl ⟨not y, by simp, rfl, fun w one => ?_⟩
        rw [eval_not y one, LinearForm.eval_of_constant? isOne one]
        ring
      · split
        · rename_i isOne
          refine .inl ⟨not x, by simp, rfl, fun w one => ?_⟩
          rw [eval_not x one, LinearForm.eval_of_constant? isOne one]
          ring
        · exact .inr rfl

theorem readable_not (wellFormed : b.WellFormed) {x : LinearForm F} (readable : x.Readable b.nextWire) :
    (not x).Readable b.nextWire :=
  (Readable.constant wellFormed.positive 1).sub readable

section
variable (wellFormed : b.WellFormed) {x y : LinearForm F} (left : x.Readable b.nextWire) (right : y.Readable b.nextWire)

include wellFormed left right

theorem xor_keeps : Keeps b (xor x y) := by
  rcases xor_cases x y with ⟨z, member, decided, -⟩ | multiplied
  · have readable : Legible.At b.nextWire [x, y, not x, not y] := by
      simp only [Legible.cons_iff, Legible.nil, and_true]
      exact ⟨left, right, readable_not wellFormed left, readable_not wellFormed right⟩
    rw [decided]
    exact .pure wellFormed (readable z member)
  · rw [multiplied]
    refine (Builder.mul_keeps wellFormed left right).bind fun next made => ?_
    have sum := (left.add right).mono next.nextWire
    exact .pure next.wellFormed (sum.sub (made.scale _))

theorem and_keeps : Keeps b (and x y) := by
  unfold and
  dsimp only
  split
  · exact .pure wellFormed (.zero _)
  · split
    · exact .pure wellFormed right
    · split
      · exact .pure wellFormed left
      · exact Builder.mul_keeps wellFormed left right

theorem select_keeps {c : LinearForm F} (readable : c.Readable b.nextWire) : Keeps b (select c x y) := by
  unfold select
  dsimp only
  split
  · exact .pure wellFormed right
  · split
    · exact .pure wellFormed left
    · exact Builder.select_keeps wellFormed readable left right

end
end Bit

/-! ### Words -/

namespace Word

/-- A word whose bits are given one by one. -/
theorem legible_ofFn {n : Nat} {bits : Fin wordBits → LinearForm F} (readable : ∀ i, (bits i).Readable n) :
    Legible.At n (⟨.ofFn bits⟩ : Word F) := by
  intro e member
  obtain ⟨i, rfl⟩ := Vector.mem_ofFn.mp member
  exact readable i

theorem readable_get {n : Nat} {w : Word F} (legible : Legible.At n w) (i : Fin wordBits) : (w.bits.get i).Readable n :=
  legible _ (Vector.getElem_mem i.isLt)

theorem legible_constant (wellFormed : b.WellFormed) (k : Nat) : Legible.At b.nextWire (constant k : Word F) :=
  legible_ofFn fun _ => .constant wellFormed.positive _

theorem legible_rotateRight {n : Nat} {w : Word F} (legible : Legible.At n w) (k : Nat) : Legible.At n (w.rotateRight k) :=
  legible_ofFn fun _ => readable_get legible _

theorem legible_shiftRight {n : Nat} {w : Word F} (legible : Legible.At n w) (k : Nat) : Legible.At n (w.shiftRight k) := by
  refine legible_ofFn fun i => ?_
  cases found : w.bits[i.val + k]? with
  | none => exact .zero n
  | some e => exact legible e (Vector.mem_of_getElem? found)

theorem legible_not (wellFormed : b.WellFormed) {w : Word F} (legible : Legible.At b.nextWire w) :
    Legible.At b.nextWire w.not := by
  intro e member
  obtain ⟨x, inside, rfl⟩ := Vector.mem_map.mp member
  exact Bit.readable_not wellFormed (legible x inside)

theorem legible_ofBits {n : Nat} {bits : List (LinearForm F)} (readable : ∀ e ∈ bits, e.Readable n) {w : Word F}
    (made : ofBits bits = .ok w) : Legible.At n w := by
  unfold ofBits at made
  split at made
  · cases made
    intro e member
    exact readable e (by simpa using member)
  · cases made

theorem legible_ofBigEndian {n : Nat} {b₃ b₂ b₁ b₀ : List (LinearForm F)} (legible : Legible.At n [b₃, b₂, b₁, b₀])
    {w : Word F} (made : ofBigEndian b₃ b₂ b₁ b₀ = .ok w) : Legible.At n w := by
  refine legible_ofBits (fun e member => ?_) made
  simp only [List.mem_append] at member
  rcases member with ((inside | inside) | inside) | inside
  all_goals exact legible _ (by simp) e inside

theorem build_keeps (wellFormed : b.WellFormed) {bits : List (LinearForm F)} (readable : ∀ e ∈ bits, e.Readable b.nextWire) :
    Keeps b (build bits) := by
  unfold build
  split
  · rename_i w made
    exact .pure wellFormed (legible_ofBits readable made)
  · exact .throw wellFormed _

theorem readable_value {n : Nat} {w : Word F} (legible : Legible.At n w) : w.value.Readable n :=
  Builder.readable_fromBinary fun e member => legible e (Vector.mem_toList_iff.mp member)

theorem readable_bytes {n : Nat} {w : Word F} (legible : Legible.At n w) : ∀ e ∈ w.littleEndianBytes, e.Readable n := by
  intro e member
  obtain ⟨i, -, rfl⟩ := List.mem_map.mp member
  refine Builder.readable_fromBinary fun x inside => ?_
  exact legible x (Vector.mem_toList_iff.mp (List.mem_of_mem_drop (List.mem_of_mem_take inside)))

theorem decompose_keeps (wellFormed : b.WellFormed) {e : LinearForm F} (readable : e.Readable b.nextWire) :
    Keeps b (decompose e) :=
  (Builder.toBinary_keeps wellFormed readable wordBits).bind fun next made => build_keeps next.wellFormed made

section
variable (wellFormed : b.WellFormed) {x y z : Word F} (readsX : Legible.At b.nextWire x) (readsY : Legible.At b.nextWire y)

include wellFormed readsX readsY

theorem xor_keeps : Keeps b (xor x y) := by
  refine (Keeps.vectorMapM wellFormed fun p member b₁ next => ?_).bind fun next made => .pure next.wellFormed made
  obtain ⟨left, right⟩ := Vector.of_mem_zip member
  exact Bit.xor_keeps next.wellFormed ((readsX _ left).mono next.nextWire) ((readsY _ right).mono next.nextWire)

theorem and_keeps : Keeps b (and x y) := by
  refine (Keeps.vectorMapM wellFormed fun p member b₁ next => ?_).bind fun next made => .pure next.wellFormed made
  obtain ⟨left, right⟩ := Vector.of_mem_zip member
  exact Bit.and_keeps next.wellFormed ((readsX _ left).mono next.nextWire) ((readsY _ right).mono next.nextWire)

theorem select_keeps (readsZ : Legible.At b.nextWire z) : Keeps b (select x y z) := by
  refine (Keeps.vectorMapM wellFormed fun p member b₁ next => ?_).bind fun next made => .pure next.wellFormed made
  obtain ⟨first, others⟩ := Vector.of_mem_zip member
  obtain ⟨second, third⟩ := Vector.of_mem_zip others
  exact Bit.select_keeps next.wellFormed ((readsY _ second).mono next.nextWire) ((readsZ _ third).mono next.nextWire)
    ((readsX _ first).mono next.nextWire)

theorem majority_keeps (readsZ : Legible.At b.nextWire z) : Keeps b (majority x y z) := by
  refine (Keeps.vectorMapM wellFormed fun p member b₁ next => ?_).bind fun next made => .pure next.wellFormed made
  obtain ⟨first, others⟩ := Vector.of_mem_zip member
  obtain ⟨second, third⟩ := Vector.of_mem_zip others
  have first := (readsX _ first).mono next.nextWire
  have second := (readsY _ second).mono next.nextWire
  refine (Bit.xor_keeps next.wellFormed first second).bind fun {differ b₂} after readable => ?_
  have third := (readsZ _ third).mono (next.trans after).nextWire
  exact Bit.select_keeps after.wellFormed third (first.mono after.nextWire) readable

end

theorem readable_total {n : Nat} {words : List (Word F)} (legible : Legible.At n words) {e : LinearForm F}
    (readable : e.Readable n) : (words.foldl (fun total w => total + w.value) e).Readable n := by
  induction words generalizing e with
  | nil => exact readable
  | cons w rest ih =>
    obtain ⟨first, later⟩ := List.forall_mem_cons.mp legible
    exact ih later (readable.add (readable_value first))

theorem sum_keeps (wellFormed : b.WellFormed) {words : List (Word F)} (legible : Legible.At b.nextWire words) :
    Keeps b (sum words) := by
  refine (Builder.toBinary_keeps wellFormed (readable_total legible (.zero _)) _).bind fun next made => ?_
  exact build_keeps next.wellFormed fun e member => made e (List.mem_of_mem_take member)

end Word

/-! ### Adding by prefixes -/

namespace Span

theorem legible_default (n : Nat) : Legible.At n (default : Span F) := ⟨.zero n, .zero n⟩

theorem join_keeps (wellFormed : b.WellFormed) {high low : Span F} (readsHigh : Legible.At b.nextWire high)
    (readsLow : Legible.At b.nextWire low) : Keeps b (join high low) := by
  refine (Builder.mul_keeps wellFormed readsHigh.2 readsLow.1).bind fun next carried => ?_
  refine (Builder.mul_keeps next.wellFormed (readsHigh.2.mono next.nextWire) (readsLow.2.mono next.nextWire)).bind
    fun after propagate => ?_
  have generate := readsHigh.1.mono (next.trans after).nextWire
  exact .pure after.wellFormed ⟨generate.add (carried.mono after.nextWire), propagate⟩

theorem joinAt_keeps (wellFormed : b.WellFormed) (distance : Nat) {positions : List Nat} {spans : Array (Span F)}
    (legible : Legible.At b.nextWire spans) : Keeps b (joinAt distance positions spans) := by
  induction positions generalizing b spans with
  | nil => exact .pure wellFormed legible
  | cons i rest ih =>
    have high := Legible.getD (i := i) legible (legible_default b.nextWire)
    have low := Legible.getD (i := i - distance) legible (legible_default b.nextWire)
    refine (join_keeps wellFormed high low).bind fun {joined b₁} next made => ?_
    refine ih next.wellFormed fun s member => ?_
    rcases Array.mem_or_eq_of_mem_setIfInBounds member with old | rfl
    · exact Legible.mono next.nextWire (legible s old)
    · exact made

theorem sweep_keeps (wellFormed : b.WellFormed) (first : Nat → Nat) {levels : List Nat} {spans : Array (Span F)}
    (legible : Legible.At b.nextWire spans) : Keeps b (sweep first levels spans) := by
  induction levels generalizing b spans with
  | nil => exact .pure wellFormed legible
  | cons level rest ih => exact (joinAt_keeps wellFormed _ legible).bind fun next made => ih next.wellFormed made

theorem prefixes_keeps (wellFormed : b.WellFormed) {spans : Array (Span F)} (legible : Legible.At b.nextWire spans) :
    Keeps b (prefixes spans) :=
  (sweep_keeps wellFormed _ legible).bind fun next made => sweep_keeps next.wellFormed _ made

end Span

namespace PrefixAdder

theorem propagateAll_eq (pairs : List (LinearForm F × LinearForm F)) :
    propagateAll pairs = pairs.mapM fun p => Bit.xor p.1 p.2 := by
  induction pairs with
  | nil => rfl
  | cons p rest ih => rw [propagateAll, ih, List.mapM_cons]

theorem generateAll_eq (pairs : List (LinearForm F × LinearForm F)) :
    generateAll pairs = pairs.mapM fun p => Builder.mul p.1 p.2 := by
  induction pairs with
  | nil => rfl
  | cons p rest ih => rw [generateAll, ih, List.mapM_cons]

theorem propagateAll_keeps (wellFormed : b.WellFormed) {pairs : List (LinearForm F × LinearForm F)}
    (legible : Legible.At b.nextWire pairs) : Keeps b (propagateAll pairs) := by
  rw [propagateAll_eq]
  refine .mapM wellFormed fun p member _ next => ?_
  obtain ⟨left, right⟩ := Legible.mono next.nextWire (legible p member)
  exact Bit.xor_keeps next.wellFormed left right

theorem generateAll_keeps (wellFormed : b.WellFormed) {pairs : List (LinearForm F × LinearForm F)}
    (legible : Legible.At b.nextWire pairs) : Keeps b (generateAll pairs) := by
  rw [generateAll_eq]
  refine .mapM wellFormed fun p member _ next => ?_
  obtain ⟨left, right⟩ := Legible.mono next.nextWire (legible p member)
  exact Builder.mul_keeps next.wellFormed left right

theorem sumBits_keeps (wellFormed : b.WellFormed) {carry : LinearForm F} {places : List (LinearForm F × Span F)}
    (readable : carry.Readable b.nextWire) (legible : Legible.At b.nextWire places) : Keeps b (sumBits carry places) := by
  induction places generalizing b carry with
  | nil => exact .pure wellFormed ⟨List.forall_mem_nil _, readable⟩
  | cons place rest ih =>
    obtain ⟨⟨propagate, span⟩, later⟩ := List.forall_mem_cons.mp legible
    refine (Bit.xor_keeps wellFormed propagate readable).bind fun next made => ?_
    refine (ih next.wellFormed (span.1.mono next.nextWire) (Legible.mono next.nextWire later)).bind fun after others => ?_
    exact .pure after.wellFormed ⟨List.forall_mem_cons.mpr ⟨made.mono after.nextWire, others.1⟩, others.2⟩

theorem add_keeps (wellFormed : b.WellFormed) {x y : List (LinearForm F)} {carry : LinearForm F}
    (readsX : Legible.At b.nextWire x) (readsY : Legible.At b.nextWire y) (readable : carry.Readable b.nextWire) :
    Keeps b (add x y carry) := by
  unfold add
  split
  · exact .throw wellFormed _
  · have pairs : Legible.At b.nextWire (x.zip y) := fun p member =>
      ⟨readsX _ (List.of_mem_zip member).1, readsY _ (List.of_mem_zip member).2⟩
    refine (propagateAll_keeps wellFormed pairs).bind fun {propagate b₁} next₁ readsP => ?_
    refine (generateAll_keeps next₁.wellFormed (Legible.mono next₁.nextWire pairs)).bind fun {generate b₂} next₂ readsG => ?_
    have readsP := Legible.mono next₂.nextWire readsP
    have carried := readable.mono (next₁.trans next₂).nextWire
    cases propagate with
    | nil => exact .pure next₂.wellFormed ⟨List.forall_mem_nil _, carried⟩
    | cons p ps =>
      cases generate with
      | nil => exact .pure next₂.wellFormed ⟨List.forall_mem_nil _, carried⟩
      | cons g gs =>
        obtain ⟨readsFirst, readsPs⟩ := List.forall_mem_cons.mp readsP
        obtain ⟨readsG, readsGs⟩ := List.forall_mem_cons.mp readsG
        refine (Builder.mul_keeps next₂.wellFormed readsFirst carried).bind fun {absorbed b₃} next₃ made => ?_
        have spans : Legible.At b₃.nextWire
            ((⟨g + absorbed, p⟩ :: (gs.zip ps).map fun q => ⟨q.1, q.2⟩ : List (Span F)).toArray) := by
          intro s member
          rcases List.mem_cons.mp (List.mem_toArray.mp member) with rfl | later
          · exact ⟨(readsG.mono next₃.nextWire).add made, readsFirst.mono next₃.nextWire⟩
          · obtain ⟨q, inside, rfl⟩ := List.mem_map.mp later
            obtain ⟨left, right⟩ := List.of_mem_zip inside
            exact ⟨(readsGs _ left).mono next₃.nextWire, (readsPs _ right).mono next₃.nextWire⟩
        refine (Span.prefixes_keeps next₃.wellFormed spans).bind fun {joined b₄} next₄ readsJoined => ?_
        have next := next₃.trans next₄
        refine sumBits_keeps next.wellFormed (carried.mono next.nextWire) fun q member => ?_
        obtain ⟨left, right⟩ := List.of_mem_zip member
        exact ⟨(readsP _ left).mono next.nextWire, readsJoined _ (Array.mem_toList_iff.mp right)⟩

end PrefixAdder

/-! ### Hashing -/

namespace Sha256

theorem State.legible_iff {n : Nat} {s : State (Word F)} :
    Legible.At n s ↔ Legible.At n s.a ∧ Legible.At n s.b ∧ Legible.At n s.c ∧ Legible.At n s.d ∧
      Legible.At n s.e ∧ Legible.At n s.f ∧ Legible.At n s.g ∧ Legible.At n s.h := by
  simp [Legible.At, State.toList]

section
variable (wellFormed : b.WellFormed)

include wellFormed

theorem legible_default : Legible.At b.nextWire (default : Word F) := Word.legible_constant wellFormed 0

theorem xor3_keeps {x y z : Word F} (readsX : Legible.At b.nextWire x) (readsY : Legible.At b.nextWire y)
    (readsZ : Legible.At b.nextWire z) : Keeps b (xor3 x y z) :=
  (Word.xor_keeps wellFormed readsX readsY).bind fun next made =>
    Word.xor_keeps next.wellFormed made (Legible.mono next.nextWire readsZ)

section
variable {x : Word F} (legible : Legible.At b.nextWire x)

include legible

theorem bigSigma0_keeps : Keeps b (bigSigma0 x) :=
  xor3_keeps wellFormed (Word.legible_rotateRight legible _) (Word.legible_rotateRight legible _)
    (Word.legible_rotateRight legible _)

theorem bigSigma1_keeps : Keeps b (bigSigma1 x) :=
  xor3_keeps wellFormed (Word.legible_rotateRight legible _) (Word.legible_rotateRight legible _)
    (Word.legible_rotateRight legible _)

theorem smallSigma0_keeps : Keeps b (smallSigma0 x) :=
  xor3_keeps wellFormed (Word.legible_rotateRight legible _) (Word.legible_rotateRight legible _)
    (Word.legible_shiftRight legible _)

theorem smallSigma1_keeps : Keeps b (smallSigma1 x) :=
  xor3_keeps wellFormed (Word.legible_rotateRight legible _) (Word.legible_rotateRight legible _)
    (Word.legible_shiftRight legible _)

end

omit wellFormed in
theorem extendSchedule_keeps (wellFormed : b.WellFormed) (count : Nat) {words : Array (Word F)}
    (legible : Legible.At b.nextWire words) : Keeps b (extendSchedule count words) := by
  induction count generalizing b words with
  | zero => exact .pure wellFormed legible
  | succ count ih =>
    have entry {b₁ : Builder F} (next : Continues b b₁) (i : Nat) : Legible.At b₁.nextWire (words.getD i default) :=
      Legible.mono next.nextWire (Legible.getD legible (legible_default wellFormed))
    refine (smallSigma0_keeps wellFormed (entry (.refl wellFormed) _)).bind fun {s₀ b₁} next₁ reads₀ => ?_
    refine (smallSigma1_keeps next₁.wellFormed (entry next₁ _)).bind fun {s₁ b₂} next₂ reads₁ => ?_
    have next := next₁.trans next₂
    have reads₀ := Legible.mono next₂.nextWire reads₀
    have summands : Legible.At b₂.nextWire
        [words.getD (words.size - 16) default, s₀, words.getD (words.size - 7) default, s₁] := by
      simp only [Legible.cons_iff, Legible.nil, entry next, reads₀, reads₁, and_self]
    refine (Word.sum_keeps next.wellFormed summands).bind fun {w b₃} next₃ made => ?_
    refine ih next₃.wellFormed fun x member => ?_
    rcases Array.mem_push.mp member with old | rfl
    · exact Legible.mono (next.trans next₃).nextWire (legible x old)
    · exact made

theorem round_keeps {s : State (Word F)} (legible : Legible.At b.nextWire s) (k : Nat) {w : Word F}
    (readsW : Legible.At b.nextWire w) : Keeps b (round s k w) := by
  have later {b₁ : Builder F} (next : Continues b b₁) : ∀ x ∈ w :: s.toList, Legible.At b₁.nextWire x :=
    Legible.mono next.nextWire (Legible.cons_iff.mpr ⟨readsW, legible⟩)
  simp only [State.toList, List.mem_cons, List.not_mem_nil, or_false, forall_eq_or_imp, forall_eq] at later
  obtain ⟨-, -, -, -, -, readsE, -⟩ := later (.refl wellFormed)
  refine (bigSigma1_keeps wellFormed readsE).bind fun {sigmaE b₁} next₁ readsSigmaE => ?_
  obtain ⟨-, -, -, -, -, readsE, readsF, readsG, -⟩ := later next₁
  refine (Word.select_keeps next₁.wellFormed readsE readsF readsG).bind fun {choice b₂} next₂ readsChoice => ?_
  have next := next₁.trans next₂
  obtain ⟨-, readsA, -⟩ := later next
  refine (bigSigma0_keeps next.wellFormed readsA).bind fun {sigmaA b₃} next₃ readsSigmaA => ?_
  have next := next.trans next₃
  obtain ⟨-, readsA, readsB, readsC, -⟩ := later next
  refine (Word.majority_keeps next.wellFormed readsA readsB readsC).bind fun {majority b₄} next₄ readsMajority => ?_
  have next := next.trans next₄
  obtain ⟨readsW, readsA, readsB, readsC, readsD, readsE, readsF, readsG, readsH⟩ := later next
  have readsSigmaE := Legible.mono ((next₂.trans next₃).trans next₄).nextWire readsSigmaE
  have readsChoice := Legible.mono (next₃.trans next₄).nextWire readsChoice
  have readsSigmaA := Legible.mono next₄.nextWire readsSigmaA
  have readsK := Word.legible_constant next.wellFormed k
  refine (Word.sum_keeps next.wellFormed
    (by simp [readsH, readsSigmaE, readsChoice, readsK, readsW, readsD])).bind fun {newE b₅} next₅ readsNewE => ?_
  have summed : Legible.At b₄.nextWire [s.h, sigmaE, choice, .constant k, w, sigmaA, majority] := by
    simp [readsH, readsSigmaE, readsChoice, readsK, readsW, readsSigmaA, readsMajority]
  refine (Word.sum_keeps next₅.wellFormed (Legible.mono next₅.nextWire summed)).bind fun {newA b₆} next₆ readsNewA => ?_
  obtain ⟨-, readsA, readsB, readsC, readsD, readsE, readsF, readsG, readsH⟩ := later (next.trans (next₅.trans next₆))
  have readsNewE := Legible.mono next₆.nextWire readsNewE
  exact .pure next₆.wellFormed
    (State.legible_iff.mpr ⟨readsNewA, readsA, readsB, readsC, readsNewE, readsE, readsF, readsG⟩)

omit wellFormed in
theorem rounds_keeps (wellFormed : b.WellFormed) {s : State (Word F)} {inputs : List (Nat × Word F)}
    (legible : Legible.At b.nextWire s) (readsInputs : ∀ p ∈ inputs, Legible.At b.nextWire p.2) :
    Keeps b (rounds s inputs) := by
  induction inputs generalizing b s with
  | nil => exact .pure wellFormed legible
  | cons p rest ih =>
    obtain ⟨first, later⟩ := List.forall_mem_cons.mp readsInputs
    refine (round_keeps wellFormed legible p.1 first).bind fun next made => ?_
    exact ih next.wellFormed made fun q member => Legible.mono next.nextWire (later q member)

omit wellFormed in
/-- Adding states adds their words one by one. -/
theorem toList_addStates (s t : State (Word F)) :
    State.toList <$> addStates s t = (s.toList.zip t.toList).mapM fun p => Word.sum [p.1, p.2] := by
  simp [addStates, State.toList, List.mapM_cons, map_bind]

theorem addStates_keeps {s t : State (Word F)} (legible : Legible.At b.nextWire s) (legible' : Legible.At b.nextWire t) :
    Keeps b (addStates s t) := by
  have listed : Keeps b (State.toList <$> addStates s t) := by
    rw [toList_addStates]
    refine .mapM wellFormed fun p member _ next => Word.sum_keeps next.wellFormed ?_
    obtain ⟨left, right⟩ := List.of_mem_zip member
    simp [Legible.mono next.nextWire (legible _ left), Legible.mono next.nextWire (legible' _ right)]
  exact ⟨fun done => listed.made (run_map_eq_ok.mpr ⟨_, done, rfl⟩), fun done => listed.failed (run_map_eq_error.mpr done)⟩

theorem compress_keeps {s : State (Word F)} {block : List (Word F)} (legible : Legible.At b.nextWire s)
    (readsBlock : Legible.At b.nextWire block) : Keeps b (compress s block) := by
  refine (extendSchedule_keeps wellFormed 48 fun w member => readsBlock w (List.mem_toArray.mp member)).bind
    fun {words b₁} next₁ readsWords => ?_
  have legible₁ := Legible.mono next₁.nextWire legible
  refine (rounds_keeps next₁.wellFormed legible₁ fun p member => ?_).bind fun {mixed b₂} next₂ readsMixed => ?_
  · exact readsWords _ (Array.mem_toList_iff.mp (List.of_mem_zip member).2)
  · exact addStates_keeps next₂.wellFormed (Legible.mono next₂.nextWire legible₁) readsMixed

omit wellFormed in
theorem blockWords_keeps (wellFormed : b.WellFormed) {bytes : List (List (List (LinearForm F)))}
    (legible : Legible.At b.nextWire bytes) : Keeps b (blockWords bytes) := by
  induction bytes with
  | nil => exact .pure wellFormed (Legible.nil _)
  | cons first rest ih =>
    obtain ⟨readsFirst, later⟩ := Legible.cons_iff.mp legible
    unfold blockWords
    split
    · rename_i b₃ b₂ b₁ b₀
      split
      · exact .throw wellFormed _
      · rename_i w made
        have legible := Word.legible_ofBigEndian readsFirst made
        refine (ih later).bind fun next others => ?_
        exact .pure next.wellFormed (Legible.cons_iff.mpr ⟨Legible.mono next.nextWire legible, others⟩)
    · exact ih later

omit wellFormed in
theorem legible_chunks {α : Type} [Legible α] {n size : Nat} (positive : 0 < size) {xs : List α} (legible : Legible.At n xs) :
    Legible.At n (chunks size xs) := by
  intro chunk member a inside
  refine legible a ?_
  rw [← flatten_chunks positive xs]
  exact List.mem_flatten.mpr ⟨chunk, member, inside⟩

omit wellFormed in
theorem compressAll_keeps (wellFormed : b.WellFormed) {s : State (Word F)} {blocks : List (List (List (LinearForm F)))}
    (legible : Legible.At b.nextWire s) (readsBlocks : Legible.At b.nextWire blocks) : Keeps b (compressAll s blocks) := by
  induction blocks generalizing b s with
  | nil => exact .pure wellFormed legible
  | cons block rest ih =>
    obtain ⟨first, later⟩ := Legible.cons_iff.mp readsBlocks
    refine (blockWords_keeps wellFormed (legible_chunks (by decide) first)).bind fun next₁ readsWords => ?_
    refine (compress_keeps next₁.wellFormed (Legible.mono next₁.nextWire legible) readsWords).bind fun next₂ made => ?_
    exact ih next₂.wellFormed made (Legible.mono (next₁.trans next₂).nextWire later)

omit wellFormed in
theorem splitBytes_eq (message : List (LinearForm F)) : splitBytes message = message.mapM (Builder.toBinary · 8) := by
  induction message with
  | nil => rfl
  | cons byte rest ih => rw [splitBytes, ih, List.mapM_cons]

theorem splitBytes_keeps {message : List (LinearForm F)} (readable : ∀ e ∈ message, e.Readable b.nextWire) :
    Keeps b (splitBytes message) := by
  rw [splitBytes_eq]
  exact .mapM wellFormed fun e member _ next =>
    Builder.toBinary_keeps next.wellFormed ((readable e member).mono next.nextWire) 8

theorem legible_constantByte (n : Nat) : Legible.At b.nextWire (constantByte n : List (LinearForm F)) := by
  intro e member
  obtain ⟨i, -, rfl⟩ := List.mem_map.mp member
  exact .constant wellFormed.positive _

theorem digest_keeps {message : List (LinearForm F)} (readable : ∀ e ∈ message, e.Readable b.nextWire) :
    Keeps b (digest message) := by
  refine (splitBytes_keeps wellFormed readable).bind fun {bytes b₁} next made => ?_
  have initialState : Legible.At b₁.nextWire (initial.map .constant : State (Word F)) := by
    refine State.legible_iff.mpr ⟨?_, ?_, ?_, ?_, ?_, ?_, ?_, ?_⟩
    all_goals exact Word.legible_constant next.wellFormed _
  refine compressAll_keeps next.wellFormed initialState (legible_chunks (by decide) fun byte member => ?_)
  rcases List.mem_append.mp member with split | padded
  · exact made byte split
  · obtain ⟨n, -, rfl⟩ := List.mem_map.mp padded
    exact legible_constantByte next.wellFormed n

end
end Sha256

/-! ### Samples -/

namespace Sample

theorem squareStep_keeps (wellFormed : b.WellFormed) : Keeps b (squareStep (F := F)) := by
  refine (Builder.input_keeps wellFormed 0).bind fun next₁ readable => ?_
  refine (Builder.mul_keeps next₁.wellFormed readable readable).bind fun next₂ square => ?_
  have readable := readable.mono next₂.nextWire
  exact Builder.output_keeps next₂.wellFormed ((square.add readable).add (.constant next₂.wellFormed.positive 1))

theorem iterateCall_keeps (wellFormed : b.WellFormed) (id : CircuitId) (rounds : Nat) {x : LinearForm F}
    (readable : x.Readable b.nextWire) : Keeps b (iterateCall id rounds x) := by
  induction rounds generalizing b x with
  | zero => exact .pure wellFormed readable
  | succ rounds ih =>
    refine (Builder.call_keeps wellFormed id (by simpa using readable)).bind fun {outputs b₁} next made => ?_
    refine ih next.wellFormed ?_
    cases outputs with
    | nil => exact .zero _
    | cons e rest => exact made e (List.mem_cons_self ..)

theorem define_keeps (wellFormed : b.WellFormed) (s : Sample) : Keeps b (s.define (F := F)) := by
  cases s with
  | identity =>
    exact (Builder.input_keeps wellFormed 0).bind fun next readable => Builder.output_keeps next.wellFormed readable
  | different =>
    refine (Builder.input_keeps wellFormed 0).bind fun next left => ?_
    refine (Builder.input_keeps next.wellFormed 1).bind fun after right => ?_
    exact Builder.assertDistinct_keeps after.wellFormed (left.mono after.nextWire) right
  | nonZero =>
    exact (Builder.input_keeps wellFormed 0).bind fun next readable =>
      Builder.assertDistinct_keeps next.wellFormed readable (.zero _)
  | squareChain rounds =>
    have inside := squareStep_keeps (wellFormed.child 1)
    refine (Builder.define_keeps wellFormed "square_step" 1 fun _ => inside.continues).bind fun {id b₁} next₁ _ => ?_
    refine (Builder.input_keeps next₁.wellFormed 0).bind fun next₂ readable => ?_
    refine (iterateCall_keeps next₂.wellFormed id rounds readable).bind fun next₃ made => ?_
    exact Builder.output_keeps next₃.wellFormed made
  | sha256 length =>
    refine (Builder.inputs_keeps wellFormed).bind fun next₁ readable => ?_
    refine (Sha256.digest_keeps next₁.wellFormed readable).bind fun next₂ legible => ?_
    refine Builder.outputAll_keeps next₂.wellFormed fun e member => ?_
    obtain ⟨w, listed, inside⟩ := List.mem_flatMap.mp member
    exact Word.readable_bytes (legible w listed) e inside

end Sample
end ArithCircuit
