import ArithCircuit.Proofs.Gadget.Word
import ArithCircuit.Proofs.Sha256.Standard

/-!
The compression of a block computes what the standard says. Words, lists of words and states carry
numbers if they show them under every assignment that satisfies the builder; each step takes what carries
its arguments to what carries its result.
-/
namespace ArithCircuit
variable {F : ScalarField} {W : World F} {b b' : Builder F}

open Builder (Makes Sound Satisfied Advances)

/-- Values made of forms, which show numbers under an assignment. -/
class Showing (F : ScalarField) (α : Type) (β : outParam Type) where
  Shows : (Wire → Scalar F) → α → β → Prop

instance : Showing F (Word F) (BitVec 32) := ⟨Word.Shows⟩

instance {α β : Type} [Showing F α β] : Showing F (List α) (List β) := ⟨fun w => List.Forall₂ (Showing.Shows w)⟩

instance {α β : Type} [Showing F α β] : Showing F (Array α) (List β) :=
  ⟨fun w as bs => List.Forall₂ (Showing.Shows w) as.toList bs⟩

instance {α β : Type} [Showing F α β] : Showing F (Sha256.State α) (Sha256.State β) :=
  ⟨fun w s t => List.Forall₂ (Showing.Shows w) s.toList t.toList⟩

namespace Builder
variable {α β γ δ : Type} [Legible α] [Legible γ] [Showing F α β] [Showing F γ δ]

/-- What can be read shows a number under every assignment that satisfies the builder. -/
structure Carries (W : World F) (b : Builder F) (a : α) (v : (Wire → Scalar F) → β) : Prop where
  legible : Legible.At b.nextWire a
  shows : ∀ w, b.Satisfied W w → Showing.Shows w a (v w)

theorem Carries.kept {a : α} {v : (Wire → Scalar F) → β} (carries : Carries W b a v) (recorded : Recorded W b b')
    (continues : Continues b b') : Carries W b' a v :=
  ⟨Legible.mono continues.nextWire carries.legible, fun w satisfied => carries.shows w (recorded.satisfied satisfied)⟩

theorem Carries.later {a : α} {v : (Wire → Scalar F) → β} (carries : Carries W b a v) (advances : Advances W b b') :
    Carries W b' a v :=
  carries.kept advances.recorded advances.continues

theorem Carries.congr {a : α} {v u : (Wire → Scalar F) → β} (carries : Carries W b a v)
    (same : ∀ w, b.Satisfied W w → v w = u w) : Carries W b a u :=
  ⟨carries.legible, fun w satisfied => same w satisfied ▸ carries.shows w satisfied⟩

theorem Carries.nil : Carries W b ([] : List α) fun _ => [] := ⟨Legible.nil _, fun _ _ => .nil⟩

theorem Carries.cons {a : α} {v : (Wire → Scalar F) → β} (first : Carries W b a v) {as : List α}
    {vs : (Wire → Scalar F) → List β} (rest : Carries W b as vs) : Carries W b (a :: as) fun w => v w :: vs w :=
  ⟨Legible.cons_iff.mpr ⟨first.legible, rest.legible⟩,
    fun w satisfied => .cons (first.shows w satisfied) (rest.shows w satisfied)⟩

theorem Carries.append {as bs : List α} {vs us : (Wire → Scalar F) → List β} (first : Carries W b as vs)
    (second : Carries W b bs us) : Carries W b (as ++ bs) fun w => vs w ++ us w where
  legible a member := by
    rcases List.mem_append.mp member with left | right
    · exact first.legible a left
    · exact second.legible a right
  shows w satisfied := List.rel_append (first.shows w satisfied) (second.shows w satisfied)

/-- A list that is not empty carries a number and more numbers. -/
theorem Carries.uncons {a : α} {as : List α} {vs : (Wire → Scalar F) → List β} (carries : Carries W b (a :: as) vs)
    (default : β) : Carries W b a (fun w => (vs w).headD default) ∧ Carries W b as (fun w => (vs w).tail) ∧
      ∀ w, b.Satisfied W w → vs w = (vs w).headD default :: (vs w).tail := by
  obtain ⟨legible, legible'⟩ := Legible.cons_iff.mp carries.legible
  have parts (w : Wire → Scalar F) (satisfied : b.Satisfied W w) :
      ∃ v rest, Showing.Shows w a v ∧ List.Forall₂ (Showing.Shows w) as rest ∧ vs w = v :: rest :=
    List.forall₂_cons_left_iff.mp (carries.shows w satisfied)
  refine ⟨⟨legible, fun w satisfied => ?_⟩, ⟨legible', fun w satisfied => ?_⟩, fun w satisfied => ?_⟩
  all_goals obtain ⟨v, rest, first, others, same⟩ := parts w satisfied
  · rwa [same]
  · rwa [same]
  · rw [same]
    rfl

theorem Carries.push {as : Array α} {vs : (Wire → Scalar F) → List β} (carries : Carries W b as vs) {a : α}
    {v : (Wire → Scalar F) → β} (last : Carries W b a v) : Carries W b (as.push a) fun w => vs w ++ [v w] where
  legible x member := by
    rcases Array.mem_push.mp member with old | rfl
    · exact carries.legible x old
    · exact last.legible
  shows w satisfied := by
    have appended := List.rel_append (carries.shows w satisfied) (.cons (last.shows w satisfied) .nil)
    simpa [Showing.Shows] using appended

/-- A step always succeeds and makes what carries a number. -/
def Computes (W : World F) (b : Builder F) (step : Build F α) (v : (Wire → Scalar F) → β) : Prop :=
  ∃ a b', step b = .ok a b' ∧ Advances W b b' ∧ Carries W b' a v

namespace Computes

theorem pure (sound : b.Sound W) {a : α} {v : (Wire → Scalar F) → β} (carries : Carries W b a v) :
    Computes W b (Pure.pure a) v :=
  ⟨a, b, rfl, .refl sound, carries⟩

theorem congr {step : Build F α} {v u : (Wire → Scalar F) → β} (computes : Computes W b step v)
    (same : ∀ w, b.Satisfied W w → v w = u w) : Computes W b step u := by
  obtain ⟨a, b', done, advances, carries⟩ := computes
  exact ⟨a, b', done, advances, carries.congr fun w satisfied => same w (advances.satisfied satisfied)⟩

theorem bind {step : Build F α} {next : α → Build F γ} {v : (Wire → Scalar F) → β} {u : (Wire → Scalar F) → δ}
    (first : Computes W b step v)
    (second : ∀ {a b₁}, Advances W b b₁ → Carries W b₁ a v → Computes W b₁ (next a) u) : Computes W b (step >>= next) u := by
  obtain ⟨a, b₁, stepped, early, carries⟩ := first
  obtain ⟨c, b₂, continued, late, carries'⟩ := second early carries
  exact ⟨c, b₂, run_bind_eq_ok.mpr ⟨a, b₁, stepped, continued⟩, early.trans late, carries'⟩

end Computes

theorem Makes.computes {step : Build F α} {Q : α → (Wire → Scalar F) → Prop} (makes : Makes W b step Q)
    {v : (Wire → Scalar F) → β} (shows : ∀ {a w}, b.Satisfied W w → Q a w → Showing.Shows w a (v w)) :
    Computes W b step v := by
  obtain ⟨a, b', done, advances, legible, holds⟩ := makes
  exact ⟨a, b', done, advances, legible, fun w later => shows (advances.satisfied later) (holds w later)⟩

end Builder

open Builder (Carries Computes)

/-! ### Words -/

namespace Word
variable {X Y Z : Word F} {x y z : (Wire → Scalar F) → BitVec 32}

theorem constant_carries (sound : b.Sound W) (k : Nat) : Carries W b (constant k : Word F) fun _ => BitVec.ofNat 32 k :=
  ⟨legible_constant sound.wellFormed k, fun _ satisfied => shows_constant satisfied.one k⟩

theorem rotateRight_carries (carries : Carries W b X x) (k : Nat) :
    Carries W b (X.rotateRight k) fun w => (x w).rotateRight k :=
  ⟨legible_rotateRight carries.legible k, fun w satisfied => (carries.shows w satisfied).rotateRight k⟩

theorem shiftRight_carries (carries : Carries W b X x) (k : Nat) : Carries W b (X.shiftRight k) fun w => x w >>> k :=
  ⟨legible_shiftRight carries.legible k, fun w satisfied => (carries.shows w satisfied).shiftRight k⟩

section
variable (sound : b.Sound W) (carriesX : Carries W b X x) (carriesY : Carries W b Y y)

include sound carriesX carriesY

theorem xor_computes : Computes W b (xor X Y) fun w => x w ^^^ y w :=
  (xor_makes sound carriesX.legible carriesY.legible).computes fun satisfied shows =>
    shows (carriesX.shows _ satisfied) (carriesY.shows _ satisfied)

theorem select_computes (carriesZ : Carries W b Z z) :
    Computes W b (select X Y Z) fun w => Sha256.Standard.ch (x w) (y w) (z w) := by
  refine (select_makes sound carriesX.legible carriesY.legible carriesZ.legible).computes fun {R w} satisfied shows => ?_
  have same : Sha256.Standard.ch (x w) (y w) (z w) = x w &&& y w ||| ~~~x w &&& z w := by
    refine BitVec.eq_of_getLsbD_eq fun i _ => ?_
    simp only [Sha256.Standard.ch, BitVec.getLsbD_xor, BitVec.getLsbD_and, BitVec.getLsbD_or, BitVec.getLsbD_not]
    cases (x w).getLsbD i <;> simp
  rw [same]
  exact shows (carriesX.shows _ satisfied) (carriesY.shows _ satisfied) (carriesZ.shows _ satisfied)

theorem majority_computes (carriesZ : Carries W b Z z) :
    Computes W b (majority X Y Z) fun w => Sha256.Standard.maj (x w) (y w) (z w) := by
  refine (majority_makes sound carriesX.legible carriesY.legible carriesZ.legible).computes fun {R w} satisfied shows => ?_
  have same : Sha256.Standard.maj (x w) (y w) (z w) = x w &&& y w ||| x w &&& z w ||| y w &&& z w := by
    refine BitVec.eq_of_getLsbD_eq fun i _ => ?_
    simp only [Sha256.Standard.maj, BitVec.getLsbD_xor, BitVec.getLsbD_and, BitVec.getLsbD_or]
    cases (x w).getLsbD i <;> cases (y w).getLsbD i <;> simp
  rw [same]
  exact shows (carriesX.shows _ satisfied) (carriesY.shows _ satisfied) (carriesZ.shows _ satisfied)

end

theorem sum_computes (allows : W.rule.Allows) (sound : b.Sound W) {words : List (Word F)}
    {xs : (Wire → Scalar F) → List (BitVec 32)} (carries : Carries W b words xs)
    (few : wordBits + bitLength (words.length - 1) ≤ F.bits - 1) : Computes W b (sum words) fun w => (xs w).sum :=
  (sum_makes allows sound carries.legible few fun w satisfied => ⟨_, carries.shows w satisfied⟩).computes
    fun satisfied shows => shows (carries.shows _ satisfied)

end Word

namespace Sha256

/-! ### Schedule -/

section
variable (sound : b.Sound W) {X Y Z : Word F} {x y z : (Wire → Scalar F) → BitVec 32} (carries : Carries W b X x)

include sound carries

theorem xor3_computes (carriesY : Carries W b Y y) (carriesZ : Carries W b Z z) :
    Computes W b (xor3 X Y Z) fun w => x w ^^^ y w ^^^ z w :=
  (Word.xor_computes sound carries carriesY).bind fun next made => Word.xor_computes next.sound made (carriesZ.later next)

theorem bigSigma0_computes : Computes W b (bigSigma0 X) fun w => Standard.bigSigma0 (x w) :=
  xor3_computes sound (Word.rotateRight_carries carries _) (Word.rotateRight_carries carries _)
    (Word.rotateRight_carries carries _)

theorem bigSigma1_computes : Computes W b (bigSigma1 X) fun w => Standard.bigSigma1 (x w) :=
  xor3_computes sound (Word.rotateRight_carries carries _) (Word.rotateRight_carries carries _)
    (Word.rotateRight_carries carries _)

theorem smallSigma0_computes : Computes W b (smallSigma0 X) fun w => Standard.smallSigma0 (x w) :=
  xor3_computes sound (Word.rotateRight_carries carries _) (Word.rotateRight_carries carries _)
    (Word.shiftRight_carries carries _)

theorem smallSigma1_computes : Computes W b (smallSigma1 X) fun w => Standard.smallSigma1 (x w) :=
  xor3_computes sound (Word.rotateRight_carries carries _) (Word.rotateRight_carries carries _)
    (Word.shiftRight_carries carries _)

end

/-- A word at a position that may be outside. -/
theorem getD_carries (sound : b.Sound W) {words : Array (Word F)} {xs : (Wire → Scalar F) → List (BitVec 32)}
    (carries : Carries W b words xs) (i : Nat) : Carries W b (words.getD i default) fun w => (xs w).getD i 0 where
  legible := Legible.getD carries.legible (legible_default sound.wellFormed)
  shows w satisfied := by
    obtain ⟨length, each⟩ := List.forall₂_iff_get.mp (carries.shows w satisfied)
    rw [Array.length_toList] at length
    by_cases inside : i < words.size
    · have inside' : i < (xs w).length := length ▸ inside
      have entry := each i inside inside'
      simpa [inside, inside'] using entry
    · have outside : ¬ i < (xs w).length := length ▸ inside
      have zero : Showing.Shows w (default : Word F) (0 : BitVec 32) := Word.shows_constant satisfied.one 0
      simpa [inside, outside] using zero

/-- With room for the carries, the schedule grows as the standard says. -/
theorem extendSchedule_computes (allows : W.rule.Allows) (room : 35 ≤ F.bits - 1) (sound : b.Sound W) (count t : Nat)
    {words : Array (Word F)} {xs : (Wire → Scalar F) → List (BitVec 32)} (carries : Carries W b words xs)
    (length : ∀ w, b.Satisfied W w → (xs w).length = 16 + t) :
    Computes W b (extendSchedule count words) fun w =>
      (List.range' t count).foldl (fun words t => words ++ [Standard.nextWord words t]) (xs w) := by
  induction count generalizing b words xs t with
  | zero => exact .pure sound carries
  | succ count ih =>
    refine (smallSigma0_computes sound (getD_carries sound carries _)).bind fun {s₀ b₁} next₁ carries₀ => ?_
    refine (smallSigma1_computes next₁.sound (getD_carries next₁.sound (carries.later next₁) _)).bind
      fun {s₁ b₂} next₂ carries₁ => ?_
    have next := next₁.trans next₂
    have entry (i : Nat) := getD_carries next.sound (carries.later next) i
    have few : wordBits + bitLength (4 - 1) ≤ F.bits - 1 := le_trans (by decide) room
    have summands := (entry (words.size - 16)).cons ((carries₀.later next₂).cons ((entry (words.size - 7)).cons
      (carries₁.cons .nil)))
    refine (Word.sum_computes allows next.sound summands few).bind fun {new b₃} next₃ made => ?_
    have next := next.trans next₃
    refine (ih next.sound (t + 1) ((carries.later next).push made) fun w satisfied => ?_).congr fun w satisfied => ?_
    · simp [length w (next.satisfied satisfied), Nat.add_assoc]
    · -- There are `16 + t` words so far, so places counted from the end are places counted from `t`.
      have before := next.satisfied satisfied
      have size : words.size = 16 + t := (List.Forall₂.length_eq (carries.shows w before)).trans (length w before)
      have places : words.size - 16 = t ∧ words.size - 15 = t + 1 ∧ words.size - 7 = t + 9 ∧ words.size - 2 = t + 14 := by
        omega
      obtain ⟨first, second, third, fourth⟩ := places
      rw [List.range'_succ, List.foldl_cons, first, second, third, fourth]
      congr 3
      simp only [List.sum_cons, List.sum_nil, Standard.nextWord]
      ac_rfl

/-! ### Rounds -/

theorem State.carries_iff {S : State (Word F)} {s : (Wire → Scalar F) → State (BitVec 32)} :
    Carries W b S s ↔ Carries W b S.a (fun w => (s w).a) ∧ Carries W b S.b (fun w => (s w).b) ∧
      Carries W b S.c (fun w => (s w).c) ∧ Carries W b S.d (fun w => (s w).d) ∧ Carries W b S.e (fun w => (s w).e) ∧
      Carries W b S.f (fun w => (s w).f) ∧ Carries W b S.g (fun w => (s w).g) ∧ Carries W b S.h (fun w => (s w).h) := by
  constructor
  · rintro ⟨legible, shows⟩
    obtain ⟨la, lb, lc, ld, le, lf, lg, lh⟩ := State.legible_iff.mp legible
    simp only [Showing.Shows, State.toList, List.forall₂_cons, List.forall₂_nil_left_iff, and_true] at shows
    exact ⟨⟨la, fun w h => (shows w h).1⟩, ⟨lb, fun w h => (shows w h).2.1⟩, ⟨lc, fun w h => (shows w h).2.2.1⟩,
      ⟨ld, fun w h => (shows w h).2.2.2.1⟩, ⟨le, fun w h => (shows w h).2.2.2.2.1⟩, ⟨lf, fun w h => (shows w h).2.2.2.2.2.1⟩,
      ⟨lg, fun w h => (shows w h).2.2.2.2.2.2.1⟩, ⟨lh, fun w h => (shows w h).2.2.2.2.2.2.2⟩⟩
  · rintro ⟨a, b, c, d, e, f, g, h⟩
    have listed := a.cons (b.cons (c.cons (d.cons (e.cons (f.cons (g.cons (h.cons .nil)))))))
    exact ⟨listed.legible, listed.shows⟩

section
variable (allows : W.rule.Allows) (room : 35 ≤ F.bits - 1)

include allows room

theorem round_computes (sound : b.Sound W) {S : State (Word F)} {s : (Wire → Scalar F) → State (BitVec 32)}
    (carries : Carries W b S s) (k : Nat) {X : Word F} {x : (Wire → Scalar F) → BitVec 32} (carriesX : Carries W b X x) :
    Computes W b (round S k X) fun w => Standard.round (s w) (BitVec.ofNat 32 k) (x w) := by
  have later {b' : Builder F} (next : Advances W b b') := State.carries_iff.mp (carries.later next)
  obtain ⟨-, -, -, -, e, -⟩ := later (.refl sound)
  refine (bigSigma1_computes sound e).bind fun {sigmaE b₁} next₁ carriesSigmaE => ?_
  obtain ⟨-, -, -, -, e, f, g, -⟩ := later next₁
  refine (Word.select_computes next₁.sound e f g).bind fun {choice b₂} next₂ carriesChoice => ?_
  have next := next₁.trans next₂
  obtain ⟨a, -⟩ := later next
  refine (bigSigma0_computes next.sound a).bind fun {sigmaA b₃} next₃ carriesSigmaA => ?_
  have next := next.trans next₃
  obtain ⟨a, b, c, -⟩ := later next
  refine (Word.majority_computes next.sound a b c).bind fun {majority b₄} next₄ carriesMajority => ?_
  have next := next.trans next₄
  obtain ⟨a, b, c, d, e, f, g, h⟩ := later next
  have carriesSigmaE := carriesSigmaE.later ((next₂.trans next₃).trans next₄)
  have carriesChoice := carriesChoice.later (next₃.trans next₄)
  have carriesK := Word.constant_carries next.sound k
  have carriesX := carriesX.later next
  have summandsE := h.cons (carriesSigmaE.cons (carriesChoice.cons (carriesK.cons (carriesX.cons (d.cons .nil)))))
  have fewE : wordBits + bitLength (6 - 1) ≤ F.bits - 1 := le_trans (by decide) room
  refine (Word.sum_computes allows next.sound summandsE fewE).bind fun {newE b₅} next₅ carriesE => ?_
  have summandsA := h.cons (carriesSigmaE.cons (carriesChoice.cons (carriesK.cons (carriesX.cons
    ((carriesSigmaA.later next₄).cons (carriesMajority.cons .nil))))))
  have fewA : wordBits + bitLength (7 - 1) ≤ F.bits - 1 := le_trans (by decide) room
  refine (Word.sum_computes allows next₅.sound (summandsA.later next₅) fewA).bind fun {newA b₆} next₆ carriesA => ?_
  have last := next₅.trans next₆
  refine .pure next₆.sound (State.carries_iff.mpr ⟨carriesA.congr fun w _ => ?_, a.later last, b.later last, c.later last,
    (carriesE.later next₆).congr fun w _ => ?_, e.later last, f.later last, g.later last⟩)
  · simp only [List.sum_cons, List.sum_nil, Standard.round]
    ac_rfl
  · simp only [List.sum_cons, List.sum_nil, Standard.round]
    ac_rfl

theorem rounds_computes (sound : b.Sound W) {S : State (Word F)} {s : (Wire → Scalar F) → State (BitVec 32)}
    (carries : Carries W b S s) (ks : List Nat) {words : List (Word F)} {xs : (Wire → Scalar F) → List (BitVec 32)}
    (carriesWords : Carries W b words xs) :
    Computes W b (rounds S (ks.zip words)) fun w => Standard.rounds (s w) ((ks.map (BitVec.ofNat 32)).zip (xs w)) := by
  -- On the constants, with the words taken along: where one list ends, so do the rounds on both sides.
  induction ks generalizing b S s words xs with
  | nil => exact .pure sound carries
  | cons k rest ih =>
    cases words with
    | nil =>
      refine .pure sound (carries.congr fun w satisfied => ?_)
      rw [List.forall₂_nil_left_iff.mp (carriesWords.shows w satisfied), List.zip_nil_right]
      rfl
    | cons X others =>
      obtain ⟨carriesX, carriesOthers, whole⟩ := carriesWords.uncons 0
      have mixed := (round_computes allows room sound carries k carriesX).bind fun next made =>
        ih next.sound made (carriesOthers.later next)
      refine mixed.congr fun w satisfied => ?_
      rw [whole w satisfied]
      rfl

theorem add_computes (sound : b.Sound W) {X Y : Word F} {x y : (Wire → Scalar F) → BitVec 32} (carriesX : Carries W b X x)
    (carriesY : Carries W b Y y) : Computes W b (Word.sum [X, Y]) fun w => x w + y w := by
  have few : wordBits + bitLength (2 - 1) ≤ F.bits - 1 := le_trans (by decide) room
  refine (Word.sum_computes allows sound (carriesX.cons (carriesY.cons .nil)) few).congr fun w _ => ?_
  simp

theorem addStates_computes (sound : b.Sound W) {S T : State (Word F)} {s t : (Wire → Scalar F) → State (BitVec 32)}
    (carriesS : Carries W b S s) (carriesT : Carries W b T t) :
    Computes W b (addStates S T) fun w => ⟨(s w).a + (t w).a, (s w).b + (t w).b, (s w).c + (t w).c, (s w).d + (t w).d,
      (s w).e + (t w).e, (s w).f + (t w).f, (s w).g + (t w).g, (s w).h + (t w).h⟩ := by
  obtain ⟨a, b, c, d, e, f, g, h⟩ := State.carries_iff.mp carriesS
  obtain ⟨a', b', c', d', e', f', g', h'⟩ := State.carries_iff.mp carriesT
  refine (add_computes allows room sound a a').bind fun next₁ a => ?_
  refine (add_computes allows room next₁.sound (b.later next₁) (b'.later next₁)).bind fun next₂ b => ?_
  have next := next₁.trans next₂
  refine (add_computes allows room next.sound (c.later next) (c'.later next)).bind fun next₃ c => ?_
  have next := next.trans next₃
  refine (add_computes allows room next.sound (d.later next) (d'.later next)).bind fun next₄ d => ?_
  have next := next.trans next₄
  refine (add_computes allows room next.sound (e.later next) (e'.later next)).bind fun next₅ e => ?_
  have next := next.trans next₅
  refine (add_computes allows room next.sound (f.later next) (f'.later next)).bind fun next₆ f => ?_
  have next := next.trans next₆
  refine (add_computes allows room next.sound (g.later next) (g'.later next)).bind fun next₇ g => ?_
  have next := next.trans next₇
  refine (add_computes allows room next.sound (h.later next) (h'.later next)).bind fun next₈ h => ?_
  -- Each sum is kept over the sums after it.
  have after₇ := next₇.trans next₈
  have after₆ := next₆.trans after₇
  have after₅ := next₅.trans after₆
  have after₄ := next₄.trans after₅
  have after₃ := next₃.trans after₄
  exact .pure next₈.sound (State.carries_iff.mpr ⟨a.later (next₂.trans after₃), b.later after₃, c.later after₄,
    d.later after₅, e.later after₆, f.later after₇, g.later next₈, h⟩)

theorem compress_computes (sound : b.Sound W) {S : State (Word F)} {s : (Wire → Scalar F) → State (BitVec 32)}
    (carries : Carries W b S s) {block : List (Word F)} {xs : (Wire → Scalar F) → List (BitVec 32)}
    (carriesBlock : Carries W b block xs) (length : ∀ w, b.Satisfied W w → (xs w).length = 16) :
    Computes W b (compress S block) fun w => Standard.compress (s w) (xs w) := by
  have carriesArray : Carries W b block.toArray xs :=
    ⟨fun w member => carriesBlock.legible w (List.mem_toArray.mp member), carriesBlock.shows⟩
  refine (extendSchedule_computes allows room sound 48 0 carriesArray length).bind fun {words b₁} next₁ carriesWords => ?_
  have carries₁ := carries.later next₁
  have listed : Carries W b₁ words.toList fun w => Standard.schedule (xs w) := by
    refine ⟨fun w member => carriesWords.legible w (Array.mem_toList_iff.mp member), fun w satisfied => ?_⟩
    rw [Standard.schedule, List.range_eq_range']
    exact carriesWords.shows w satisfied
  refine (rounds_computes allows room next₁.sound carries₁ roundConstants listed).bind
    fun {mixed b₂} next₂ carriesMixed => ?_
  refine (addStates_computes allows room next₂.sound (carries₁.later next₂) carriesMixed).congr fun w _ => ?_
  rw [Standard.compress, Standard.constants_eq]

end
end Sha256
end ArithCircuit
