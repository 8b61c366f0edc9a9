import ArithCircuit.Proofs.Builder.Binary
import ArithCircuit.Proofs.Builder.Booleans

/-!
What the operations of builders do to any builder, on operands of any kind. Builders stay truthful,
sub-circuits are only added, at most so many wires are taken, and it is known how an operation fails: one
that has recorded something no longer fails, so one that fails has changed nothing yet. A definition is the
exception, as its body may define any number of sub-circuits before it fails. Ids only grow, and no
definition that is made while the body runs touches an earlier id or key, so forgetting the ids from the
first one on leaves exactly the sub-circuits that there were.
-/
namespace ArithCircuit
variable {F : ScalarField} {α β : Type}

namespace SubCircuits
variable {subs subs₁ subs₂ : SubCircuits F}

/-- The sub-circuits of an earlier state, and perhaps more under new ids. -/
structure Adds (subs subs' : SubCircuits F) : Prop where
  numbered : subs'.Numbered
  kept : subs.Extends subs'

theorem Adds.refl (numbered : subs.Numbered) : subs.Adds subs := ⟨numbered, .refl subs⟩

theorem Adds.trans (first : subs.Adds subs₁) (second : subs₁.Adds subs₂) : subs.Adds subs₂ :=
  ⟨second.numbered, first.kept.trans second.kept⟩

theorem Adds.lookup? (added : subs.Adds subs₁) (numbered : subs.Numbered) {key : String} {id : CircuitId}
    (found : subs.lookup? key = some id) : subs₁.lookup? key = some id :=
  (added.kept.keys id (numbered.keys found) key).mpr found

end SubCircuits

namespace Builder
variable {b b₁ b' : Builder F}

/-- A truthful builder with sub-circuits under ids that grow. -/
structure Tidy (b : Builder F) : Prop where
  truthful : b.Truthful
  numbered : b.subCircuits.Numbered

/-- A later builder with perhaps more sub-circuits. -/
structure Follows (b b' : Builder F) : Prop where
  later : Later b b'
  adds : b.subCircuits.Adds b'.subCircuits

namespace Follows

theorem refl (tidy : b.Tidy) : Follows b b := ⟨.refl tidy.truthful, .refl tidy.numbered⟩

theorem trans (first : Follows b b₁) (second : Follows b₁ b') : Follows b b' :=
  ⟨first.later.trans second.later, first.adds.trans second.adds⟩

theorem tidy (follows : Follows b b') : b'.Tidy := ⟨follows.later.truthful, follows.adds.numbered⟩

end Follows

/-- How a step fails: never, before it has changed the builder, or at any point. -/
inductive Failing where
  | never
  | early
  | late
deriving DecidableEq

/-- What a step does to any builder. It may have no bound for the wires that it takes. -/
structure Behaves (failing : Failing) (wires : Option Nat) (step : Build F α) : Prop where
  later : ∀ {b b'}, b.Truthful → Ends step b b' → Later b b'
  adds : ∀ {b b'}, b.Tidy → Ends step b b' → b.subCircuits.Adds b'.subCircuits
  takes : ∀ {b b'}, b.Truthful → Ends step b b' → ∀ n, wires = some n → b'.nextWire ≤ b.nextWire + n
  succeeds : failing = .never → ∀ {b : Builder F}, b.Truthful → ∃ a b', step b = .ok a b'
  unchanged : failing ≠ .late → ∀ {b e b'}, b.Tidy → step b = .error e b' → b' = b

theorem ends_bind {step : Build F α} {next : α → Build F β} (ends : Ends (step >>= next) b b') :
    (∃ e, step b = .error e b') ∨ ∃ a b₁, step b = .ok a b₁ ∧ Ends (next a) b₁ b' := by
  rcases ends with ⟨c, done⟩ | ⟨e, failed⟩
  · obtain ⟨a, b₁, stepped, continued⟩ := run_bind_eq_ok.mp done
    exact .inr ⟨a, b₁, stepped, .inl ⟨c, continued⟩⟩
  · rcases run_bind_eq_error.mp failed with stopped | ⟨a, b₁, stepped, stopped⟩
    · exact .inl ⟨e, stopped⟩
    · exact .inr ⟨a, b₁, stepped, .inr ⟨e, stopped⟩⟩

namespace Behaves
variable {f g : Failing} {k l wires : Option Nat} {m n : Nat}

theorem follows {step : Build F α} (behaves : Behaves f k step) (tidy : b.Tidy) (ends : Ends step b b') : Follows b b' :=
  ⟨behaves.later tidy.truthful ends, behaves.adds tidy ends⟩

theorem nextWire {step : Build F α} (behaves : Behaves f (some n) step) (truthful : b.Truthful) (ends : Ends step b b') :
    b'.nextWire ≤ b.nextWire + n :=
  behaves.takes truthful ends n rfl

/-! ### Steps put together -/

/-- A step that secures something. -/
theorem of_secures {step : Build F α} {Q : α → (Wire → Scalar F) → Prop}
    (secures : ∀ {b : Builder F}, b.Truthful → Secures b n step Q) : Behaves .never (some n) step := by
  have secured {b b' : Builder F} (truthful : b.Truthful) (ends : Ends step b b') : Secured b n b' := by
    obtain ⟨_, _, done, secured, -⟩ := secures truthful
    exact ends.eq_of_ok done ▸ secured
  refine ⟨fun truthful ends => (secured truthful ends).toLater, fun tidy ends => ?_, fun truthful ends _ same => ?_,
    fun _ _ truthful => ?_, fun _ _ _ _ tidy failed => ?_⟩
  · rw [(secured tidy.truthful ends).subCircuits]
    exact .refl tidy.numbered
  · exact Option.some.inj same ▸ (secured truthful ends).nextWire
  · obtain ⟨a, b', done, -⟩ := secures truthful
    exact ⟨a, b', done⟩
  · obtain ⟨_, _, done, -⟩ := secures tidy.truthful
    cases failed.symm.trans done

theorem pure (a : α) : Behaves .never (some 0) (Pure.pure a : Build F α) :=
  of_secures fun truthful => Secures.pure (Q := fun _ _ => True) truthful fun _ _ => trivial

theorem throw (e : BuildError) : Behaves .early (some 0) (MonadExcept.throw e : Build F α) := by
  have same {b b' : Builder F} (ends : Ends (MonadExcept.throw e : Build F α) b b') : b' = b := ends.eq_of_error rfl
  refine ⟨fun truthful ends => ?_, fun tidy ends => ?_, fun _ ends _ _ => ?_, nofun, fun _ _ _ _ _ failed => ?_⟩
  · rw [same ends]
    exact .refl truthful
  · rw [same ends]
    exact .refl tidy.numbered
  · rw [same ends]
    exact Nat.le_add_right ..
  · exact same (.inr ⟨_, failed⟩)

theorem early {step : Build F α} (behaves : Behaves .never k step) : Behaves .early k step where
  later := behaves.later
  adds := behaves.adds
  takes := behaves.takes
  succeeds := nofun
  unchanged _ := behaves.unchanged (by decide)

theorem late {step : Build F α} (behaves : Behaves f k step) : Behaves .late k step where
  later := behaves.later
  adds := behaves.adds
  takes := behaves.takes
  succeeds := nofun
  unchanged notLate := absurd rfl notLate

theorem weaken {step : Build F α} (behaves : Behaves f (some m) step) (le : m ≤ n) : Behaves f (some n) step where
  later := behaves.later
  adds := behaves.adds
  takes truthful ends _ same := Option.some.inj same ▸ (behaves.nextWire truthful ends).trans (Nat.add_le_add_left le _)
  succeeds := behaves.succeeds
  unchanged := behaves.unchanged

theorem unbounded {step : Build F α} (behaves : Behaves f k step) : Behaves f none step where
  later := behaves.later
  adds := behaves.adds
  takes _ _ _ same := by cases same
  succeeds := behaves.succeeds
  unchanged := behaves.unchanged

theorem any {step : Build F α} (behaves : Behaves f k step) : Behaves .late none step := behaves.late.unbounded

/-- What comes after looking at the builder. -/
theorem look {next : Builder F → Build F α} (behaves : ∀ b, Behaves f k (next b)) : Behaves f k (get >>= next) where
  later {b _} := (behaves b).later (b := b)
  adds {b _} := (behaves b).adds (b := b)
  takes {b _} := (behaves b).takes (b := b)
  succeeds never b := (behaves b).succeeds never (b := b)
  unchanged notLate b _ _ := (behaves b).unchanged notLate (b := b)

section
variable {step : Build F α} {next : α → Build F β}

/-- One step after another, which may depend on what the first made. -/
theorem sequence (first : Behaves f k step) (second : ∀ {b a b₁}, step b = .ok a b₁ → Behaves g l (next a))
    (fits : ∀ n, wires = some n → ∃ i j, k = some i ∧ l = some j ∧ i + j ≤ n) : Behaves .late wires (step >>= next) := by
  refine ⟨fun truthful ends => ?_, fun tidy ends => ?_, fun {b b'} truthful ends n same => ?_, nofun,
    fun notLate => absurd rfl notLate⟩
  · rcases ends_bind ends with ⟨e, stopped⟩ | ⟨a, b₁, stepped, continued⟩
    · exact first.later truthful (.inr ⟨e, stopped⟩)
    · have soFar := first.later truthful (.inl ⟨a, stepped⟩)
      exact soFar.trans ((second stepped).later soFar.truthful continued)
  · rcases ends_bind ends with ⟨e, stopped⟩ | ⟨a, b₁, stepped, continued⟩
    · exact first.adds tidy (.inr ⟨e, stopped⟩)
    · have soFar := first.follows tidy (.inl ⟨a, stepped⟩)
      exact soFar.adds.trans ((second stepped).adds soFar.tidy continued)
  · obtain ⟨i, j, rfl, rfl, le⟩ := fits n same
    rcases ends_bind ends with ⟨e, stopped⟩ | ⟨a, b₁, stepped, continued⟩
    · have taken := first.nextWire truthful (.inr ⟨e, stopped⟩)
      omega
    · have soFar := first.later truthful (.inl ⟨a, stepped⟩)
      have taken := first.nextWire truthful (.inl ⟨a, stepped⟩)
      have taken' := (second stepped).nextWire soFar.truthful continued
      omega

/-- After any step, one that has the wires that are left and cannot fail. -/
theorem follow (first : Behaves f (some m) step) (fits : m ≤ n)
    (second : ∀ {b a b₁}, step b = .ok a b₁ → Behaves .never (some (n - m)) (next a)) :
    Behaves f (some n) (step >>= next) := by
  have both : Behaves .late (some n) (step >>= next) := first.sequence second fun _ same =>
    ⟨m, n - m, rfl, rfl, (Nat.add_sub_cancel' fits).trans_le (Option.some.inj same).le⟩
  refine ⟨both.later, both.adds, both.takes, fun never b truthful => ?_, fun notLate b e b' tidy failed => ?_⟩
  · obtain ⟨a, b₁, stepped⟩ := first.succeeds never truthful
    have soFar := first.later truthful (.inl ⟨a, stepped⟩)
    obtain ⟨c, b₂, continued⟩ := (second stepped).succeeds rfl soFar.truthful
    exact ⟨c, b₂, run_bind_eq_ok.mpr ⟨a, b₁, stepped, continued⟩⟩
  · rcases run_bind_eq_error.mp failed with stopped | ⟨a, b₁, stepped, stopped⟩
    · exact first.unchanged notLate tidy stopped
    · have soFar := first.later tidy.truthful (.inl ⟨a, stepped⟩)
      obtain ⟨_, _, continued⟩ := (second stepped).succeeds rfl soFar.truthful
      cases stopped.symm.trans continued

theorem bind (first : Behaves f (some m) step) (fits : m ≤ n) (second : ∀ a, Behaves .never (some (n - m)) (next a)) :
    Behaves f (some n) (step >>= next) :=
  first.follow fits fun _ => second _

/-- After any step, one that has the wires that are left and may fail. -/
theorem lateBind (first : Behaves f (some m) step) (fits : m ≤ n) (second : ∀ a, Behaves .late (some (n - m)) (next a)) :
    Behaves .late (some n) (step >>= next) :=
  first.sequence (fun _ => second _) fun _ same =>
    ⟨m, n - m, rfl, rfl, (Nat.add_sub_cancel' fits).trans_le (Option.some.inj same).le⟩

theorem unboundedBind (first : Behaves f k step) (second : ∀ a, Behaves .late none (next a)) :
    Behaves .late none (step >>= next) :=
  first.sequence (fun _ => second _) nofun

end

end Behaves

/-! ### Operations that cannot fail -/

theorem mul_behaves (x y : LinearForm F) : Behaves .never (some 1) (mul x y) := .of_secures (mul_secures · x y)

theorem recordBuiltin_behaves (hint : BuiltinHint) (inputs : List (LinearForm F)) :
    Behaves .never (some 1) (recordBuiltin hint inputs) :=
  .of_secures (recordBuiltin_secures · hint inputs)

theorem recordConstraint_behaves (e : LinearForm F) : Behaves .never (some 0) (recordConstraint e) :=
  .of_secures (recordConstraint_secures · e)

theorem reject_behaves (assertion : Assertion) (value : Scalar F) : Behaves .never (some 0) (reject assertion value) :=
  .of_secures (reject_secures · assertion value)

theorem assertBoolean_behaves (e : LinearForm F) : Behaves .never (some 1) (assertBoolean e) :=
  .of_secures (assertBoolean_secures · e)

theorem product_behaves (x y : LinearForm F) : Behaves .never (some 1) (product x y) := .of_secures (product_secures · x y)

theorem isZero_behaves (x : LinearForm F) : Behaves .never (some 4) (isZero x) := .of_secures (isZero_secures · x)

theorem and_behaves (x y : LinearForm F) : Behaves .never (some 3) (and x y) := .of_secures (and_secures · x y)

theorem or_behaves (x y : LinearForm F) : Behaves .never (some 3) (or x y) := .of_secures (or_secures · x y)

theorem xor_behaves (x y : LinearForm F) : Behaves .never (some 3) (xor x y) := .of_secures (xor_secures · x y)

theorem output_behaves (e : LinearForm F) : Behaves .never (some 0) (output e) :=
  .of_secures (Q := fun _ _ => True) fun truthful => ⟨(), _, rfl, ⟨.listing truthful .., le_rfl, rfl⟩, fun _ _ => trivial⟩

theorem outputAll_behaves (es : List (LinearForm F)) : Behaves .never (some 0) (outputAll es) := by
  induction es with
  | nil => exact .pure ()
  | cons e rest ih => exact (output_behaves e).bind le_rfl fun _ => ih

theorem inputs_behaves : Behaves .never (some 0) (inputs : Build F (List (LinearForm F))) := .look fun _ => .pure _

/-- An instruction that defines new wires. -/
theorem recordWires_behaves (mk : List Wire → Instruction F) (count : Nat) :
    Behaves .never (some count) (do
      let outs ← newWires count
      recordInstruction (mk outs)
      return (outs.map LinearForm.wire : List (LinearForm F))) :=
  .of_secures (recordWires_secures · mk count)

theorem reify_behaves (e : LinearForm F) : Behaves .never (some 1) (reify e) :=
  .of_secures (Q := fun _ _ => True) fun {b} truthful =>
    ⟨_, b.extend (.linear e (.wrap b.nextWire)) 1, rfl, .extend truthful .., fun _ _ => trivial⟩

theorem addProducts_behaves (sum : LinearForm F) (pairs : List (LinearForm F × LinearForm F)) :
    Behaves .never (some pairs.length) (addProducts sum pairs) := by
  induction pairs generalizing sum with
  | nil => exact .pure sum
  | cons p rest ih => exact (mul_behaves p.1 p.2).bind (Nat.le_add_left ..) fun xy => ih (sum + xy)

theorem select_behaves (c t f : LinearForm F) : Behaves .never (some 1) (select c t f) :=
  (mul_behaves c (t - f)).bind le_rfl fun _ => .pure _

theorem requireZero_behaves (assertion : Assertion) (e : LinearForm F) :
    Behaves .never (some 0) (requireZero assertion e) :=
  .of_secures (requireZero_secures · assertion e)

theorem assertDistinct_behaves (x y : LinearForm F) : Behaves .never (some 2) (assertDistinct x y) := by
  unfold assertDistinct
  dsimp only
  split
  · split
    · exact (reject_behaves .distinct _).weaken (Nat.zero_le 2)
    · exact (Behaves.pure ()).weaken (Nat.zero_le 2)
  · refine (recordBuiltin_behaves .inverse _).bind (by decide) fun inverse => ?_
    exact (mul_behaves _ inverse).bind (by decide) fun prod => recordConstraint_behaves _

theorem lookup2_behaves (c₀ c₁ v₀ v₁ v₂ v₃ : LinearForm F) : Behaves .never (some 5) (lookup2 c₀ c₁ v₀ v₁ v₂ v₃) := by
  refine (assertBoolean_behaves c₀).bind (by decide) fun _ => (assertBoolean_behaves c₁).bind (by decide) fun _ => ?_
  refine (select_behaves c₀ v₁ v₀).bind (by decide) fun low => (select_behaves c₀ v₃ v₂).bind (by decide) fun high => ?_
  exact select_behaves c₁ high low

/-! ### Operations that fail before they record -/

theorem input_behaves (index : Nat) : Behaves .early (some 0) (input index : Build F (LinearForm F)) := by
  refine .look fun b => ?_
  split
  · exact .throw _
  · exact (Behaves.pure _).early

theorem innerProduct_behaves (xs ys : List (LinearForm F)) :
    Behaves .early (some (xs.zip ys).length) (innerProduct xs ys) := by
  unfold innerProduct
  split
  · exact (Behaves.throw _).weaken (Nat.zero_le _)
  · exact (addProducts_behaves ..).early

theorem inverse_behaves (x : LinearForm F) : Behaves .early (some 2) (inverse x) := by
  unfold inverse
  split
  · split
    · exact (Behaves.pure _).early.weaken (Nat.zero_le 2)
    · exact (Behaves.throw _).weaken (Nat.zero_le 2)
  · refine Behaves.early ((recordBuiltin_behaves .inverse [x]).bind (by decide) fun y => ?_)
    refine (mul_behaves x y).bind (by decide) fun prod => ?_
    exact (recordConstraint_behaves _).bind (by decide) fun _ => .pure y

theorem div_behaves (x y : LinearForm F) : Behaves .early (some 3) (div x y) :=
  (inverse_behaves y).bind (by decide) fun z => product_behaves x z

theorem divUnchecked_behaves (x y : LinearForm F) : Behaves .early (some 2) (divUnchecked x y) := by
  unfold divUnchecked
  split
  · split
    · exact (Behaves.pure _).early.weaken (Nat.zero_le 2)
    · exact (Behaves.throw _).weaken (Nat.zero_le 2)
  · refine Behaves.early ((recordBuiltin_behaves .quotient [x, y]).bind (by decide) fun q => ?_)
    refine (mul_behaves q y).bind (by decide) fun prod => ?_
    exact (recordConstraint_behaves _).bind (by decide) fun _ => .pure q

theorem recordHint_eq (name : String) (inputs : List (LinearForm F)) (count : Nat) (b : Builder F) :
    recordHint name inputs count b = .ok ((freshWires b.nextWire count).map .wire)
      (b.extend (.hint name inputs (freshWires b.nextWire count)) count) :=
  run_bind_eq_ok.mpr ⟨_, _, newWires_eq count b, rfl⟩

theorem forms_of_toBinary {count : Nat} {e : LinearForm F} {bits : List (LinearForm F)}
    (done : toBinary e count b = .ok bits b') : bits = (freshWires b.nextWire count).map .wire := by
  rw [toBinary] at done
  split at done
  · cases done
  · obtain ⟨made, _, hinted, rest⟩ := run_bind_eq_ok.mp done
    obtain ⟨_, _, _, rest⟩ := run_bind_eq_ok.mp rest
    obtain ⟨_, _, _, ⟨⟩⟩ := run_bind_eq_ok.mp rest
    cases (recordHint_eq ..).symm.trans hinted
    rfl

theorem length_of_toBinary {count : Nat} {e : LinearForm F} {bits : List (LinearForm F)}
    (done : toBinary e count b = .ok bits b') : bits.length = count := by
  rw [forms_of_toBinary done, List.length_map, length_freshWires]

/-- The bits of a form are those of its value, whatever the hint gives. Each takes a wire, and another for its
    assertion. -/
theorem toBinary_secures (truthful : b.Truthful) (e : LinearForm F) {count : Nat} (few : count ≤ F.bits - 1) :
    Secures b (2 * count) (toBinary e count) fun bits w =>
      (e.eval w).val < 2 ^ count ∧ bits.map (·.eval w) = Scalar.toBinary count (e.eval w) := by
  have hinted := recordHint_eq BuiltinHint.toBinary.name [e] count b
  have early : Secured b count (b.extend (.hint BuiltinHint.toBinary.name [e] (freshWires b.nextWire count)) count) :=
    .extend truthful ..
  have length : ((freshWires b.nextWire count).map LinearForm.wire : List (LinearForm F)).length = count := by simp
  generalize (freshWires b.nextWire count).map (LinearForm.wire (F := F)) = bits at hinted length
  obtain ⟨_, b₂, asserted, middle, boolean⟩ := assertAllBoolean_secures early.truthful bits
  obtain ⟨_, b₃, equal, late, zero⟩ := requireZero_secures middle.truthful .equal (fromBinary bits - e)
  refine ⟨bits, b₃, ?_, ?_, fun w permits => ?_⟩
  · rw [toBinary, if_neg (Nat.not_lt.mpr few)]
    exact run_bind_eq_ok.mpr ⟨_, _, hinted, run_bind_eq_ok.mpr ⟨(), b₂, asserted, run_bind_eq_ok.mpr ⟨(), b₃, equal, rfl⟩⟩⟩
  · rw [length] at middle
    exact early.trans (by omega) (middle.trans (by omega) (late.mono (Nat.zero_le _)))
  · have total : (fromBinary bits - e).eval w = 0 := zero w permits
    rw [LinearForm.eval_sub, sub_eq_zero, eval_fromBinary] at total
    have bit : ∀ y ∈ bits.map (·.eval w), y = 0 ∨ y = 1 := List.forall_mem_map.mpr (boolean w (late.permits permits))
    exact (Scalar.ofBinary_eq_iff (by rw [List.length_map, length]) few).mp ⟨bit, total⟩

theorem toBinary_behaves (e : LinearForm F) (count : Nat) : Behaves .early (some (2 * count)) (toBinary e count) := by
  by_cases few : count ≤ F.bits - 1
  · exact (Behaves.of_secures (toBinary_secures · e few)).early
  · rw [toBinary, if_pos (Nat.not_le.mp few)]
    exact (Behaves.throw _).weaken (Nat.zero_le _)

theorem hint_behaves (name : String) (inputs : List (LinearForm F)) (count : Nat) :
    Behaves .early (some count) (hint name inputs count) := by
  refine .look fun b => ?_
  split
  · exact (recordWires_behaves (.hint name inputs) count).early
  · exact (Behaves.throw _).weaken (Nat.zero_le _)

theorem call_behaves (id : CircuitId) (inputs : List (LinearForm F)) : Behaves .early none (call id inputs) := by
  refine .look fun b => ?_
  split
  · exact (Behaves.throw _).unbounded
  · split
    · exact (Behaves.throw _).unbounded
    · exact (recordWires_behaves (.call id inputs) _).early.unbounded

/-! ### Definitions -/

theorem adopt_later (truthful : b.Truthful) (key : String) (inner : Builder F) (failure : Option BuildError) :
    Later b (b.adopt key inner failure).2 := by
  unfold adopt
  split
  · exact .listing truthful ..
  · exact .listing truthful ..

/-- A definition changes only what sub-circuits there are, whatever its body does. -/
theorem define_later (truthful : b.Truthful) {key : String} {numInputs : Nat} {body : Build F Unit}
    (ends : Ends (define key numInputs body) b b') : Later b b' := by
  rcases define_ends ends with rfl | ⟨-, inner, failure, -, rfl⟩
  · exact .refl truthful
  · exact adopt_later truthful key inner failure

theorem define_nextWire {key : String} {numInputs : Nat} {body : Build F Unit}
    (ends : Ends (define key numInputs body) b b') : b'.nextWire = b.nextWire := by
  rcases define_ends ends with rfl | ⟨-, inner, failure, -, rfl⟩
  · rfl
  · unfold adopt
    split
    · rfl
    · rfl

section
variable {key : String} {inner : Builder F} {failure : Option BuildError} (numbered : b.subCircuits.Numbered)

include numbered

/-- A definition that fails takes back all that its body defined, and nothing else. -/
theorem adopt_of_error (inside : b.subCircuits.Adds inner.subCircuits) {e : BuildError}
    (failed : (b.adopt key inner failure).1 = .error e) : (b.adopt key inner failure).2 = b := by
  rcases adopt_cases b key inner failure with ⟨-, added⟩ | ⟨_, -, undone⟩
  · rw [added] at failed
    cases failed
  · rw [undone, SubCircuits.rollback_eq numbered inside.kept]

theorem adopt_adds (free : b.subCircuits.lookup? key = none) (inside : b.subCircuits.Adds inner.subCircuits) :
    b.subCircuits.Adds (b.adopt key inner failure).2.subCircuits := by
  rcases adopt_cases b key inner failure with ⟨-, added⟩ | ⟨_, -, undone⟩
  · rw [added]
    exact ⟨inside.numbered.insert key inner.circuit, inside.kept.insert free inner.circuit⟩
  · rw [undone, SubCircuits.rollback_eq numbered inside.kept]
    exact .refl numbered

end

theorem truthful_blank (numInputs numPublic : Nat) (hints : HintRegistry F) (subs : SubCircuits F) :
    (blank numInputs numPublic hints subs).Truthful :=
  fun _ member => absurd member Std.TreeSet.not_mem_emptyc

theorem Tidy.child (tidy : b.Tidy) (numInputs : Nat) : (b.child numInputs).Tidy :=
  ⟨truthful_blank _ _ _ _, tidy.numbered⟩

section
variable {key : String} {numInputs : Nat} {body : Build F Unit}

/-- A definition adds sub-circuits if its body, where the key is new, does. -/
theorem define_adds (numbered : b.subCircuits.Numbered)
    (inside : b.subCircuits.lookup? key = none →
      ∀ inner, Ends body (b.child numInputs) inner → b.subCircuits.Adds inner.subCircuits)
    (ends : Ends (define key numInputs body) b b') : b.subCircuits.Adds b'.subCircuits := by
  rcases define_ends ends with rfl | ⟨free, inner, failure, ended, rfl⟩
  · exact .refl numbered
  · exact adopt_adds numbered free (inside free inner ended)

/-- A definition that fails leaves the builder as it was, if its body only adds sub-circuits. -/
theorem define_of_error (numbered : b.subCircuits.Numbered)
    (inside : ∀ inner, Ends body (b.child numInputs) inner → b.subCircuits.Adds inner.subCircuits) {e : BuildError}
    (failed : define key numInputs body b = .error e b') : b' = b := by
  rcases define_cases key numInputs body b with
    ⟨id, -, found⟩ | ⟨-, ⟨e, refused⟩ | ⟨-, inner, failure, ended, ⟨id, -, added⟩ | ⟨e, undone, same⟩⟩⟩
  · cases failed.symm.trans found
  · cases failed.symm.trans refused
    rfl
  · cases failed.symm.trans added
  · cases failed.symm.trans same
    exact adopt_of_error numbered (inside inner ended) undone

theorem define_behaves {f : Failing} {k : Option Nat} (key : String) (numInputs : Nat) (inside : Behaves f k body) :
    Behaves .early (some 0) (define key numInputs body) where
  later truthful := define_later truthful
  adds tidy := define_adds tidy.numbered fun _ _ => inside.adds (tidy.child numInputs)
  takes _ ends _ _ := (define_nextWire ends).trans_le (Nat.le_add_right ..)
  succeeds := nofun
  unchanged _ _ _ _ tidy := define_of_error tidy.numbered fun _ => inside.adds (tidy.child numInputs)

end

end Builder
end ArithCircuit
