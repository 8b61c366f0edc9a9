import ArithCircuit.Proofs.Gadget.Word

/-!
The prefix adder adds, at every width. A span of places turns the carry that comes in from below into the
carry that goes out. What it makes of no carry and what it makes of one decide its two bits, so that joining
adjacent spans composes them. After the sweep up, the span that ends at place `i` is as long as the largest
power of two that divides `i + 1`; the sweep down lets it begin at the lowest place. The carries found so are
those of the sum.
-/
namespace ArithCircuit
variable {F : ScalarField} {n : Nat}

open Builder (Multiplies)

/-! ### Carries -/

/-- The carry out of `count` places from `low` on, for a carry into the lowest of them. -/
def carryThrough (x y : BitVec n) (low : Nat) : Nat → Bool → Bool
  | 0, c => c
  | count + 1, c => Bool.atLeastTwo (x.getLsbD (low + count)) (y.getLsbD (low + count)) (carryThrough x y low count c)

theorem carryThrough_zero (x y : BitVec n) (count : Nat) (c : Bool) :
    carryThrough x y 0 count c = BitVec.carry count x y c := by
  induction count with
  | zero => rw [carryThrough, BitVec.carry_zero]
  | succ count ih => rw [carryThrough, Nat.zero_add, ih, BitVec.carry_succ]

theorem carryThrough_add (x y : BitVec n) (low first count : Nat) (c : Bool) :
    carryThrough x y low (first + count) c = carryThrough x y (low + first) count (carryThrough x y low first c) := by
  induction count with
  | zero => rfl
  | succ count ih => rw [← Nat.add_assoc, carryThrough, carryThrough, ih, Nat.add_assoc]

/-- A carry goes out if one is made, or if one comes in that is passed on. -/
theorem carryThrough_eq (x y : BitVec n) (low count : Nat) (c : Bool) :
    carryThrough x y low count c = (carryThrough x y low count false || carryThrough x y low count true && c) := by
  induction count with
  | zero => rfl
  | succ count ih =>
    simp only [carryThrough]
    rw [ih]
    cases x.getLsbD (low + count) <;> cases y.getLsbD (low + count) <;> cases c <;> simp

theorem carryThrough_append (x y : BitVec n) (low first count : Nat) (c : Bool) :
    carryThrough x y low (first + count) c = (carryThrough x y (low + first) count false ||
      carryThrough x y (low + first) count true && carryThrough x y low first c) :=
  (carryThrough_add x y low first count c).trans (carryThrough_eq x y (low + first) count _)

namespace Span

/-! ### Joining spans -/

/-- A span stands for `count` places from `low` on. The carry into the adder counts as made by the spans
    that begin at the lowest place. -/
structure Covers (w : Wire → Scalar F) (x y : BitVec n) (c : Bool) (low count : Nat) (span : Span F) : Prop where
  generate : span.generate.eval w = .ofBool (carryThrough x y low count (decide (low = 0) && c))
  propagate : span.propagate.eval w = .ofBool (carryThrough x y low count true && !carryThrough x y low count false)

variable {w : Wire → Scalar F} {x y : BitVec n} {c : Bool}

/-- A span of one place. -/
theorem covers_single {i : Nat} {span : Span F}
    (generate : span.generate.eval w = .ofBool (Bool.atLeastTwo (x.getLsbD i) (y.getLsbD i) (decide (i = 0) && c)))
    (propagate : span.propagate.eval w = .ofBool (x.getLsbD i ^^ y.getLsbD i)) : span.Covers w x y c i 1 := by
  refine ⟨generate, propagate.trans (congrArg _ ?_)⟩
  simp only [carryThrough, Nat.add_zero]
  cases x.getLsbD i <;> cases y.getLsbD i <;> rfl

/-- Joining composes what the spans make of a carry. A span that makes a carry of its own does not pass
    one on, so the sum of both ways is a bit. -/
theorem join_multiplies (high low : Span F) : Multiplies (join high low) (fun _ => True) fun joined w =>
    ∀ {n : Nat} {x y : BitVec n} {c : Bool} {start first count : Nat}, 0 < first → low.Covers w x y c start first →
      high.Covers w x y c (start + first) count → joined.Covers w x y c start (first + count) := by
  refine (Builder.mul_multiplies _ _).bind fun carried _ => (Builder.mul_multiplies _ _).bind fun propagate _ => ?_
  refine .pure trivial fun w _ passes carries n x y c start first count positive below above => ?_
  have inner : ¬ start + first = 0 := by omega
  have generateHigh := above.generate
  rw [decide_eq_false inner, Bool.false_and] at generateHigh
  constructor
  · show (high.generate + carried).eval w = _
    rw [LinearForm.eval_add, carries, generateHigh, above.propagate, below.generate, carryThrough_append]
    cases carryThrough x y (start + first) count true <;> cases carryThrough x y (start + first) count false <;> simp
  · show propagate.eval w = _
    rw [passes, above.propagate, below.propagate, carryThrough_append, carryThrough_append]
    cases carryThrough x y (start + first) count true <;> cases carryThrough x y (start + first) count false <;> simp

/-- The span at each position ends there, and begins where `low` says. -/
def Cover (w : Wire → Scalar F) (x y : BitVec n) (c : Bool) (low : Nat → Nat) (spans : Array (Span F)) : Prop :=
  ∀ i < spans.size, low i ≤ i ∧ (spans.getD i default).Covers w x y c (low i) (i + 1 - low i)

theorem Cover.congr {low low' : Nat → Nat} {spans : Array (Span F)} (cover : Cover w x y c low spans)
    (same : ∀ i < spans.size, low' i = low i) : Cover w x y c low' spans := by
  intro i below
  rw [same i below]
  exact cover i below

/-- The spans that end at the given positions begin `distance` below, where no other of them ends. Joined
    with the spans that end there, they begin where those began. -/
structure Joinable (size distance : Nat) (positions : List Nat) (low low' : Nat → Nat) : Prop where
  nodup : positions.Nodup
  apart : ∀ i ∈ positions, i - distance ∉ positions
  adjacent : ∀ i ∈ positions, distance ≤ i ∧ i + 1 = low i + distance
  joined : ∀ i ∈ positions, low' i = low (i - distance)
  others : ∀ i < size, i ∉ positions → low' i = low i

/-- The first position may be joined before the rest. -/
theorem Joinable.tail {size distance i : Nat} {rest : List Nat} {low low' : Nat → Nat}
    (joinable : Joinable size distance (i :: rest) low low') :
    Joinable size distance rest (Function.update low i (low (i - distance))) low' := by
  have different : ∀ k ∈ rest, k ≠ i := fun k member same => (List.nodup_cons.mp joinable.nodup).1 (same ▸ member)
  refine ⟨joinable.nodup.of_cons, ?_, ?_, ?_, ?_⟩
  · intro k member inside
    exact joinable.apart k (.tail _ member) (.tail _ inside)
  · intro k member
    rw [Function.update_of_ne (different k member)]
    exact joinable.adjacent k (.tail _ member)
  · intro k member
    have other : k - distance ≠ i := fun same => joinable.apart k (.tail _ member) (same ▸ .head _)
    rw [Function.update_of_ne other]
    exact joinable.joined k (.tail _ member)
  · intro k below outside
    by_cases same : k = i
    · rw [same, Function.update_self]
      exact joinable.joined i (.head _)
    · rw [Function.update_of_ne same]
      exact joinable.others k below fun member => outside ((List.mem_cons.mp member).resolve_left same)

/-- Joining one span with the adjacent one below. -/
theorem Cover.join {spans : Array (Span F)} {low : Nat → Nat} {i distance : Nat} {joined : Span F}
    (cover : Cover w x y c low spans) (within : distance ≤ i) (adjacent : i + 1 = low i + distance)
    (composes : ∀ {start first count : Nat}, 0 < first → (spans.getD (i - distance) default).Covers w x y c start first →
      (spans.getD i default).Covers w x y c (start + first) count → joined.Covers w x y c start (first + count)) :
    Cover w x y c (Function.update low i (low (i - distance))) (spans.setIfInBounds i joined) := by
  intro k below
  rw [Array.size_setIfInBounds] at below
  by_cases same : k = i
  · subst same
    obtain ⟨_, above⟩ := cover k below
    obtain ⟨starts, under⟩ := cover (k - distance) (by omega)
    have meet : low (k - distance) + (k - distance + 1 - low (k - distance)) = low k := by omega
    have whole : k - distance + 1 - low (k - distance) + (k + 1 - low k) = k + 1 - low (k - distance) := by omega
    have placed : (spans.setIfInBounds k joined).getD k default = joined := by
      simp [Array.getD_eq_getD_getElem?, below]
    refine ⟨by rw [Function.update_self]; omega, ?_⟩
    rw [Function.update_self, placed, ← whole]
    refine composes (by omega) under ?_
    rwa [meet]
  · rw [Function.update_of_ne same]
    have kept : (spans.setIfInBounds i joined).getD k default = spans.getD k default := by
      simp [Array.getD_eq_getD_getElem?, Ne.symm same]
    rw [kept]
    exact cover k below

theorem joinAt_multiplies (distance : Nat) (positions : List Nat) (spans : Array (Span F)) :
    Multiplies (joinAt distance positions spans) (·.size = spans.size) fun spans' w =>
      ∀ {n : Nat} {x y : BitVec n} {c : Bool} {low low' : Nat → Nat}, Joinable spans.size distance positions low low' →
        Cover w x y c low spans → Cover w x y c low' spans' := by
  induction positions generalizing spans with
  | nil =>
    refine .pure rfl fun w _ n x y c low low' joinable cover => cover.congr fun i below => ?_
    exact joinable.others i below List.not_mem_nil
  | cons i rest ih =>
    refine (join_multiplies _ _).bind fun joined _ => ?_
    refine (ih (spans.setIfInBounds i joined)).mono ?_ ?_
    · intro spans' size
      rw [size, Array.size_setIfInBounds]
    · intro spans' w _ later composes n x y c low low' joinable cover
      obtain ⟨within, adjacent⟩ := joinable.adjacent i (.head _)
      refine later ?_ (cover.join within adjacent composes)
      rw [Array.size_setIfInBounds]
      exact joinable.tail

/-- Level by level, spans begin where `low` says for the number of levels that are done. -/
theorem sweep_multiplies (first : Nat → Nat) (levels : List Nat) (spans : Array (Span F)) :
    Multiplies (sweep first levels spans) (·.size = spans.size) fun spans' w =>
      ∀ {n : Nat} {x y : BitVec n} {c : Bool} (low : Nat → Nat → Nat),
        (∀ k (_ : k < levels.length), Joinable spans.size (2 ^ levels[k])
          (stride (first (2 ^ levels[k])) spans.size (2 * 2 ^ levels[k])) (low k) (low (k + 1))) →
        Cover w x y c (low 0) spans → Cover w x y c (low levels.length) spans' := by
  induction levels generalizing spans with
  | nil => exact .pure rfl fun w _ n x y c low _ cover => cover
  | cons level rest ih =>
    refine (joinAt_multiplies _ _ _).bind fun spans₁ size => (ih spans₁).mono ?_ ?_
    · intro spans' size'
      rw [size', size]
    · intro spans' w _ later joins n x y c low joinable cover
      refine later (fun k => low (k + 1)) ?_ (joins (joinable 0 (Nat.zero_lt_succ _)) cover)
      intro k below
      rw [size]
      exact joinable (k + 1) (Nat.succ_lt_succ below)

/-! ### The two sweeps -/

theorem mem_stride_iff {first bound step i : Nat} (positive : 0 < step) :
    i ∈ stride first bound step ↔ i < bound ∧ ∃ k, i = first + step * k := by
  have bounded (k : Nat) : k < (bound - first + step - 1) / step ↔ first + step * k < bound := by
    rw [Nat.lt_iff_add_one_le, Nat.le_div_iff_mul_le positive, Nat.add_mul, Nat.one_mul, Nat.mul_comm k]
    omega
  simp only [stride, List.mem_map, List.mem_range]
  constructor
  · rintro ⟨k, small, rfl⟩
    exact ⟨(bounded k).mp small, k, rfl⟩
  · rintro ⟨below, k, rfl⟩
    exact ⟨k, (bounded k).mpr below, rfl⟩

theorem nodup_stride (first bound : Nat) {step : Nat} (positive : 0 < step) : (stride first bound step).Nodup := by
  refine List.nodup_range.map fun k l same => ?_
  exact Nat.eq_of_mul_eq_mul_left positive (Nat.add_left_cancel same)

/-- The sweep up joins at the multiples of twice the distance, counted from one. -/
theorem mem_stride_up {d bound i : Nat} (positive : 0 < d) :
    i ∈ stride (2 * d - 1) bound (2 * d) ↔ i < bound ∧ 2 * d ∣ i + 1 := by
  rw [mem_stride_iff (by omega)]
  refine and_congr_right fun _ => ⟨?_, ?_⟩
  · rintro ⟨k, rfl⟩
    exact ⟨k + 1, by rw [Nat.mul_succ]; omega⟩
  · rintro ⟨k, multiple⟩
    obtain ⟨l, rfl⟩ : ∃ l, k = l + 1 := Nat.exists_eq_succ_of_ne_zero (by rintro rfl; omega)
    exact ⟨l, by rw [Nat.mul_succ] at multiple; omega⟩

theorem two_mul_dvd_mul_iff {d m : Nat} (positive : 0 < d) : 2 * d ∣ d * m ↔ 2 ∣ m := by
  rw [Nat.mul_comm 2 d, Nat.mul_dvd_mul_iff_left positive]

/-- The sweep down joins at the odd multiples of the distance, but for the first. -/
theorem mem_stride_down {d bound i : Nat} (positive : 0 < d) :
    i ∈ stride (3 * d - 1) bound (2 * d) ↔ i < bound ∧ d ∣ i + 1 ∧ ¬ 2 * d ∣ i + 1 ∧ d < i + 1 := by
  have several (m : Nat) : d < d * m ↔ 1 < m := Nat.lt_mul_iff_one_lt_right positive
  rw [mem_stride_iff (by omega)]
  refine and_congr_right fun _ => ⟨?_, ?_⟩
  · rintro ⟨k, rfl⟩
    have total : 3 * d - 1 + 2 * d * k + 1 = d * (2 * k + 3) := by
      rw [Nat.mul_add, Nat.mul_right_comm 2, Nat.mul_comm d (2 * k), Nat.mul_right_comm 2 k]
      omega
    rw [total, two_mul_dvd_mul_iff positive, several]
    exact ⟨Nat.dvd_mul_right .., by omega, by omega⟩
  · rintro ⟨⟨m, multiple⟩, odd, above⟩
    rw [multiple, two_mul_dvd_mul_iff positive] at odd
    rw [multiple, several] at above
    obtain ⟨k, rfl⟩ : ∃ k, m = 2 * k + 3 := ⟨(m - 3) / 2, by omega⟩
    rw [Nat.mul_add, Nat.mul_left_comm, ← Nat.mul_assoc] at multiple
    exact ⟨k, by omega⟩

/-- Even and odd multiples of the distance take turns. -/
theorem dvd_below {d i : Nat} (positive : 0 < d) (divides : d ∣ i + 1) (above : d < i + 1) :
    d ∣ i - d + 1 ∧ (2 * d ∣ i - d + 1 ↔ ¬ 2 * d ∣ i + 1) := by
  obtain ⟨m, multiple⟩ := divides
  obtain ⟨k, rfl⟩ : ∃ k, m = k + 1 := Nat.exists_eq_succ_of_ne_zero (by rintro rfl; omega)
  have lower : i - d + 1 = d * k := by
    rw [Nat.mul_succ] at multiple
    omega
  rw [multiple, lower, two_mul_dvd_mul_iff positive, two_mul_dvd_mul_iff positive]
  exact ⟨Nat.dvd_mul_right .., by omega⟩

theorem gcd_two_pow_succ {m k : Nat} (indivisible : ¬ 2 ^ (k + 1) ∣ m) : m.gcd (2 ^ (k + 1)) = m.gcd (2 ^ k) := by
  obtain ⟨j, small, power⟩ := (Nat.dvd_prime_pow Nat.prime_two).mp (Nat.gcd_dvd_right m (2 ^ (k + 1)))
  have divides : 2 ^ j ∣ m := power ▸ Nat.gcd_dvd_left m (2 ^ (k + 1))
  have smaller : j ≠ k + 1 := by
    rintro rfl
    exact indivisible divides
  rw [power]
  refine Nat.dvd_antisymm (Nat.dvd_gcd divides (pow_dvd_pow 2 (by omega))) ?_
  rw [← power]
  exact Nat.gcd_dvd_gcd_of_dvd_right m (pow_dvd_pow 2 (Nat.le_succ k))

theorem gcd_two_pow {m k levels : Nat} (divides : 2 ^ k ∣ m) (indivisible : ¬ 2 ^ (k + 1) ∣ m) (le : k ≤ levels) :
    m.gcd (2 ^ levels) = 2 ^ k := by
  induction levels, le using Nat.le_induction with
  | base => exact Nat.gcd_eq_right divides
  | succ levels le ih =>
    have larger : ¬ 2 ^ (levels + 1) ∣ m := fun multiple => indivisible ((pow_dvd_pow 2 (by omega)).trans multiple)
    rw [gcd_two_pow_succ larger, ih]

/-- Where the span that ends at a place begins once some levels of the sweep up are done. -/
def raised (levels i : Nat) : Nat := i + 1 - (i + 1).gcd (2 ^ levels)

/-- Where it begins once the sweep down has come to a level. -/
def settled (levels level i : Nat) : Nat := if 2 ^ level ∣ i + 1 then 0 else raised levels i

theorem raised_joinable (size level : Nat) :
    Joinable size (2 ^ level) (stride (2 * 2 ^ level - 1) size (2 * 2 ^ level)) (raised level) (raised (level + 1)) := by
  have positive := Nat.two_pow_pos level
  have double : 2 ^ (level + 1) = 2 * 2 ^ level := Nat.pow_succ'
  have half {i : Nat} (multiple : 2 * 2 ^ level ∣ i + 1) : 2 ^ level ∣ i + 1 ∧ 2 ^ level < i + 1 := by
    have large := Nat.le_of_dvd (Nat.succ_pos i) multiple
    exact ⟨(Nat.dvd_mul_left ..).trans multiple, by omega⟩
  refine ⟨nodup_stride _ _ (by omega), ?_, ?_, ?_, ?_⟩
  all_goals simp only [mem_stride_up positive]
  · rintro i ⟨_, multiple⟩ ⟨_, lower⟩
    obtain ⟨divides, above⟩ := half multiple
    exact (dvd_below positive divides above).2.mp lower multiple
  · rintro i ⟨_, multiple⟩
    obtain ⟨divides, above⟩ := half multiple
    rw [raised, Nat.gcd_eq_right divides]
    omega
  · rintro i ⟨_, multiple⟩
    obtain ⟨divides, above⟩ := half multiple
    have lower := (dvd_below positive divides above).1
    rw [← double] at multiple
    rw [raised, raised, Nat.gcd_eq_right multiple, Nat.gcd_eq_right lower]
    omega
  · intro i below outside
    have indivisible : ¬ 2 ^ (level + 1) ∣ i + 1 := by
      rw [double]
      exact fun multiple => outside ⟨below, multiple⟩
    rw [raised, raised, gcd_two_pow_succ indivisible]

theorem settled_joinable (size : Nat) {level levels : Nat} (le : level ≤ levels) :
    Joinable size (2 ^ level) (stride (3 * 2 ^ level - 1) size (2 * 2 ^ level)) (settled levels (level + 1))
      (settled levels level) := by
  have positive := Nat.two_pow_pos level
  have double : 2 ^ (level + 1) = 2 * 2 ^ level := Nat.pow_succ'
  refine ⟨nodup_stride _ _ (by omega), ?_, ?_, ?_, ?_⟩
  all_goals simp only [mem_stride_down positive, settled, double]
  · rintro i ⟨_, divides, odd, above⟩ ⟨_, _, lower, _⟩
    exact lower ((dvd_below positive divides above).2.mpr odd)
  · rintro i ⟨_, divides, odd, above⟩
    rw [if_neg odd, raised, gcd_two_pow divides (double ▸ odd) le]
    omega
  · rintro i ⟨_, divides, odd, above⟩
    rw [if_pos divides, if_pos ((dvd_below positive divides above).2.mpr odd)]
  · intro i below outside
    by_cases divides : 2 ^ level ∣ i + 1
    · rw [if_pos divides]
      by_cases even : 2 * 2 ^ level ∣ i + 1
      · rw [if_pos even]
      · have first : i + 1 = 2 ^ level := by
          have small : ¬ 2 ^ level < i + 1 := fun above => outside ⟨below, divides, even, above⟩
          have large := Nat.le_of_dvd (Nat.succ_pos i) divides
          omega
        rw [if_neg even, raised, gcd_two_pow divides (double ▸ even) le, first, Nat.sub_self]
    · have odd : ¬ 2 * 2 ^ level ∣ i + 1 := fun even => divides ((Nat.dvd_mul_left ..).trans even)
      rw [if_neg divides, if_neg odd]

/-- The longest spans of the sweep up begin at the lowest place. -/
theorem raised_eq_zero {levels i : Nat} (fits : i < 2 ^ levels) (divides : 2 ^ (levels - 1) ∣ i + 1) :
    raised levels i = 0 := by
  have whole : i + 1 ∣ 2 ^ levels := by
    cases levels with
    | zero => exact dvd_of_eq (by omega)
    | succ level =>
      obtain ⟨k, multiple⟩ := divides
      rw [Nat.add_sub_cancel] at multiple
      rw [Nat.pow_succ, multiple]
      have small : k ≤ 2 := by
        refine Nat.le_of_mul_le_mul_left ?_ (Nat.two_pow_pos level)
        rw [← multiple, ← Nat.pow_succ]
        omega
      refine Nat.mul_dvd_mul_left _ ?_
      interval_cases k <;> simp_all
  rw [raised, Nat.gcd_eq_left whole, Nat.sub_self]

/-- The sweeps lead to spans from the lowest place on. -/
theorem prefixes_multiplies (spans : Array (Span F)) : Multiplies (prefixes spans) (·.size = spans.size) fun spans' w =>
    ∀ {n : Nat} {x y : BitVec n} {c : Bool}, Cover w x y c id spans → Cover w x y c (fun _ => 0) spans' := by
  refine (sweep_multiplies _ _ _).bind fun spans₁ size => (sweep_multiplies _ _ _).mono ?_ ?_
  · intro spans' size'
    rw [size', size]
  · intro spans' w _ down up n x y c cover
    have fits : spans.size - 1 < 2 ^ bitLength (spans.size - 1) := lt_two_pow_iff_bitLength_le.mpr le_rfl
    generalize bitLength (spans.size - 1) = levels at fits down up
    have risen : Cover w x y c (raised levels) spans₁ := by
      have start : Cover w x y c (raised 0) spans := cover.congr fun i _ => by simp [raised]
      simpa using up raised (fun k _ => by simpa using raised_joinable spans.size k) start
    have start : Cover w x y c (settled levels (levels - 1)) spans₁ := by
      refine risen.congr fun i below => ?_
      rw [settled]
      split
      · rename_i divides
        exact (raised_eq_zero (by omega) divides).symm
      · rfl
    have fallen := down (fun k => settled levels (levels - 1 - k)) ?_ start
    · have lowest : settled levels 0 = fun _ => 0 := by
        funext i
        simp [settled]
      simpa [lowest] using fallen
    · intro k below
      rw [List.length_reverse, List.length_range] at below
      have level : levels - 1 - k = levels - 1 - 1 - k + 1 := by omega
      have next : levels - 1 - (k + 1) = levels - 1 - 1 - k := by omega
      simp only [List.getElem_reverse, List.getElem_range, List.length_range, level, next]
      exact settled_joinable spans₁.size (by omega)

end Span

/-! ### Sums -/

namespace PrefixAdder
variable {w : Wire → Scalar F} {x y : BitVec n} {c : Bool}

/-- An operation on the bits of two numbers, place by place. -/
theorem eval_places {op : Bool → Bool → Bool} {xs ys zs : List (LinearForm F)}
    (related : List.Forall₂ (fun p z => Bit.Binary op p.1 p.2 z w) (xs.zip ys) zs) (spellsX : Spells w xs x)
    (spellsY : Spells w ys y) (i : Nat) (below : i < zs.length) :
    zs[i].eval w = .ofBool (op (x.getLsbD i) (y.getLsbD i)) := by
  obtain ⟨length, each⟩ := List.forall₂_iff_get.mp related
  have inside : i < xs.length ∧ i < ys.length := by
    rw [List.length_zip] at length
    omega
  have bit := each i (by omega) below
  simp only [List.get_eq_getElem, List.getElem_zip] at bit
  exact bit (spellsX.eval_getElem inside.1) (spellsY.eval_getElem inside.2)

theorem propagateAll_multiplies (pairs : List (LinearForm F × LinearForm F)) :
    Multiplies (propagateAll pairs) (·.length = pairs.length) fun zs w =>
      List.Forall₂ (fun p z => Bit.Binary Bool.xor p.1 p.2 z w) pairs zs := by
  rw [propagateAll_eq]
  exact .mapM fun p _ => Bit.xor_multiplies p.1 p.2

theorem generateAll_multiplies (pairs : List (LinearForm F × LinearForm F)) :
    Multiplies (generateAll pairs) (·.length = pairs.length) fun zs w =>
      List.Forall₂ (fun p z => Bit.Binary Bool.and p.1 p.2 z w) pairs zs := by
  rw [generateAll_eq]
  refine .mapM fun p _ => (Builder.mul_multiplies p.1 p.2).mono (fun _ => id) fun z w _ product => ?_
  exact Bit.binary_and product

/-- The spans of single places. The lowest one takes the carry in. -/
theorem cover_places {p g absorbed carry : LinearForm F} {ps gs : List (LinearForm F)} (same : gs.length = ps.length)
    (propagate : ∀ i (_ : i < (p :: ps).length), (p :: ps)[i].eval w = .ofBool (x.getLsbD i ^^ y.getLsbD i))
    (generate : ∀ i (_ : i < (g :: gs).length), (g :: gs)[i].eval w = .ofBool (x.getLsbD i && y.getLsbD i))
    (absorbs : absorbed.eval w = p.eval w * carry.eval w) (enters : carry.eval w = .ofBool c) :
    Span.Cover w x y c id (⟨g + absorbed, p⟩ :: (gs.zip ps).map fun q => ⟨q.1, q.2⟩ : List (Span F)).toArray := by
  intro i below
  refine ⟨le_rfl, ?_⟩
  rw [id, Nat.add_sub_cancel_left]
  cases i with
  | zero =>
    have passes : p.eval w = _ := propagate 0 (Nat.zero_lt_succ _)
    have makes : g.eval w = _ := generate 0 (Nat.zero_lt_succ _)
    refine Span.covers_single ?_ passes
    show (g + absorbed).eval w = _
    rw [LinearForm.eval_add, absorbs, enters, passes, makes]
    cases x.getLsbD 0 <;> cases y.getLsbD 0 <;> simp
  | succ i =>
    have inside : i < ps.length := by simpa [same] using below
    have passes : ps[i].eval w = _ := propagate (i + 1) (Nat.succ_lt_succ inside)
    have makes : gs[i].eval w = _ := generate (i + 1) (Nat.succ_lt_succ (same ▸ inside))
    refine Span.covers_single ?_ ?_
    · simpa [inside, same] using makes
    · simpa [inside, same] using passes

theorem sumBits_multiplies (carry : LinearForm F) (places : List (LinearForm F × Span F)) :
    Multiplies (sumBits carry places) (·.1.length = places.length) fun r w =>
      ∀ {n : Nat} {x y : BitVec n} {c : Bool} {k : Nat}, carry.eval w = .ofBool (BitVec.carry k x y c) →
        (∀ j (_ : j < places.length), places[j].1.eval w = .ofBool (x.getLsbD (k + j) ^^ y.getLsbD (k + j)) ∧
          places[j].2.generate.eval w = .ofBool (BitVec.carry (k + j + 1) x y c)) →
        r.1.map (·.eval w) = (List.range' k places.length).map
          (fun j => .ofBool (x.getLsbD j ^^ (y.getLsbD j ^^ BitVec.carry j x y c))) ∧
        r.2.eval w = .ofBool (BitVec.carry (k + places.length) x y c) := by
  induction places generalizing carry with
  | nil => exact .pure rfl fun w _ n x y c k enters _ => ⟨rfl, enters⟩
  | cons place rest ih =>
    refine (Bit.xor_multiplies _ _).bind fun bit _ => (ih _).bind fun r length => ?_
    refine .pure (congrArg (· + 1) length) fun w _ later flips n x y c k enters each => ?_
    obtain ⟨propagate, generate⟩ := each 0 (Nat.zero_lt_succ _)
    obtain ⟨bits, last⟩ := later (k := k + 1) generate fun j below => by
      simpa [Nat.add_assoc, Nat.add_comm 1] using each (j + 1) (Nat.succ_lt_succ below)
    have first := flips propagate enters
    constructor
    · rw [List.map_cons, bits, first, List.length_cons, List.range'_succ, List.map_cons, Bool.xor_assoc, Nat.add_zero]
    · rw [last, List.length_cons, Nat.add_assoc, Nat.add_comm 1]

/-- Spans from the lowest place on give the carry out of each place. -/
theorem eval_zip_spans {ps : List (LinearForm F)} {spans : Array (Span F)}
    (passes : ∀ i (_ : i < ps.length), ps[i].eval w = .ofBool (x.getLsbD i ^^ y.getLsbD i))
    (cover : Span.Cover w x y c (fun _ => 0) spans) (i : Nat) (below : i < (ps.zip spans.toList).length) :
    (ps.zip spans.toList)[i].1.eval w = .ofBool (x.getLsbD i ^^ y.getLsbD i) ∧
    (ps.zip spans.toList)[i].2.generate.eval w = .ofBool (BitVec.carry (i + 1) x y c) := by
  have inside : i < spans.size := by
    simp only [List.length_zip, Array.length_toList] at below
    omega
  obtain ⟨-, covers⟩ := cover i inside
  have generate := covers.generate
  rw [carryThrough_zero] at generate
  rw [List.getElem_zip]
  refine ⟨passes i _, ?_⟩
  simpa [Array.getD, inside] using generate

/-- Each bit of a sum is what its place propagates, flipped by the carry into it. -/
theorem spells_sum {bits : List (LinearForm F)}
    (values : bits.map (·.eval w) = (List.range n).map
      fun j => .ofBool (x.getLsbD j ^^ (y.getLsbD j ^^ BitVec.carry j x y c))) :
    Spells w bits (x + y + (BitVec.ofBool c).setWidth n) := by
  rw [Spells, values, List.map_map]
  refine List.map_congr_left fun j member => ?_
  rw [Function.comp_apply, BitVec.getLsbD_add_add_bool (List.mem_range.mp member)]

/-- The adder computes the bits of the sum and the last carry. -/
theorem add_multiplies {xs ys : List (LinearForm F)} (same : xs.length = ys.length) (carry : LinearForm F) :
    Multiplies (add xs ys carry) (·.1.length = xs.length) fun r w => ∀ {x y : BitVec xs.length} {c : Bool},
      Spells w xs x → Spells w ys y → carry.eval w = .ofBool c →
        Spells w r.1 (x + y + (BitVec.ofBool c).setWidth xs.length) ∧
        r.2.eval w = .ofBool (BitVec.carry xs.length x y c) := by
  have zipped : (xs.zip ys).length = xs.length := by rw [List.length_zip, same, Nat.min_self]
  unfold add
  rw [if_neg (not_not_intro same)]
  refine (propagateAll_multiplies _).bind fun propagate lengthP => (generateAll_multiplies _).bind fun generate lengthG => ?_
  cases propagate with
  | nil =>
    have empty : xs = [] := List.eq_nil_of_length_eq_zero (zipped.symm.trans lengthP.symm)
    subst empty
    refine .pure rfl fun w _ _ _ x y c _ _ enters => ⟨rfl, ?_⟩
    exact enters.trans (congrArg _ BitVec.carry_zero.symm)
  | cons p ps =>
    cases generate with
    | nil => cases lengthG.trans lengthP.symm
    | cons g gs =>
      have sameLength : gs.length = ps.length := Nat.succ.inj (lengthG.trans lengthP.symm)
      refine (Builder.mul_multiplies p carry).bind fun absorbed _ => ?_
      refine (Span.prefixes_multiplies _).bind fun spans size => ?_
      have width : spans.size = xs.length := by
        rw [← zipped, ← lengthP]
        simpa [sameLength] using size
      have places : ((p :: ps).zip spans.toList).length = xs.length := by
        simp only [List.length_zip, lengthP, zipped, Array.length_toList, width, Nat.min_self]
      refine (sumBits_multiplies _ _).mono (fun r length => length.trans places) ?_
      intro r w _ adds joins absorbs generates propagates x y c spellsX spellsY enters
      have passes := eval_places propagates spellsX spellsY
      have cover := joins (cover_places sameLength passes (eval_places generates spellsX spellsY) absorbs enters)
      have lowest : carry.eval w = .ofBool (BitVec.carry 0 x y c) := by rw [enters, BitVec.carry_zero]
      obtain ⟨bits, last⟩ := adds lowest fun j below => by
        rw [Nat.zero_add]
        exact eval_zip_spans passes cover j below
      rw [places, ← List.range_eq_range'] at bits
      rw [places, Nat.zero_add] at last
      exact ⟨spells_sum bits, last⟩

theorem toNat_add_carry (x y : BitVec n) (c : Bool) :
    (x + y + (BitVec.ofBool c).setWidth n).toNat + 2 ^ n * (BitVec.carry n x y c).toNat = x.toNat + y.toNat + c.toNat := by
  have smallX := x.isLt
  have smallY := y.isLt
  have smallC := c.toNat_lt
  have total : (x + y + (BitVec.ofBool c).setWidth n).toNat = (x.toNat + y.toNat + c.toNat) % 2 ^ n := by
    rw [BitVec.toNat_add, BitVec.toNat_add, BitVec.toNat_setWidth, BitVec.toNat_ofBool, ← Nat.add_mod]
  rw [total, BitVec.carry_width]
  by_cases carries : x.toNat + y.toNat + c.toNat ≥ 2 ^ n
  · rw [decide_eq_true carries, Nat.mod_eq_sub_mod carries, Nat.mod_eq_of_lt (by omega), Bool.toNat_true]
    omega
  · rw [decide_eq_false carries, Nat.mod_eq_of_lt (by omega), Bool.toNat_false, Nat.mul_zero, Nat.add_zero]

/-- At every width and on all operands, the adder succeeds and records products only. Wherever these are kept
    and the operands are bits, so are its results, and they are the sum. -/
theorem add_exact (b : Builder F) (xs ys : List (LinearForm F)) (carry : LinearForm F) (same : xs.length = ys.length) :
    ∃ sum out pairs, add xs ys carry b = .ok (sum, out) (b.multiplied pairs) ∧ sum.length = xs.length ∧
      ∀ W w, w Wire.one = 1 → (∀ i ∈ Builder.products b.nextWire pairs, i.Holds W w) →
        (∀ e ∈ carry :: (xs ++ ys), e.eval w = 0 ∨ e.eval w = 1) →
          (∀ e ∈ out :: sum, e.eval w = 0 ∨ e.eval w = 1) ∧
          numeral w sum + 2 ^ xs.length * (out.eval w).val = numeral w xs + numeral w ys + (carry.eval w).val := by
  obtain ⟨⟨sum, out⟩, pairs, done, length, adds⟩ := add_multiplies same carry b
  refine ⟨sum, out, pairs, done, length, fun W w one kept boolean => ?_⟩
  obtain ⟨bitC, bits⟩ := List.forall_mem_cons.mp boolean
  obtain ⟨bitsX, bitsY⟩ := List.forall_mem_append.mp bits
  obtain ⟨c, enters⟩ := Scalar.eq_zero_or_one_iff.mp bitC
  obtain ⟨x, spellsX⟩ := exists_spells bitsX rfl
  obtain ⟨y, spellsY⟩ := exists_spells bitsY same.symm
  obtain ⟨spells, leaves⟩ := adds W w one kept spellsX spellsY enters
  refine ⟨List.forall_mem_cons.mpr ⟨Scalar.eq_zero_or_one_iff.mpr ⟨_, leaves⟩, spells.boolean⟩, ?_⟩
  rw [spells.numeral_eq, spellsX.numeral_eq, spellsY.numeral_eq, leaves, enters, Scalar.val_ofBool, Scalar.val_ofBool]
  exact toNat_add_carry x y c

/-- Five and three and a carry, with a constant among the bits. -/
theorem add_exact_three_places : ∃ (b : Builder .mersenne31) (xs ys sum : List (LinearForm .mersenne31))
    (out : LinearForm .mersenne31) (pairs : List (LinearForm .mersenne31 × LinearForm .mersenne31))
    (w : Wire → Scalar .mersenne31), xs.length = 3 ∧ xs.length = ys.length ∧
    add xs ys (.wire 6) b = .ok (sum, out) (b.multiplied pairs) ∧
    (∀ i ∈ Builder.products b.nextWire pairs, i.Holds (.free .any) w) ∧
    numeral w xs = 5 ∧ numeral w ys = 3 ∧ numeral w sum + 2 ^ 3 * (out.eval w).val = 9 := by
  let b : Builder .mersenne31 := .blank 6 0 ∅ .empty
  let xs : List (LinearForm .mersenne31) := [.wire 1, .wire 2, .wire 3]
  let ys : List (LinearForm .mersenne31) := [.wire 4, .constant 1, .wire 5]
  have wellFormed : b.WellFormed := Builder.wellFormed_blank SubCircuits.wellFormed_empty (Nat.zero_le _) _
  have readable {v : Wire} (below : v < 7) : (LinearForm.wire v : LinearForm .mersenne31).Readable b.nextWire := .wire below
  have readsX : Legible.At b.nextWire xs := by
    simp [xs, Legible.At, readable]
  have readsY : Legible.At b.nextWire ys := by
    simp [ys, Legible.At, readable, LinearForm.Readable.constant wellFormed.positive]
  obtain ⟨sum, out, pairs, done, -, adds⟩ := add_exact b xs ys (.wire 6) rfl
  have continues := ((add_keeps wellFormed readsX readsY (readable (by decide))).made done).1
  have taken := (add_behaves xs ys (.wire 6)).nextWire (Builder.truthful_blank _ _ _ _) (.inl ⟨_, done⟩)
  obtain ⟨w, agree, kept⟩ := wellFormed.exists_kept continues.wellFormed (taken.trans (by decide)) (.free .any)
    fun v => .ofBool (v ∈ [0, 1, 3, 4, 6])
  have value {v : Wire} (below : v < 7) : w v = .ofBool (v ∈ [0, 1, 3, 4, 6]) := (agree v below).symm
  have one : w Wire.one = 1 := value (by decide)
  have five : numeral w xs = 5 := by
    simp [xs, numeral, value, Nat.ofDigits]
  have three : numeral w ys = 3 := by
    simp [ys, numeral, value, LinearForm.eval_constant one, Nat.ofDigits]
  have bits : ∀ e ∈ .wire 6 :: (xs ++ ys), e.eval w = 0 ∨ e.eval w = 1 := by
    simp [xs, ys, value, LinearForm.eval_constant one]
  have total := (adds (.free .any) w one kept bits).2
  refine ⟨b, xs, ys, sum, out, pairs, w, rfl, rfl, done, kept, five, three, total.trans ?_⟩
  rw [five, three, LinearForm.eval_wire, value (by decide)]
  rfl

end PrefixAdder
end ArithCircuit
