import ArithCircuit.Proofs.Circuit.Satisfaction

/-!
Canonical forms are unique. The coefficient of a wire is what a list of terms is worth where this wire
is one and all others are zero. A canonical list holds exactly the terms that its coefficients give, in
the order of their wires, so lists of the same value have the same canonical form. Assignments that keep
the constant one at one tell canonical forms apart as well as all assignments do.
-/
namespace ArithCircuit
namespace LinearForm
variable {F : ScalarField}

/-- Terms may be added up in any order. -/
theorem total_perm {xs ys : List (Term F)} (perm : xs.Perm ys) (assign : Wire → Scalar F) :
    total assign xs = total assign ys :=
  (perm.map _).sum_eq

theorem total_add (assign other : Wire → Scalar F) (terms : List (Term F)) :
    total (assign + other) terms = total assign terms + total other terms := by
  induction terms with
  | nil => simp
  | cons t rest ih =>
    rw [total_cons, ih, total_cons, total_cons, Pi.add_apply]
    ring

/-! ### Coefficients -/

/-- The coefficient of a wire: the value where this wire is one and all others are zero. -/
def coefficient (terms : List (Term F)) (w : Wire) : Scalar F := total (Pi.single w 1) terms

theorem coefficient_cons (t : Term F) (terms : List (Term F)) (w : Wire) :
    coefficient (t :: terms) w = (if t.wire = w then t.coef else 0) + coefficient terms w := by
  rw [coefficient, total_cons, coefficient, Pi.single_apply, mul_ite, mul_one, mul_zero]

theorem coefficient_eq_zero {terms : List (Term F)} {w : Wire} (absent : ∀ t ∈ terms, t.wire ≠ w) :
    coefficient terms w = 0 := by
  induction terms with
  | nil => rfl
  | cons t rest ih =>
    obtain ⟨differs, later⟩ := List.forall_mem_cons.mp absent
    rw [coefficient_cons, if_neg differs, ih later, add_zero]

/-- A canonical list has a term exactly when the term gives its wire's coefficient and this is not zero. -/
theorem Canonical.mem_iff {terms : List (Term F)} (canonical : Canonical terms) {t : Term F} :
    t ∈ terms ↔ t.coef ≠ 0 ∧ coefficient terms t.wire = t.coef := by
  induction terms with
  | nil =>
    refine ⟨fun member => absurd member List.not_mem_nil, ?_⟩
    rintro ⟨nonzero, zero⟩
    exact absurd zero.symm nonzero
  | cons first rest ih =>
    obtain ⟨above, nonzero, canonical⟩ := canonical_cons.mp canonical
    rw [List.mem_cons, coefficient_cons]
    by_cases same : first.wire = t.wire
    · -- The wires after the first are larger, so only the first term can have this wire.
      have absent : coefficient rest t.wire = 0 :=
        coefficient_eq_zero fun s member => same ▸ (above s member).ne'
      have elsewhere : t ∉ rest := fun member => (above t member).ne same
      rw [if_pos same, absent, add_zero, or_iff_left elsewhere]
      constructor
      · rintro rfl
        exact ⟨nonzero, rfl⟩
      · rintro ⟨-, coef⟩
        calc t = ⟨first.coef, first.wire⟩ := by rw [same, coef]
          _ = first := rfl
    · have differs : t ≠ first := fun equal => same (by rw [equal])
      rw [if_neg same, zero_add, or_iff_right differs]
      exact ih canonical

/-- Canonical lists with the same coefficients are the same. -/
theorem Canonical.ext {xs ys : List (Term F)} (left : Canonical xs) (right : Canonical ys)
    (same : ∀ w, coefficient xs w = coefficient ys w) : xs = ys := by
  have nodup {terms : List (Term F)} (canonical : Canonical terms) : terms.Nodup := by
    refine canonical.1.imp ?_
    rintro a b below rfl
    exact below.false
  have listed (t : Term F) : t ∈ xs ↔ t ∈ ys := by
    rw [left.mem_iff, right.mem_iff, same]
  refine List.Perm.eq_of_pairwise ?_ left.1 right.1 ((List.perm_ext_iff_of_nodup (nodup left) (nodup right)).mpr listed)
  intro a b _ _ before after
  exact absurd (before.trans after) (lt_irrefl _)

/-! ### Telling forms apart -/

/-- Values under assignments that give the constant one its value determine all coefficients. -/
theorem coefficient_eq_of_total {xs ys : List (Term F)}
    (same : ∀ assign : Wire → Scalar F, assign Wire.one = 1 → total assign xs = total assign ys) (w : Wire) :
    coefficient xs w = coefficient ys w := by
  have constant : coefficient xs Wire.one = coefficient ys Wire.one := same _ (Pi.single_eq_same ..)
  by_cases one : w = Wire.one
  · rw [one, constant]
  · -- This wire alone would leave the constant one at zero, so both are one here.
    have both := same (Pi.single Wire.one 1 + Pi.single w 1) (by
      rw [Pi.add_apply, Pi.single_eq_same, Pi.single_eq_of_ne (Ne.symm one), add_zero])
    rw [total_add, total_add] at both
    exact add_left_cancel (both.trans (congrArg (· + _) constant.symm))

theorem eq_of_terms {a b : LinearForm F} (same : a.terms = b.terms) : a = b := by
  cases a
  cases b
  exact congrArg LinearForm.mk same

/-- Canonical forms of the same value are the same. -/
theorem eq_of_eval {a b : LinearForm F} (left : Canonical a.terms) (right : Canonical b.terms)
    (same : ∀ assign : Wire → Scalar F, assign Wire.one = 1 → a.eval assign = b.eval assign) : a = b := by
  refine eq_of_terms (left.ext right (coefficient_eq_of_total fun assign one => ?_))
  rw [← eval_eq_total, ← eval_eq_total, same assign one]

/-! ### Sorting and gathering -/

/-- Adds up neighbours that share a wire, starting with a term. -/
def coalesceFrom (t : Term F) : List (Term F) → List (Term F)
  | [] => [t]
  | u :: rest => if t.wire = u.wire then coalesceFrom ⟨t.coef + u.coef, t.wire⟩ rest else t :: coalesceFrom u rest

def coalesce : List (Term F) → List (Term F)
  | [] => []
  | t :: rest => coalesceFrom t rest

/-- Terms sorted by their wires, those of one wire added up, and zeros left out. -/
def gather (terms : List (Term F)) : List (Term F) :=
  (coalesce (terms.mergeSort fun t u => t.wire ≤ u.wire)).filter fun t => !t.coef.isZero

theorem total_coalesceFrom (assign : Wire → Scalar F) (t : Term F) (terms : List (Term F)) :
    total assign (coalesceFrom t terms) = total assign (t :: terms) := by
  induction terms generalizing t with
  | nil => rfl
  | cons u rest ih =>
    rw [coalesceFrom]
    by_cases same : t.wire = u.wire
    · rw [if_pos same, ih, total_cons, total_cons, total_cons, ← same]
      ring
    · rw [if_neg same, total_cons, ih, total_cons assign t]

theorem total_coalesce (assign : Wire → Scalar F) (terms : List (Term F)) :
    total assign (coalesce terms) = total assign terms := by
  cases terms with
  | nil => rfl
  | cons t rest => exact total_coalesceFrom assign t rest

theorem total_filter (assign : Wire → Scalar F) (terms : List (Term F)) :
    total assign (terms.filter fun t => !t.coef.isZero) = total assign terms := by
  induction terms with
  | nil => rfl
  | cons t rest ih =>
    by_cases zero : t.coef.isZero = true
    · rw [List.filter_cons_of_neg (by simp [zero]), ih, total_cons, (Scalar.isZero_iff _).mp zero, zero_mul, zero_add]
    · rw [List.filter_cons_of_pos (by simp [zero]), total_cons, ih, total_cons]

/-- Of sorted terms, each wire is left once, and none lies before the first. -/
theorem strict_coalesceFrom {t : Term F} {terms : List (Term F)}
    (sorted : (t :: terms).Pairwise fun t u => t.wire ≤ u.wire) :
    (coalesceFrom t terms).Pairwise (fun t u => t.wire < u.wire) ∧ ∀ u ∈ coalesceFrom t terms, t.wire ≤ u.wire := by
  induction terms generalizing t with
  | nil => exact ⟨List.pairwise_singleton .., List.forall_mem_singleton.mpr le_rfl⟩
  | cons u rest ih =>
    obtain ⟨first, later⟩ := List.pairwise_cons.mp sorted
    obtain ⟨next, others⟩ := List.forall_mem_cons.mp first
    rw [coalesceFrom]
    by_cases same : t.wire = u.wire
    · rw [if_pos same]
      exact ih (List.pairwise_cons.mpr ⟨others, (List.pairwise_cons.mp later).2⟩)
    · rw [if_neg same]
      obtain ⟨strict, above⟩ := ih later
      have before : t.wire < u.wire := lt_of_le_of_ne next same
      refine ⟨List.pairwise_cons.mpr ⟨fun v member => before.trans_le (above v member), strict⟩,
        List.forall_mem_cons.mpr ⟨le_rfl, fun v member => next.trans (above v member)⟩⟩

theorem canonical_gather (terms : List (Term F)) : Canonical (gather terms) := by
  have sorted : (terms.mergeSort fun t u => t.wire ≤ u.wire).Pairwise fun t u => t.wire ≤ u.wire := by
    refine (List.pairwise_mergeSort ?_ ?_ terms).imp of_decide_eq_true
    · intro t u v first second
      exact decide_eq_true (Nat.le_trans (of_decide_eq_true first) (of_decide_eq_true second))
    · intro t u
      simpa using Nat.le_total t.wire u.wire
  have strict : (coalesce (terms.mergeSort fun t u => t.wire ≤ u.wire)).Pairwise fun t u => t.wire < u.wire := by
    cases listed : terms.mergeSort fun t u => t.wire ≤ u.wire with
    | nil => exact .nil
    | cons t rest => exact (strict_coalesceFrom (listed ▸ sorted)).1
  refine ⟨strict.sublist List.filter_sublist, fun t member zero => ?_⟩
  have kept := (List.mem_filter.mp member).2
  simp [(Scalar.isZero_iff t.coef).mpr zero] at kept

/-- Inserting terms one by one gives the list that sorting and gathering them gives. -/
theorem ofTerms_eq_gather (terms : List (Term F)) : (ofTerms terms).terms = gather terms := by
  have same : ofTerms terms = ⟨gather terms⟩ := by
    refine eq_of_eval (canonical_ofTerms terms) (canonical_gather terms) fun assign _ => ?_
    rw [eval_ofTerms, eval_eq_total, gather, total_filter, total_coalesce, total_perm (List.mergeSort_perm ..)]
  rw [same]

/-! ### Normal forms -/

theorem exists_reads (e : LinearForm F) : ∃ n, e.Reads n :=
  ⟨(e.terms.map Term.wire).sum + 1, fun _ member =>
    Nat.lt_succ_of_le (List.le_sum_of_mem (List.mem_map_of_mem member))⟩

/-- Lists of values that are long enough for both forms stand for all assignments. -/
theorem eval_eq_of_on {a b : LinearForm F} (same : ∀ values : List (Scalar F), a.Reads values.length →
      b.Reads values.length → values[0]? = some 1 → a.on values = b.on values)
    {assign : Wire → Scalar F} (one : assign Wire.one = 1) : a.eval assign = b.eval assign := by
  obtain ⟨m, readsA⟩ := exists_reads a
  obtain ⟨n, readsB⟩ := exists_reads b
  have longA : a.Reads (m + n + 1) := reads_mono (by omega) readsA
  have longB : b.Reads (m + n + 1) := reads_mono (by omega) readsB
  have first : ((List.range (m + n + 1)).map assign)[0]? = some 1 := by
    rw [List.getElem?_map, List.getElem?_range (Nat.succ_pos _), Option.map_some, ← one]
    rfl
  have equal := same ((List.range (m + n + 1)).map assign) (by simpa using longA) (by simpa using longB) first
  rwa [on_map_range longA, on_map_range longB] at equal

/-- Every list of terms has one canonical form: it has the value of the list, a canonical list is its
    own, the order of terms makes no difference, and canonical forms that are worth the same on all
    values of the wires are the same. -/
theorem ofTerms_normalizes (terms : List (Term F)) :
    ((ofTerms terms).isCanonical = true ∧ Canonical (ofTerms terms).terms) ∧
    (∀ values : List (Scalar F), (ofTerms terms).on values = (terms.map fun t => t.coef * values.getD t.wire 0).sum) ∧
    (Canonical terms → (ofTerms terms).terms = terms) ∧
    (∀ others, others.Perm terms → ofTerms others = ofTerms terms) ∧
    ∀ a b : LinearForm F, Canonical a.terms → Canonical b.terms →
      (a = b ↔ ∀ values : List (Scalar F), a.Reads values.length → b.Reads values.length → values[0]? = some 1 →
        a.on values = b.on values) := by
  have canonical := canonical_ofTerms terms
  refine ⟨⟨(canonicalTerms_iff _).mpr canonical, canonical⟩, fun values => eval_ofTerms terms _, fun given => ?_,
    fun others perm => ?_, fun a b left right => ⟨?_, fun same => ?_⟩⟩
  · have unchanged : ofTerms terms = ⟨terms⟩ := by
      refine eq_of_eval canonical given fun assign _ => ?_
      rw [eval_ofTerms, eval_eq_total]
    rw [unchanged]
  · refine eq_of_eval (canonical_ofTerms others) canonical fun assign _ => ?_
    rw [eval_ofTerms, eval_ofTerms, total_perm perm]
  · rintro rfl values - - -
    rfl
  · exact eq_of_eval left right fun assign one => eval_eq_of_on same one

/-- Terms out of order, of which some share a wire, one is zero and two cancel. -/
def scattered : List (Term .mersenne31) :=
  [⟨.ofNat 3, 4⟩, ⟨.ofNat 2, 1⟩, ⟨.ofNat 5, 4⟩, ⟨0, 2⟩, ⟨1, 3⟩, ⟨-1, 3⟩]

/-- What is left of them. -/
def gathered : LinearForm .mersenne31 := ⟨[⟨.ofNat 2, 1⟩, ⟨.ofNat 8, 4⟩]⟩

theorem ofTerms_normalizes_scattered :
    (Canonical gathered.terms ∧ scattered.reverse.Perm scattered ∧ ofTerms scattered = gathered) ∧
    (ofTerms gathered.terms).terms = gathered.terms ∧ ofTerms scattered.reverse = ofTerms scattered ∧
    ∀ values : List (Scalar .mersenne31), (ofTerms scattered).Reads values.length → gathered.Reads values.length →
      values[0]? = some 1 → (ofTerms scattered).on values = gathered.on values := by
  have canonical : Canonical gathered.terms := (canonicalTerms_iff _).mp (by decide)
  have equal : ofTerms scattered = gathered := by decide
  obtain ⟨⟨-, settled⟩, -, -, shuffled, apart⟩ := ofTerms_normalizes scattered
  obtain ⟨-, -, same, -⟩ := ofTerms_normalizes gathered.terms
  exact ⟨⟨canonical, scattered.reverse_perm, equal⟩, same canonical, shuffled _ scattered.reverse_perm,
    (apart _ _ settled canonical).mp equal⟩

end LinearForm
end ArithCircuit
