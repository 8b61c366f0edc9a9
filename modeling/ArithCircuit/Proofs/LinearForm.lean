import ArithCircuit.LinearForm
import ArithCircuit.Proofs.Scalar.Ring

/-!
What linear forms are worth. The value of a form is the sum of its terms, so every operation on
forms is the same operation on values, whether or not the forms are canonical. A form that reads
only the first wires has the same value under assignments that agree there.
-/
namespace ArithCircuit
namespace LinearForm
variable {F : ScalarField}

/-- The sum of a list of terms. -/
def total (assign : Wire → Scalar F) (terms : List (Term F)) : Scalar F :=
  (terms.map fun t => t.coef * assign t.wire).sum

@[simp] theorem total_nil (assign : Wire → Scalar F) : total assign [] = 0 := rfl

@[simp] theorem total_cons (assign : Wire → Scalar F) (t : Term F) (terms : List (Term F)) :
    total assign (t :: terms) = t.coef * assign t.wire + total assign terms := by
  simp [total]

@[simp] theorem total_append (assign : Wire → Scalar F) (xs ys : List (Term F)) :
    total assign (xs ++ ys) = total assign xs + total assign ys := by
  simp [total]

theorem total_scale (assign : Wire → Scalar F) (c : Scalar F) (terms : List (Term F)) :
    total assign (terms.map (Term.scale c)) = c * total assign terms := by
  induction terms with
  | nil => simp
  | cons t rest ih =>
    rw [List.map_cons, total_cons, ih, total_cons, Term.scale]
    ring

/-- The value of a form, as a sum. -/
theorem eval_eq_total (e : LinearForm F) (assign : Wire → Scalar F) :
    e.eval assign = total assign e.terms := by
  have accumulated (terms : List (Term F)) (acc : Scalar F) :
      terms.foldl (fun acc t => acc + t.coef * assign t.wire) acc = acc + total assign terms := by
    induction terms generalizing acc with
    | nil => simp
    | cons t rest ih => rw [List.foldl_cons, ih, total_cons, add_assoc]
  rw [eval, accumulated, zero_add]

@[simp] theorem eval_zero (assign : Wire → Scalar F) : (zero : LinearForm F).eval assign = 0 := rfl

@[simp] theorem eval_term (coef : Scalar F) (w : Wire) (assign : Wire → Scalar F) :
    (term coef w).eval assign = coef * assign w := by
  by_cases none : coef.isZero
  · rw [term, if_pos none, (Scalar.isZero_iff coef).mp none, eval_zero, zero_mul]
  · rw [term, if_neg none, eval_eq_total, total_cons, total_nil, add_zero]

@[simp] theorem eval_wire (w : Wire) (assign : Wire → Scalar F) : (wire w).eval assign = assign w := by
  rw [wire, eval_term, one_mul]

theorem map_eval_wire (ws : List Wire) (assign : Wire → Scalar F) : (ws.map wire).map (·.eval assign) = ws.map assign := by
  rw [List.map_map]
  exact List.map_congr_left fun w _ => eval_wire w assign

theorem eval_constant {assign : Wire → Scalar F} (one : assign Wire.one = 1) (k : Scalar F) :
    (constant k).eval assign = k := by
  rw [constant, eval_term, one, mul_one]

/-- Merging adds values, whatever the order of the terms. -/
theorem total_merge (assign : Wire → Scalar F) (c : Scalar F) (xs ys : List (Term F)) :
    total assign (merge c xs ys) = total assign xs + c * total assign ys := by
  fun_induction merge c xs ys with
  | case1 ys => simp [total_scale]
  | case2 x xs => simp
  | case3 x xs y ys before ih =>
    rw [total_cons, ih, total_cons assign x]
    ring
  | case4 x xs y ys notBefore after ih =>
    rw [total_cons, ih, total_cons _ y, Term.scale]
    ring
  | case5 x xs y ys notBefore notAfter coef cancelled ih =>
    have same : x.wire = y.wire := le_antisymm (not_lt.mp notAfter) (not_lt.mp notBefore)
    have sum : x.coef + y.coef * c = 0 := (Scalar.isZero_iff _).mp cancelled
    rw [ih, total_cons, total_cons, same]
    linear_combination -(assign y.wire) * sum
  | case6 x xs y ys notBefore notAfter coef kept ih =>
    have same : x.wire = y.wire := le_antisymm (not_lt.mp notAfter) (not_lt.mp notBefore)
    simp only [total_cons, ih, same, coef]
    ring

@[simp] theorem eval_add (a b : LinearForm F) (assign : Wire → Scalar F) :
    (a + b).eval assign = a.eval assign + b.eval assign := by
  have merged : (a + b).eval assign = total assign (merge 1 a.terms b.terms) := eval_eq_total _ _
  rw [merged, total_merge, one_mul, eval_eq_total, eval_eq_total]

@[simp] theorem eval_sub (a b : LinearForm F) (assign : Wire → Scalar F) :
    (a - b).eval assign = a.eval assign - b.eval assign := by
  have merged : (a - b).eval assign = total assign (merge (-1) a.terms b.terms) := eval_eq_total _ _
  rw [merged, total_merge, eval_eq_total, eval_eq_total]
  ring

@[simp] theorem eval_scale (c : Scalar F) (e : LinearForm F) (assign : Wire → Scalar F) :
    (e.scale c).eval assign = c * e.eval assign := by
  by_cases none : c.isZero
  · rw [scale, if_pos none, (Scalar.isZero_iff c).mp none, eval_zero, zero_mul]
  · rw [scale, if_neg none, eval_eq_total, total_scale, eval_eq_total]

@[simp] theorem eval_neg (e : LinearForm F) (assign : Wire → Scalar F) :
    (-e).eval assign = -e.eval assign := by
  have scaled : (-e).eval assign = (e.scale (-1)).eval assign := rfl
  rw [scaled, eval_scale, neg_one_mul]

@[simp] theorem constant?_constant (k : Scalar F) : (constant k).constant? = some k := by
  rw [constant, term]
  split
  · rename_i zero
    rw [(Scalar.isZero_iff k).mp zero]
    rfl
  · rfl

theorem terms_wire (w : Wire) : (wire w : LinearForm F).terms = [⟨1, w⟩] := rfl

theorem constant?_wire {w : Wire} (other : w ≠ Wire.one) : (wire w : LinearForm F).constant? = none := by
  rw [constant?, terms_wire]
  exact if_neg other

theorem wire_injective : Function.Injective (wire : Wire → LinearForm F) := by
  intro v w same
  simpa [terms_wire] using congrArg LinearForm.terms same

/-- A form that is read as a constant has that value. -/
theorem eval_of_constant? {e : LinearForm F} {k : Scalar F} (constant : e.constant? = some k)
    {assign : Wire → Scalar F} (one : assign Wire.one = 1) : e.eval assign = k := by
  rw [constant?] at constant
  rw [eval_eq_total]
  split at constant
  · rename_i none
    rw [none, total_nil, Option.some.inj constant]
  · rename_i t single
    split at constant
    · rename_i onOne
      rw [single, total_cons, total_nil, onOne, one, ← Option.some.inj constant]
      ring
    · cases constant
  · cases constant

/-! ### Canonical forms -/

/-- Wires strictly increase and no coefficient is zero. -/
def Canonical (terms : List (Term F)) : Prop :=
  terms.Pairwise (fun a b => a.wire < b.wire) ∧ ∀ t ∈ terms, t.coef ≠ 0

theorem canonicalTerms_iff (terms : List (Term F)) : canonicalTerms terms = true ↔ Canonical terms := by
  fun_induction canonicalTerms terms with
  | case1 => simp [Canonical]
  | case2 t => simp [Canonical, ← Bool.not_eq_true]
  | case3 t u rest ih =>
    rw [Bool.and_eq_true, Bool.and_eq_true, ih]
    constructor
    · rintro ⟨⟨nonzero, below⟩, sorted, others⟩
      have first : t.wire < u.wire := of_decide_eq_true below
      refine ⟨List.pairwise_cons.mpr ⟨?_, sorted⟩, ?_⟩
      · intro s member
        rcases List.mem_cons.mp member with rfl | later
        · exact first
        · exact first.trans ((List.pairwise_cons.mp sorted).1 s later)
      · intro s member
        rcases List.mem_cons.mp member with rfl | later
        · simpa [← Bool.not_eq_true] using nonzero
        · exact others s later
    · rintro ⟨sorted, nonzero⟩
      obtain ⟨below, sorted⟩ := List.pairwise_cons.mp sorted
      refine ⟨⟨?_, decide_eq_true (below u (List.mem_cons_self ..))⟩, sorted, ?_⟩
      · simpa [← Bool.not_eq_true] using nonzero t (List.mem_cons_self ..)
      · exact fun s member => nonzero s (List.mem_cons_of_mem _ member)

theorem total_insertTerm (assign : Wire → Scalar F) (t : Term F) (terms : List (Term F)) :
    total assign (insertTerm t terms) = t.coef * assign t.wire + total assign terms := by
  fun_induction insertTerm t terms with
  | case1 none => rw [(Scalar.isZero_iff _).mp none, total_nil, zero_mul, zero_add]
  | case2 some => simp
  | case3 first rest before none => rw [(Scalar.isZero_iff _).mp none, zero_mul, zero_add]
  | case4 first rest before some => rw [total_cons]
  | case5 first rest notBefore after ih =>
    rw [total_cons, ih, total_cons]
    ring
  | case6 first rest notBefore notAfter coef cancelled =>
    have same : t.wire = first.wire := le_antisymm (not_lt.mp notAfter) (not_lt.mp notBefore)
    have sum : t.coef + first.coef = 0 := (Scalar.isZero_iff _).mp cancelled
    rw [total_cons, same]
    linear_combination -(assign first.wire) * sum
  | case7 first rest notBefore notAfter coef kept =>
    have same : t.wire = first.wire := le_antisymm (not_lt.mp notAfter) (not_lt.mp notBefore)
    simp only [total_cons, same, coef]
    ring

/-- The canonical form of a list of terms has the value of the list. -/
theorem eval_ofTerms (terms : List (Term F)) (assign : Wire → Scalar F) :
    (ofTerms terms).eval assign = total assign terms := by
  rw [eval_eq_total, ofTerms]
  induction terms with
  | nil => rfl
  | cons t rest ih => rw [List.foldr_cons, total_insertTerm, ih, total_cons]

theorem wire_mem_of_mem_insertTerm {t s : Term F} {terms : List (Term F)} (member : s ∈ insertTerm t terms) :
    s.wire = t.wire ∨ ∃ u ∈ terms, u.wire = s.wire := by
  fun_induction insertTerm t terms with
  | case1 none => simp at member
  | case2 some => exact .inl (by rw [List.mem_singleton.mp member])
  | case3 first rest before none => exact .inr ⟨s, member, rfl⟩
  | case4 first rest before some =>
    rcases List.mem_cons.mp member with rfl | later
    · exact .inl rfl
    · exact .inr ⟨s, later, rfl⟩
  | case5 first rest notBefore after ih =>
    rcases List.mem_cons.mp member with rfl | later
    · exact .inr ⟨s, List.mem_cons_self .., rfl⟩
    · rcases ih later with same | ⟨u, inside, same⟩
      · exact .inl same
      · exact .inr ⟨u, List.mem_cons_of_mem _ inside, same⟩
  | case6 first rest notBefore notAfter coef cancelled =>
    exact .inr ⟨s, List.mem_cons_of_mem _ member, rfl⟩
  | case7 first rest notBefore notAfter coef kept =>
    rcases List.mem_cons.mp member with rfl | later
    · exact .inl rfl
    · exact .inr ⟨s, List.mem_cons_of_mem _ later, rfl⟩

theorem canonical_insertTerm {t : Term F} {terms : List (Term F)} (canonical : Canonical terms) :
    Canonical (insertTerm t terms) := by
  obtain ⟨sorted, nonzero⟩ := canonical
  fun_induction insertTerm t terms with
  | case1 none => exact ⟨.nil, nonzero⟩
  | case2 some => exact ⟨List.pairwise_singleton _ _, by simpa using some⟩
  | case3 first rest before none => exact ⟨sorted, nonzero⟩
  | case4 first rest before some =>
    refine ⟨List.pairwise_cons.mpr ⟨?_, sorted⟩, ?_⟩
    · intro s member
      rcases List.mem_cons.mp member with rfl | later
      · exact before
      · exact before.trans ((List.pairwise_cons.mp sorted).1 s later)
    · intro s member
      rcases List.mem_cons.mp member with rfl | later
      · simpa using some
      · exact nonzero s later
  | case5 first rest notBefore after ih =>
    obtain ⟨below, sorted⟩ := List.pairwise_cons.mp sorted
    obtain ⟨sorted, others⟩ := ih sorted fun s member => nonzero s (List.mem_cons_of_mem _ member)
    refine ⟨List.pairwise_cons.mpr ⟨?_, sorted⟩, ?_⟩
    · intro s member
      rcases wire_mem_of_mem_insertTerm member with same | ⟨u, inside, same⟩
      · rwa [same]
      · rw [← same]
        exact below u inside
    · intro s member
      rcases List.mem_cons.mp member with rfl | later
      · exact nonzero s (List.mem_cons_self ..)
      · exact others s later
  | case6 first rest notBefore notAfter coef cancelled =>
    exact ⟨(List.pairwise_cons.mp sorted).2, fun s member => nonzero s (List.mem_cons_of_mem _ member)⟩
  | case7 first rest notBefore notAfter coef kept =>
    have same : t.wire = first.wire := le_antisymm (not_lt.mp notAfter) (not_lt.mp notBefore)
    obtain ⟨below, sorted⟩ := List.pairwise_cons.mp sorted
    refine ⟨List.pairwise_cons.mpr ⟨?_, sorted⟩, ?_⟩
    · intro s member
      simpa only [same] using below s member
    · intro s member
      rcases List.mem_cons.mp member with rfl | later
      · simpa [coef] using kept
      · exact nonzero s (List.mem_cons_of_mem _ later)

theorem canonical_ofTerms (terms : List (Term F)) : Canonical (ofTerms terms).terms := by
  rw [ofTerms]
  induction terms with
  | nil => exact ⟨.nil, by simp⟩
  | cons t rest ih => exact canonical_insertTerm ih

theorem wire_mem_of_mem_ofTerms {s : Term F} {terms : List (Term F)} (member : s ∈ (ofTerms terms).terms) :
    ∃ t ∈ terms, t.wire = s.wire := by
  rw [ofTerms] at member
  induction terms generalizing s with
  | nil => simp at member
  | cons t rest ih =>
    rcases wire_mem_of_mem_insertTerm member with same | ⟨u, inside, same⟩
    · exact ⟨t, List.mem_cons_self .., same.symm⟩
    · obtain ⟨v, further, equal⟩ := ih inside
      exact ⟨v, List.mem_cons_of_mem _ further, equal.trans same⟩

/-! ### Wires read -/

/-- A form reads only the first `n` wires. -/
def Reads (n : Nat) (e : LinearForm F) : Prop := ∀ t ∈ e.terms, t.wire < n

/-- Two assignments give the first `n` wires the same values. -/
def Agree (n : Nat) (assign other : Wire → Scalar F) : Prop := ∀ w < n, assign w = other w

theorem eval_congr {n : Nat} {e : LinearForm F} (reads : e.Reads n) {assign other : Wire → Scalar F}
    (agree : Agree n assign other) : e.eval assign = e.eval other := by
  have same : (e.terms.map fun t => t.coef * assign t.wire) = e.terms.map fun t => t.coef * other t.wire := by
    apply List.map_congr_left
    intro t member
    rw [agree t.wire (reads t member)]
  rw [eval_eq_total, eval_eq_total, total, same, total]

/-- The largest wire of a canonical form bounds all others, so one comparison covers the form. -/
theorem reads_of_undefined? {n : Nat} {e : LinearForm F} (canonical : e.isCanonical = true)
    (defined : e.undefined? n = none) : e.Reads n := by
  have sorted := ((canonicalTerms_iff e.terms).mp canonical).1
  intro t member
  obtain ⟨last, isLast⟩ : ∃ last, e.terms.getLast? = some last :=
    ⟨_, List.getLast?_eq_some_getLast (List.ne_nil_of_mem member)⟩
  have bound : last.wire < n := by
    simpa [undefined?, maxWire?, isLast] using defined
  obtain ⟨rest, split⟩ := List.getLast?_eq_some_iff.mp isLast
  rw [split] at member sorted
  rcases List.mem_append.mp member with early | atEnd
  · exact ((List.pairwise_append.mp sorted).2.2 t early last (List.mem_singleton_self _)).trans bound
  · rwa [List.mem_singleton.mp atEnd]

theorem reads_mono {m n : Nat} (le : m ≤ n) {e : LinearForm F} (reads : e.Reads m) : e.Reads n :=
  fun t member => (reads t member).trans_le le

theorem reads_zero (n : Nat) : (zero : LinearForm F).Reads n := fun _ member => by cases member

theorem reads_term {n : Nat} {w : Wire} (below : w < n) (coef : Scalar F) : (term coef w).Reads n := by
  intro t member
  rw [term] at member
  split at member
  · cases member
  · rwa [List.mem_singleton.mp member]

theorem reads_wire {n : Nat} {w : Wire} (below : w < n) : (wire w : LinearForm F).Reads n :=
  reads_term below 1

theorem lt_of_reads_wire {n : Nat} {w : Wire} (reads : (wire w : LinearForm F).Reads n) : w < n :=
  reads ⟨1, w⟩ (List.mem_singleton_self _)

theorem reads_constant {n : Nat} (positive : 0 < n) (k : Scalar F) : (constant k).Reads n :=
  reads_term positive k

/-- The wires of a joined list are wires of the two lists. -/
theorem forall_wire_merge {P : Wire → Prop} {c : Scalar F} {xs ys : List (Term F)} (left : ∀ t ∈ xs, P t.wire)
    (right : ∀ t ∈ ys, P t.wire) : ∀ t ∈ merge c xs ys, P t.wire := by
  fun_induction merge c xs ys with
  | case1 ys => simpa [Term.scale] using right
  | case2 x xs => exact left
  | case3 x xs y ys before ih =>
    obtain ⟨first, left⟩ := List.forall_mem_cons.mp left
    exact List.forall_mem_cons.mpr ⟨first, ih left right⟩
  | case4 x xs y ys notBefore after ih =>
    obtain ⟨first, right⟩ := List.forall_mem_cons.mp right
    exact List.forall_mem_cons.mpr ⟨first, ih left right⟩
  | case5 x xs y ys notBefore notAfter coef cancelled ih =>
    exact ih (List.forall_mem_cons.mp left).2 (List.forall_mem_cons.mp right).2
  | case6 x xs y ys notBefore notAfter coef kept ih =>
    obtain ⟨first, left⟩ := List.forall_mem_cons.mp left
    exact List.forall_mem_cons.mpr ⟨first, ih left (List.forall_mem_cons.mp right).2⟩

theorem Reads.add {n : Nat} {a b : LinearForm F} (left : a.Reads n) (right : b.Reads n) : (a + b).Reads n :=
  forall_wire_merge (P := (· < n)) left right

theorem Reads.sub {n : Nat} {a b : LinearForm F} (left : a.Reads n) (right : b.Reads n) : (a - b).Reads n :=
  forall_wire_merge (P := (· < n)) left right

theorem Reads.scale {n : Nat} {e : LinearForm F} (reads : e.Reads n) (c : Scalar F) : (e.scale c).Reads n := by
  rw [LinearForm.scale]
  split
  · exact reads_zero n
  · simpa [Reads, Term.scale] using reads

theorem Reads.neg {n : Nat} {e : LinearForm F} (reads : e.Reads n) : (-e).Reads n := reads.scale (-1)

/-! ### Operations on canonical forms -/

theorem canonical_zero : Canonical (zero : LinearForm F).terms := ⟨.nil, List.forall_mem_nil _⟩

theorem canonical_term (coef : Scalar F) (w : Wire) : Canonical (term coef w).terms := by
  rw [term]
  split
  · exact canonical_zero
  · rename_i nonzero
    exact ⟨List.pairwise_singleton _ _, by simpa using nonzero⟩

theorem canonical_map_scale {c : Scalar F} (nonzero : c ≠ 0) {terms : List (Term F)} (canonical : Canonical terms) :
    Canonical (terms.map (Term.scale c)) := by
  obtain ⟨sorted, coefs⟩ := canonical
  refine ⟨List.pairwise_map.mpr sorted, ?_⟩
  intro t member
  obtain ⟨s, inside, rfl⟩ := List.mem_map.mp member
  exact mul_ne_zero (coefs s inside) nonzero

theorem canonical_cons {t : Term F} {terms : List (Term F)} :
    Canonical (t :: terms) ↔ (∀ s ∈ terms, t.wire < s.wire) ∧ t.coef ≠ 0 ∧ Canonical terms := by
  rw [Canonical, Canonical, List.pairwise_cons, List.forall_mem_cons]
  tauto

/-- Joining keeps lists canonical: every wire comes once, in order, and what cancels is dropped. -/
theorem canonical_merge {c : Scalar F} (nonzero : c ≠ 0) {xs ys : List (Term F)} (left : Canonical xs)
    (right : Canonical ys) : Canonical (merge c xs ys) := by
  fun_induction merge c xs ys with
  | case1 ys => exact canonical_map_scale nonzero right
  | case2 x xs => exact left
  | case3 x xs y ys before ih =>
    obtain ⟨aboveX, coefX, left⟩ := canonical_cons.mp left
    obtain ⟨aboveY, -, -⟩ := canonical_cons.mp right
    have above : ∀ t ∈ y :: ys, x.wire < t.wire :=
      List.forall_mem_cons.mpr ⟨before, fun t member => before.trans (aboveY t member)⟩
    exact canonical_cons.mpr ⟨forall_wire_merge aboveX above, coefX, ih left right⟩
  | case4 x xs y ys notBefore after ih =>
    obtain ⟨aboveX, -, -⟩ := canonical_cons.mp left
    obtain ⟨aboveY, coefY, right⟩ := canonical_cons.mp right
    have above : ∀ t ∈ x :: xs, y.wire < t.wire :=
      List.forall_mem_cons.mpr ⟨after, fun t member => after.trans (aboveX t member)⟩
    exact canonical_cons.mpr ⟨forall_wire_merge above aboveY, mul_ne_zero coefY nonzero, ih left right⟩
  | case5 x xs y ys notBefore notAfter coef cancelled ih =>
    exact ih (canonical_cons.mp left).2.2 (canonical_cons.mp right).2.2
  | case6 x xs y ys notBefore notAfter coef kept ih =>
    obtain ⟨aboveX, -, left⟩ := canonical_cons.mp left
    obtain ⟨aboveY, -, right⟩ := canonical_cons.mp right
    have same : x.wire = y.wire := le_antisymm (not_lt.mp notAfter) (not_lt.mp notBefore)
    refine canonical_cons.mpr ⟨forall_wire_merge aboveX (same ▸ aboveY), ?_, ih left right⟩
    simpa [coef] using kept

theorem canonical_scale {e : LinearForm F} (canonical : Canonical e.terms) (c : Scalar F) : Canonical (e.scale c).terms := by
  rw [scale]
  split
  · exact canonical_zero
  · rename_i nonzero
    exact canonical_map_scale (by simpa using nonzero) canonical

/-! ### Order -/

instance : Std.TransCmp (Term.compare (F := F)) :=
  inferInstanceAs (Std.TransCmp (compareLex (compareOn Term.wire) (compareOn fun t => t.coef.val)))

instance : Std.LawfulEqCmp (Term.compare (F := F)) where
  eq_of_compare {a b} same := by
    obtain ⟨wires, coefs⟩ := Ordering.then_eq_eq.mp same
    cases a
    cases b
    exact Term.mk.injEq .. ▸ ⟨Scalar.ext (Std.LawfulEqCmp.eq_of_compare coefs), Std.LawfulEqCmp.eq_of_compare wires⟩

/-- Forms are ordered, and forms of the same rank are the same. -/
instance : Std.TransCmp (compare (F := F)) :=
  have terms : Std.TransCmp (List.compareLex (Term.compare (F := F))) := inferInstance
  { eq_swap := terms.eq_swap, isLE_trans := terms.isLE_trans }

instance : Std.LawfulEqCmp (compare (F := F)) where
  eq_of_compare {a b} same := by
    have lawful : Std.LawfulEqCmp (List.compareLex (Term.compare (F := F))) := inferInstance
    have terms : a.terms = b.terms := lawful.eq_of_compare same
    cases a
    cases b
    exact congrArg LinearForm.mk terms

end LinearForm
end ArithCircuit
