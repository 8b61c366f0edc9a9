import ArithCircuit.Proofs.LinearForm.NormalForm

/-!
The algebra of canonical forms. Sums, differences, negatives and multiples of canonical forms are
canonical, and canonical forms of the same value are the same. Every law of the values is therefore a
law of the forms, and every operation gives the canonical form of the terms it puts together.
-/
namespace ArithCircuit
namespace LinearForm
variable {F : ScalarField} {a b c : LinearForm F}

namespace Canonical

theorem add (left : Canonical a.terms) (right : Canonical b.terms) : Canonical (a + b).terms :=
  canonical_merge one_ne_zero left right

theorem sub (left : Canonical a.terms) (right : Canonical b.terms) : Canonical (a - b).terms :=
  canonical_merge (neg_ne_zero.mpr one_ne_zero) left right

theorem neg (canonical : Canonical a.terms) : Canonical (-a).terms := canonical_scale canonical (-1)

end Canonical

/-! ### Operations and lists of terms -/

theorem add_eq_ofTerms (left : Canonical a.terms) (right : Canonical b.terms) :
    a + b = ofTerms (a.terms ++ b.terms) := by
  refine eq_of_eval (left.add right) (canonical_ofTerms _) fun assign _ => ?_
  rw [eval_add, eval_ofTerms, total_append, eval_eq_total, eval_eq_total]

theorem sub_eq_ofTerms (left : Canonical a.terms) (right : Canonical b.terms) :
    a - b = ofTerms (a.terms ++ b.terms.map (Term.scale (-1))) := by
  refine eq_of_eval (left.sub right) (canonical_ofTerms _) fun assign _ => ?_
  rw [eval_sub, eval_ofTerms, total_append, total_scale, eval_eq_total, eval_eq_total]
  ring

theorem scale_eq_ofTerms (canonical : Canonical a.terms) (k : Scalar F) :
    a.scale k = ofTerms (a.terms.map (Term.scale k)) := by
  refine eq_of_eval (canonical_scale canonical k) (canonical_ofTerms _) fun assign _ => ?_
  rw [eval_scale, eval_ofTerms, total_scale, eval_eq_total]

/-! ### Laws -/

theorem add_comm_of_canonical (left : Canonical a.terms) (right : Canonical b.terms) : a + b = b + a := by
  refine eq_of_eval (left.add right) (right.add left) fun assign _ => ?_
  rw [eval_add, eval_add, add_comm]

theorem add_assoc_of_canonical (first : Canonical a.terms) (second : Canonical b.terms) (third : Canonical c.terms) :
    a + b + c = a + (b + c) := by
  refine eq_of_eval ((first.add second).add third) (first.add (second.add third)) fun assign _ => ?_
  simp only [eval_add, add_assoc]

theorem add_zero_of_canonical (canonical : Canonical a.terms) : a + 0 = a := by
  refine eq_of_eval (canonical.add canonical_zero) canonical fun assign _ => ?_
  rw [eval_add]
  exact add_zero _

theorem sub_eq_add_neg_of_canonical (left : Canonical a.terms) (right : Canonical b.terms) : a - b = a + -b := by
  refine eq_of_eval (left.sub right) (left.add right.neg) fun assign _ => ?_
  rw [eval_sub, eval_add, eval_neg, sub_eq_add_neg]

theorem sub_self_of_canonical (canonical : Canonical a.terms) : a - a = 0 := by
  refine eq_of_eval (canonical.sub canonical) canonical_zero fun assign _ => ?_
  rw [eval_sub, sub_self]
  rfl

theorem scale_add (left : Canonical a.terms) (right : Canonical b.terms) (k : Scalar F) :
    (a + b).scale k = a.scale k + b.scale k := by
  have parts : Canonical (a.scale k + b.scale k).terms := (canonical_scale left k).add (canonical_scale right k)
  refine eq_of_eval (canonical_scale (left.add right) k) parts fun assign _ => ?_
  simp only [eval_scale, eval_add, mul_add]

theorem scale_scale (canonical : Canonical a.terms) (k l : Scalar F) : (a.scale k).scale l = a.scale (l * k) := by
  refine eq_of_eval (canonical_scale (canonical_scale canonical k) l) (canonical_scale canonical _) fun assign _ => ?_
  simp only [eval_scale, mul_assoc]

theorem add_scale (canonical : Canonical a.terms) (k l : Scalar F) : a.scale (k + l) = a.scale k + a.scale l := by
  have parts : Canonical (a.scale k + a.scale l).terms :=
    (canonical_scale canonical k).add (canonical_scale canonical l)
  refine eq_of_eval (canonical_scale canonical _) parts fun assign _ => ?_
  simp only [eval_scale, eval_add, add_mul]

theorem one_scale (canonical : Canonical a.terms) : a.scale 1 = a := by
  refine eq_of_eval (canonical_scale canonical 1) canonical fun assign _ => ?_
  rw [eval_scale, one_mul]

/-- Canonical forms are closed under the operations, which are linear in the values, give the canonical
    form of the terms they put together, and obey the laws of a vector space to the letter. -/
theorem canonical_algebra (first : Canonical a.terms) (second : Canonical b.terms) (third : Canonical c.terms)
    (k l : Scalar F) :
    (Canonical (a + b).terms ∧ Canonical (a - b).terms ∧ Canonical (-a).terms ∧ Canonical (a.scale k).terms) ∧
    (∀ values : List (Scalar F),
      (a + b).on values = a.on values + b.on values ∧ (a - b).on values = a.on values - b.on values ∧
      (-a).on values = -a.on values ∧ (a.scale k).on values = k * a.on values) ∧
    (a + b = ofTerms (a.terms ++ b.terms) ∧ a - b = ofTerms (a.terms ++ b.terms.map (Term.scale (-1))) ∧
      -a = ofTerms (a.terms.map (Term.scale (-1))) ∧ a.scale k = ofTerms (a.terms.map (Term.scale k))) ∧
    (a + b = b + a ∧ a + b + c = a + (b + c) ∧ a + 0 = a ∧ 0 + a = a) ∧
    (a - b = a + -b ∧ (a - a).terms = []) ∧
    ((a + b).scale k = a.scale k + b.scale k ∧ a.scale (k + l) = a.scale k + a.scale l ∧
      (a.scale k).scale l = a.scale (l * k) ∧ a.scale 1 = a) := by
  refine ⟨⟨first.add second, first.sub second, first.neg, canonical_scale first k⟩, fun values => ?_,
    ⟨add_eq_ofTerms first second, sub_eq_ofTerms first second, scale_eq_ofTerms first (-1), scale_eq_ofTerms first k⟩,
    ⟨add_comm_of_canonical first second, add_assoc_of_canonical first second third, add_zero_of_canonical first, ?_⟩,
    ⟨sub_eq_add_neg_of_canonical first second, ?_⟩,
    ⟨scale_add first second k, add_scale first k l, scale_scale first k l, one_scale first⟩⟩
  · exact ⟨eval_add .., eval_sub .., eval_neg .., eval_scale ..⟩
  · exact (add_comm_of_canonical canonical_zero first).trans (add_zero_of_canonical first)
  · rw [sub_self_of_canonical first]
    rfl

/-- A form that cancels one of the gathered terms. -/
def opposite : LinearForm .mersenne31 := ⟨[⟨-.ofNat 8, 4⟩, ⟨1, 7⟩]⟩

theorem canonical_algebra_opposite :
    (Canonical gathered.terms ∧ Canonical opposite.terms ∧ Canonical (wire 2 : LinearForm .mersenne31).terms) ∧
    gathered + opposite = ⟨[⟨.ofNat 2, 1⟩, ⟨1, 7⟩]⟩ ∧ (gathered - gathered).terms = [] ∧
    gathered + opposite + wire 2 = gathered + (opposite + wire 2) ∧
    (gathered + opposite).scale (.ofNat 3) = gathered.scale (.ofNat 3) + opposite.scale (.ofNat 3) ∧
    (gathered.scale (.ofNat 3)).scale (.ofNat 5) = gathered.scale (.ofNat 5 * .ofNat 3) := by
  have left : Canonical gathered.terms := (canonicalTerms_iff _).mp (by decide)
  have right : Canonical opposite.terms := (canonicalTerms_iff _).mp (by decide)
  have third : Canonical (wire 2 : LinearForm .mersenne31).terms := canonical_term 1 2
  obtain ⟨-, -, ⟨sum, -⟩, ⟨-, assoc, -⟩, ⟨-, none⟩, spread, -, twice, -⟩ :=
    canonical_algebra left right third (.ofNat 3) (.ofNat 5)
  exact ⟨⟨left, right, third⟩, sum.trans (by decide), none, assoc, spread, twice⟩

end LinearForm
end ArithCircuit
