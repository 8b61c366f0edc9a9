import ArithCircuit.Layered.Fold
import ArithCircuit.Proofs.Execution.Trace
import ArithCircuit.Proofs.Layered.Arena

/-!
Folding keeps the value of a form. The queue of summands always adds up to the form, since joining
two summands replaces them by one that is worth their sum.
-/
namespace ArithCircuit
variable {F : ScalarField}

namespace Summand

/-- What a list of summands adds up to. -/
def total (value : Nat → Scalar F) (queue : List (Summand F)) : Scalar F :=
  (queue.map fun s => s.coef * value s.gate).sum

@[simp] theorem total_cons (value : Nat → Scalar F) (s : Summand F) (queue : List (Summand F)) :
    total value (s :: queue) = s.coef * value s.gate + total value queue := by
  rw [total, List.map_cons, List.sum_cons, total]

theorem total_perm {value : Nat → Scalar F} {queue other : List (Summand F)} (same : queue.Perm other) :
    total value queue = total value other :=
  (same.map _).sum_eq

theorem total_congr {value other : Nat → Scalar F} {queue : List (Summand F)}
    (same : ∀ s ∈ queue, value s.gate = other s.gate) : total value queue = total other queue :=
  congrArg List.sum (List.map_congr_left fun s member => by rw [same s member])

theorem enqueue_perm (s : Summand F) (queue : List (Summand F)) : (enqueue s queue).Perm (s :: queue) := by
  induction queue with
  | nil => exact .refl _
  | cons first rest ih =>
    rw [enqueue]
    split
    · exact .refl _
    · exact (ih.cons first).trans (.swap ..)

theorem enqueueFirst_perm (s : Summand F) (queue : List (Summand F)) : (enqueueFirst s queue).Perm (s :: queue) := by
  induction queue with
  | nil => exact .refl _
  | cons first rest ih =>
    rw [enqueueFirst]
    split
    · exact (ih.cons first).trans (.swap ..)
    · exact .refl _

theorem queue_perm (arena : Arena F) (form : LinearForm F) :
    (queue arena form).Perm (form.terms.map fun t => ⟨arena.depth t.wire, t.wire, t.coef⟩) := by
  rw [queue]
  induction form.terms with
  | nil => exact .refl _
  | cons t rest ih => exact (enqueueFirst_perm _ _).trans (ih.cons _)

/-- The summands of a form add up to its value. -/
theorem total_queue (arena : Arena F) (form : LinearForm F) (value : Nat → Scalar F) :
    total value (queue arena form) = form.eval value := by
  rw [total_perm (queue_perm arena form), LinearForm.eval_eq_total, total, List.map_map]
  rfl

theorem queue_ne_nil (arena : Arena F) {form : LinearForm F} (nonempty : ¬ form.isEmpty = true) :
    queue arena form ≠ [] := by
  intro none
  have perm := queue_perm arena form
  rw [none, List.nil_perm, List.map_eq_nil_iff] at perm
  exact nonempty (List.isEmpty_iff.mpr perm)

/-- The summands of collected terms are gates of these terms, with coefficients other than zero. -/
theorem queue_ofTerms (arena : Arena F) {terms : List (Term F)} {n : Nat} (inside : ∀ t ∈ terms, t.wire < n) :
    ∀ s ∈ queue arena (LinearForm.ofTerms terms), s.gate < n ∧ s.coef ≠ 0 := by
  intro s member
  obtain ⟨t, found, rfl⟩ := List.mem_map.mp ((queue_perm arena _).mem_iff.mp member)
  obtain ⟨u, listed, same⟩ := LinearForm.wire_mem_of_mem_ofTerms found
  exact ⟨same ▸ inside u listed, (LinearForm.canonical_ofTerms terms).2 t found⟩

/-- Joining summands gives what they add up to. -/
theorem join_yields (inputs : Array (Scalar F)) (site : Site) (form : LinearForm F) {queue : List (Summand F)}
    {arena : Arena F} (wellFormed : arena.WellFormed) (nonempty : queue ≠ [])
    (summands : ∀ s ∈ queue, s.gate < arena.nodes.size ∧ s.coef ≠ 0) :
    ∃ result, join site form queue arena = .ok result ∧
      Arena.Yields inputs arena result (total (arena.value inputs) queue) := by
  fun_induction join site form queue arena with
  | case1 arena => exact absurd rfl nonempty
  | case2 arena s =>
    obtain ⟨inside, nonzero⟩ := summands s (List.mem_singleton_self s)
    exact ⟨_, rfl, .refl wellFormed, inside, nonzero, by simp [total]⟩
  | case3 arena s t rest none =>
    obtain ⟨-, nonzero⟩ := summands s (List.mem_cons_self ..)
    rw [Scalar.inv?_of_ne_zero nonzero] at none
    cases none
  | case4 arena s t rest inverse found gate next pushed ih =>
    obtain ⟨⟨insideS, nonzeroS⟩, ⟨insideT, nonzeroT⟩, others⟩ :
        (s.gate < arena.nodes.size ∧ s.coef ≠ 0) ∧ (t.gate < arena.nodes.size ∧ t.coef ≠ 0) ∧
          ∀ u ∈ rest, u.gate < arena.nodes.size ∧ u.coef ≠ 0 := by simpa using summands
    have inverts : inverse = s.coef⁻¹ := by
      rw [Scalar.inv?_of_ne_zero nonzeroS] at found
      exact (Option.some.inj found).symm
    have admitted : arena.Admits (.add s.gate t.gate (t.coef * inverse)) := by
      rintro a b ⟨⟩
      exact ⟨insideS, insideT⟩
    obtain ⟨rfl, rfl⟩ : arena.nodes.size = gate ∧ (arena.push (.add s.gate t.gate (t.coef * inverse))).2 = next :=
      Prod.ext_iff.mp pushed
    have advances := Arena.push_advances inputs wellFormed admitted rfl
    have value : (arena.push (.add s.gate t.gate (t.coef * inverse))).2.value inputs arena.nodes.size =
        arena.value inputs s.gate + t.coef * s.coef⁻¹ * arena.value inputs t.gate := by
      rw [Arena.push_value, inverts]
      rfl
    obtain ⟨result, joined, later, means⟩ := ih advances.wellFormed (List.ne_nil_of_length_pos (by simp [length_enqueue]))
      (by
        intro u member
        rcases List.mem_cons.mp ((enqueue_perm _ _).mem_iff.mp member) with rfl | old
        · exact ⟨(Arena.size_push _ arena).symm ▸ arena.nodes.size.lt_succ_self, nonzeroS⟩
        · exact ⟨advances.inside (others u old).1, (others u old).2⟩)
    refine ⟨result, joined, advances.after later, ?_⟩
    -- The new summand is worth the two that it replaces.
    have joint : s.coef * (arena.value inputs s.gate + t.coef * s.coef⁻¹ * arena.value inputs t.gate) =
        s.coef * arena.value inputs s.gate + t.coef * arena.value inputs t.gate := by
      field_simp
    rw [total_perm (enqueue_perm _ _), total_cons, value, joint,
      total_congr fun u member => advances.value (others u member).1] at means
    rwa [total_cons, total_cons, ← add_assoc]

end Summand

namespace GateSum

private theorem means_getD {inputs : Array (Scalar F)} {arena : Arena F} {values : Array (WireValue F)}
    {xs : List (Scalar F)} (mean : List.Forall₂ (WireValue.Means inputs arena) values.toList xs) (w : Wire) :
    (values.getD w (.constant 0)).Means inputs arena (xs.getD w 0) := by
  rw [Array.getD_eq_getD_getElem?, List.getD_eq_getElem?_getD, ← Array.getElem?_toList]
  generalize values.toList = listed at mean ⊢
  induction mean generalizing w with
  | nil => exact rfl
  | cons first _ ih =>
    cases w with
    | zero => exact first
    | succ w => exact ih w

/-- Substituting wire values into a form keeps its value. -/
theorem ofForm_value {inputs : Array (Scalar F)} {arena : Arena F} {values : Array (WireValue F)}
    {xs : List (Scalar F)} (mean : List.Forall₂ (WireValue.Means inputs arena) values.toList xs) (form : LinearForm F) :
    (ofForm form values).constant + LinearForm.total (arena.value inputs) (ofForm form values).terms = form.on xs ∧
      ∀ t ∈ (ofForm form values).terms, t.wire < arena.nodes.size := by
  rw [LinearForm.on, LinearForm.eval_eq_total, ofForm]
  induction form.terms with
  | nil => exact ⟨add_zero 0, List.forall_mem_nil _⟩
  | cons t rest ih =>
    obtain ⟨same, inside⟩ := ih
    have here := means_getD mean t.wire
    rw [List.foldr_cons, LinearForm.total_cons, ← same]
    split
    · rename_i k found
      rw [found] at here
      obtain rfl : xs.getD t.wire 0 = k := here
      exact ⟨add_assoc _ _ _, inside⟩
    · rename_i gate coef found
      rw [found] at here
      obtain ⟨there, -, value⟩ := here
      refine ⟨?_, List.forall_mem_cons.mpr ⟨there, inside⟩⟩
      rw [LinearForm.total_cons, value]
      ring

end GateSum

namespace Arena

/-- The terms of a form that is not empty can be joined. -/
private theorem join_ofTerms (inputs : Array (Scalar F)) (site : Site) (form : LinearForm F) {terms : List (Term F)}
    {arena : Arena F} (wellFormed : arena.WellFormed) (inside : ∀ t ∈ terms, t.wire < arena.nodes.size) :
    ∃ result, (if (LinearForm.ofTerms terms).isEmpty then .ok (.constant 0, arena)
        else Summand.join site form (Summand.queue arena (LinearForm.ofTerms terms)) arena) = .ok result ∧
      Yields inputs arena result (LinearForm.total (arena.value inputs) terms) := by
  rw [← LinearForm.eval_ofTerms, ← Summand.total_queue arena]
  split
  · rename_i empty
    refine ⟨_, rfl, .refl wellFormed, ?_⟩
    rw [Summand.total_queue, LinearForm.eval_eq_total, List.isEmpty_iff.mp empty]
    rfl
  · rename_i nonempty
    exact Summand.join_yields inputs site form wellFormed (Summand.queue_ne_nil arena nonempty)
      (Summand.queue_ofTerms arena inside)

/-- Folding a form gives its value. -/
theorem fold_yields (inputs : Array (Scalar F)) (site : Site) (form : LinearForm F) {values : Array (WireValue F)}
    {xs : List (Scalar F)} {arena : Arena F} (wellFormed : arena.WellFormed)
    (mean : List.Forall₂ (WireValue.Means inputs arena) values.toList xs) :
    ∃ result, arena.fold site form values = .ok result ∧ Yields inputs arena result (form.on xs) := by
  obtain ⟨same, inside⟩ := GateSum.ofForm_value mean form
  rw [← same, fold]
  split
  · rename_i empty
    refine ⟨_, rfl, .refl wellFormed, ?_⟩
    rw [List.isEmpty_iff.mp empty]
    exact add_zero _
  · by_cases zero : (GateSum.ofForm form values).constant.isZero = true
    · rw [if_pos zero, (Scalar.isZero_iff _).mp zero, zero_add]
      exact join_ofTerms inputs site form wellFormed inside
    · rw [if_neg zero]
      obtain ⟨advances, there, one⟩ := constant_places inputs 1 wellFormed
      have all : ∀ t ∈ (GateSum.ofForm form values).terms ++
          [⟨(GateSum.ofForm form values).constant, (arena.constant 1).1⟩], t.wire < (arena.constant 1).2.nodes.size := by
        intro t member
        rcases List.mem_append.mp member with old | new
        · exact advances.inside (inside t old)
        · exact List.mem_singleton.mp new ▸ there
      obtain ⟨result, joined, later, means⟩ := join_ofTerms inputs site form advances.wellFormed all
      refine ⟨result, joined, advances.after later, ?_⟩
      have kept : LinearForm.total ((arena.constant 1).2.value inputs) (GateSum.ofForm form values).terms =
          LinearForm.total (arena.value inputs) (GateSum.ofForm form values).terms :=
        congrArg List.sum (List.map_congr_left fun t member => by rw [advances.value (inside t member)])
      rw [LinearForm.total_append, LinearForm.total_cons, one, kept, LinearForm.total_nil] at means
      convert means using 1
      ring

end Arena
end ArithCircuit
