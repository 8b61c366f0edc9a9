import ArithCircuit.Proofs.Execution.Upkeep
import ArithCircuit.Proofs.Layered.Lookups

/-!
Lowering builds tidy arenas: every constant has one gate, and no sum or product has the coefficient zero.
Each operation on gates keeps an arena tidy, and only demanding a form to be zero adds to the gates that must
be zero, one at most. So a run over gates keeps all this up, and the layered circuit of a design is a tidy
arena laid out.
-/
namespace ArithCircuit
variable {F : ScalarField}

/-- The coefficient of a sum or a product. -/
def Gate.coef? : Gate F → Option (Scalar F)
  | add _ _ coef => some coef
  | mul _ _ coef => some coef
  | _ => none

namespace Arena
variable {arena next first second third : Arena F}

/-- An arena without two gates of one constant and without coefficients that are zero. -/
structure Tidy (arena : Arena F) : Prop where
  wellFormed : arena.WellFormed
  constants : ∀ {i : Nat} {value : Scalar F}, arena.gates[i]? = some (.constant value) →
    arena.constants.get? value.val = some i
  coefs : ∀ {i : Nat} {gate : Gate F}, arena.gates[i]? = some gate → ∀ coef, gate.coef? = some coef → coef ≠ 0

theorem tidy_empty : (empty : Arena F).Tidy where
  wellFormed := wellFormed_empty
  constants := by simp [gates, empty]
  coefs := by simp [gates, empty]

/-- An arena is tidy and has the gates of another and more; no more gates must be zero. -/
structure Grows (first second : Arena F) : Prop where
  tidy : second.Tidy
  nodes : first.nodes.toList <+: second.nodes.toList
  constraints : second.constraints = first.constraints

theorem Grows.refl (tidy : arena.Tidy) : arena.Grows arena := ⟨tidy, List.prefix_rfl, rfl⟩

theorem Grows.trans (left : first.Grows second) (right : second.Grows third) : first.Grows third :=
  ⟨right.tidy, left.nodes.trans right.nodes, right.constraints.trans left.constraints⟩

theorem Grows.inside (grows : first.Grows second) {gate : Nat} (inside : gate < first.nodes.size) :
    gate < second.nodes.size :=
  inside.trans_le (size_le grows.nodes)

/-- An arena is tidy and has the gates of another and more; at most this many gates more must be zero. -/
structure GrowsBy (first second : Arena F) (count : Nat) : Prop where
  tidy : second.Tidy
  nodes : first.nodes.toList <+: second.nodes.toList
  constraints : second.constraints.size ≤ first.constraints.size + count

theorem Grows.quiet (grows : first.Grows second) : first.GrowsBy second 0 :=
  ⟨grows.tidy, grows.nodes, grows.constraints ▸ Nat.le_refl _⟩

theorem GrowsBy.trans {m n : Nat} (left : first.GrowsBy second m) (right : second.GrowsBy third n) :
    first.GrowsBy third (m + n) := by
  refine ⟨right.tidy, left.nodes.trans right.nodes, ?_⟩
  have := left.constraints
  have := right.constraints
  omega

theorem gate_of_push (gate : Gate F) {found : Gate F} {i : Nat} (here : (arena.push gate).2.gates[i]? = some found) :
    arena.gates[i]? = some found ∨ i = arena.nodes.size ∧ found = gate := by
  rw [push_gates, List.getElem?_append] at here
  split at here
  · exact .inl here
  · rename_i beyond
    rw [length_gates] at beyond here
    rw [List.getElem?_singleton] at here
    split at here
    · exact .inr ⟨by omega, (Option.some.inj here).symm⟩
    · cases here

/-- Adding a sum or a product. -/
theorem push_grows (tidy : arena.Tidy) {gate : Gate F} (admitted : arena.Admits gate) {coef : Scalar F}
    (operation : gate.coef? = some coef) (nonzero : coef ≠ 0) : arena.Grows (arena.push gate).2 := by
  have noInput : gate.input? = none := by
    cases gate with
    | input index => cases operation
    | constant value => cases operation
    | add a b coef => rfl
    | mul a b coef => rfl
  refine ⟨⟨(push_advances #[] tidy.wellFormed admitted noInput).wellFormed, fun found => ?_, fun found k here => ?_⟩,
    push_keeps gate arena, rfl⟩
  · rcases gate_of_push gate found with old | ⟨-, rfl⟩
    · exact tidy.constants old
    · cases operation
  · rcases gate_of_push gate found with old | ⟨-, rfl⟩
    · exact tidy.coefs old k here
    · cases operation.symm.trans here
      exact nonzero

theorem pushInput_grows (tidy : arena.Tidy) : arena.Grows arena.pushInput.2 := by
  have advances := pushInput_advances #[] tidy.wellFormed
  refine ⟨⟨advances.wellFormed, fun found => ?_, fun found k here => ?_⟩, advances.nodes, rfl⟩
  · rcases gate_of_push (.input arena.numInputs) found with old | ⟨-, impossible⟩
    · exact tidy.constants old
    · cases impossible
  · rcases gate_of_push (.input arena.numInputs) found with old | ⟨-, rfl⟩
    · exact tidy.coefs old k here
    · cases here

theorem constant_grows (tidy : arena.Tidy) (value : Scalar F) : arena.Grows (arena.constant value).2 := by
  obtain ⟨advances, -, -⟩ := constant_places #[] value tidy.wellFormed
  rw [constant] at advances ⊢
  split
  · exact .refl tidy
  · rename_i unknown
    rw [unknown] at advances
    refine ⟨⟨advances.wellFormed, fun {i held} found => ?_, fun found k here => ?_⟩, advances.nodes, rfl⟩
    · change (arena.constants.insert value.val arena.nodes.size).get? held.val = some i
      rw [Std.TreeMap.get?_eq_getElem?, Std.TreeMap.getElem?_insert]
      rcases gate_of_push (.constant value) found with old | ⟨last, same⟩
      · have known := tidy.constants old
        split
        · rename_i same
          rw [← compare_eq_iff_eq.mp same, unknown] at known
          cases known
        · exact known
      · cases same
        rw [if_pos (compare_eq_iff_eq.mpr rfl), last]
    · rcases gate_of_push (.constant value) found with old | ⟨-, rfl⟩
      · exact tidy.coefs old k here
      · cases here

/-- Demanding a gate to be zero. -/
theorem Tidy.constrain (tidy : arena.Tidy) {gate : Nat} (inside : gate < arena.nodes.size) : (arena.constrain gate).Tidy :=
  ⟨(constrain_advances #[] tidy.wellFormed inside).wellFormed, tidy.constants, tidy.coefs⟩

theorem pushInputs_grows (tidy : arena.Tidy) (count : Nat) : arena.Grows (pushInputs count arena).2 := by
  induction count generalizing arena with
  | zero => exact .refl tidy
  | succ count ih =>
    have first := pushInput_grows tidy
    exact first.trans (ih first.tidy)

theorem product_grows (tidy : arena.Tidy) {lhs rhs : WireValue F} (left : lhs.Sound arena) (right : rhs.Sound arena) :
    arena.Grows (arena.product lhs rhs).2 := by
  cases lhs with
  | constant a =>
    cases rhs with
    | constant b => exact .refl tidy
    | scaled b cb =>
      rw [product]
      split <;> exact .refl tidy
  | scaled a ca =>
    cases rhs with
    | constant b =>
      rw [product]
      split <;> exact .refl tidy
    | scaled b cb =>
      have admitted : arena.Admits (.mul a b (ca * cb)) := by
        rintro a' b' ⟨⟩
        exact ⟨left.1, right.1⟩
      exact push_grows tidy admitted rfl (mul_ne_zero left.2 right.2)

theorem materialize_grows (tidy : arena.Tidy) {value : WireValue F} (sound : value.Sound arena) :
    arena.Grows (arena.materialize value).2 := by
  cases value with
  | constant k => exact constant_grows tidy k
  | scaled gate coef =>
    rw [materialize]
    split
    · exact .refl tidy
    · have grows := constant_grows tidy 1
      obtain ⟨-, there, -⟩ := constant_places #[] 1 tidy.wellFormed
      have admitted : (arena.constant 1).2.Admits (.mul gate (arena.constant 1).1 coef) := by
        rintro a b ⟨⟩
        exact ⟨grows.inside sound.1, there⟩
      exact grows.trans (push_grows grows.tidy admitted rfl sound.2)

end Arena

theorem WireValue.Sound.mono {first second : Arena F} (nodes : first.nodes.toList <+: second.nodes.toList)
    {value : WireValue F} (sound : value.Sound first) : value.Sound second := by
  cases value with
  | constant k => trivial
  | scaled gate coef => exact ⟨sound.1.trans_le (Arena.size_le nodes), sound.2⟩

theorem Arena.materializeAll_grows {arena : Arena F} (tidy : arena.Tidy) {values : List (WireValue F)}
    (sound : ∀ value ∈ values, value.Sound arena) : arena.Grows (arena.materializeAll values).2 := by
  induction values generalizing arena with
  | nil => exact .refl tidy
  | cons value rest ih =>
    obtain ⟨here, later⟩ := List.forall_mem_cons.mp sound
    have first := materialize_grows tidy here
    exact first.trans (ih first.tidy fun value member => (later value member).mono first.nodes)

/-! ### Folding -/

theorem Summand.join_grows {site : Site} {form : LinearForm F} {queue : List (Summand F)} {arena next : Arena F}
    {value : WireValue F} (tidy : arena.Tidy) (summands : ∀ s ∈ queue, s.gate < arena.nodes.size ∧ s.coef ≠ 0)
    (joined : join site form queue arena = .ok (value, next)) : arena.Grows next ∧ value.Sound next := by
  fun_induction join site form queue arena with
  | case1 arena => cases joined
  | case2 arena s =>
    cases joined
    exact ⟨.refl tidy, summands s (List.mem_singleton_self s)⟩
  | case3 arena s t rest none => cases joined
  | case4 arena s t rest inverse found gate after pushed ih =>
    obtain ⟨⟨insideS, nonzeroS⟩, ⟨insideT, nonzeroT⟩, others⟩ :
        (s.gate < arena.nodes.size ∧ s.coef ≠ 0) ∧ (t.gate < arena.nodes.size ∧ t.coef ≠ 0) ∧
          ∀ u ∈ rest, u.gate < arena.nodes.size ∧ u.coef ≠ 0 := by simpa using summands
    obtain rfl : s.coef⁻¹ = inverse := Option.some.inj ((Scalar.inv?_of_ne_zero nonzeroS).symm.trans found)
    have admitted : arena.Admits (.add s.gate t.gate (t.coef * s.coef⁻¹)) := by
      rintro a b ⟨⟩
      exact ⟨insideS, insideT⟩
    have grows := Arena.push_grows tidy admitted rfl (mul_ne_zero nonzeroT (inv_ne_zero nonzeroS))
    obtain ⟨rfl, rfl⟩ : arena.nodes.size = gate ∧ (arena.push (.add s.gate t.gate (t.coef * s.coef⁻¹))).2 = after :=
      Prod.ext_iff.mp pushed
    obtain ⟨later, sound⟩ := ih grows.tidy
      (by
        intro u member
        rcases List.mem_cons.mp ((enqueue_perm _ _).mem_iff.mp member) with rfl | old
        · exact ⟨(Arena.size_push _ arena).symm ▸ arena.nodes.size.lt_succ_self, nonzeroS⟩
        · exact ⟨grows.inside (others u old).1, (others u old).2⟩)
      joined
    exact ⟨grows.trans later, sound⟩

theorem GateSum.addends_grows (sum : GateSum F) {arena : Arena F} (tidy : arena.Tidy) :
    arena.Grows (sum.addends arena).2 := by
  rw [addends]
  split
  · exact .refl tidy
  · exact Arena.constant_grows tidy 1

/-- Folding a form adds sums and at most one constant. -/
theorem Arena.fold_grows {site : Site} {form : LinearForm F} {values : Array (WireValue F)} {arena next : Arena F}
    {value : WireValue F} (tidy : arena.Tidy) (sound : ∀ value ∈ values.toList, value.Sound arena)
    (folded : arena.fold site form values = .ok (value, next)) : arena.Grows next ∧ value.Sound next := by
  obtain ⟨xs, mean⟩ := WireValue.exists_forall₂_means #[] sound
  have inside := GateSum.addends_inside tidy.wellFormed (GateSum.ofForm_value mean form).2
  have grows := GateSum.addends_grows (GateSum.ofForm form values) tidy
  rw [fold_eq] at folded
  split at folded
  · cases folded
    exact ⟨.refl tidy, trivial⟩
  · split at folded
    · cases folded
      exact ⟨grows, trivial⟩
    · obtain ⟨later, sound⟩ := Summand.join_grows grows.tidy (Summand.queue_ofTerms _ inside) folded
      exact ⟨grows.trans later, sound⟩

/-! ### Lowering -/

/-- Demanding a form to be zero adds one gate at most to those that must be zero. -/
theorem Arena.constrainFold_grows {site : Site} {form : LinearForm F} {values : Array (WireValue F)}
    {arena next : Arena F} (tidy : arena.Tidy) (sound : ∀ value ∈ values.toList, value.Sound arena)
    (constrained : Interp.emit.constrain site form values arena = .ok next) : arena.GrowsBy next 1 := by
  obtain ⟨⟨value, folded⟩, done, constrained⟩ := bind_eq_ok.mp constrained
  obtain ⟨grows, fits⟩ := fold_grows tidy sound done
  have demanded {gate : Nat} {last : Arena F} (further : folded.Grows last) (inside : gate < last.nodes.size) :
      arena.GrowsBy (last.constrain gate) 1 := by
    refine ⟨further.tidy.constrain inside, grows.nodes.trans further.nodes, ?_⟩
    rw [Arena.constrain, Array.size_push, further.constraints, grows.constraints]
  cases value with
  | constant k =>
    dsimp only at constrained
    split at constrained
    · cases constrained
      exact ⟨grows.tidy, grows.nodes, grows.constraints ▸ Nat.le_succ _⟩
    · cases constrained
      exact demanded (constant_grows grows.tidy k) (constant_places #[] k grows.tidy.wellFormed).2.1
  | scaled gate coef =>
    cases constrained
    exact demanded (.refl grows.tidy) fits.1

/-- What lowering keeps up: arenas are tidy, and gates that must be zero are no more than the constraints. -/
def Upkeep.emit : Upkeep (Interp.emit (F := F)) where
  good := Arena.Tidy
  fits arena value := value.Sound arena
  step := Arena.GrowsBy
  refl tidy := (Arena.Grows.refl tidy).quiet
  trans left right := left.trans right
  good_of_step step := step.tidy
  mono step sound := sound.mono step.nodes
  one _ := trivial
  form tidy sound folded := by
    obtain ⟨grows, fits⟩ := Arena.fold_grows tidy sound folded
    exact ⟨grows.quiet, fits⟩
  product tidy left right := by
    obtain ⟨x, meansLeft⟩ := left.exists_means #[]
    obtain ⟨y, meansRight⟩ := right.exists_means #[]
    exact ⟨(Arena.product_grows tidy left right).quiet,
      (Arena.product_yields #[] tidy.wellFormed meansLeft meansRight).2.sound⟩
  hint {name inputs count values arena next vs} tidy _ given := by
    obtain ⟨rfl, rfl⟩ : (arena.pushInputs count).1 = vs ∧ (arena.pushInputs count).2 = next :=
      Prod.ext_iff.mp (Except.ok.inj given)
    obtain ⟨taken, -, -, means⟩ := Arena.pushInputs_spec #[] count tidy.wellFormed
    exact ⟨(Arena.pushInputs_grows tidy count).quiet, WireValue.sound_of_forall₂_means means⟩
  constrain tidy sound constrained := Arena.constrainFold_grows tidy sound constrained

/-- The layered circuit of a design is a tidy arena laid out. Its gates that must be zero are no more than
    the constraints of the entry circuit with its calls written out. -/
theorem Design.exists_arena_of_emit {D : Design F} {removeDead : Bool} {L : LayeredCircuit F}
    (emitted : D.emit removeDead = .ok L) :
    ∃ (entry : Circuit F) (tree : CallTree (WireValue F)) (arena : Arena F) (outputs : List Nat),
      D.get? .entry = some entry ∧ tree.circuit = .entry ∧ tree.Unfolds D ∧ arena.Tidy ∧
      arena.constraints.size ≤ tree.total D Gauge.constraints.own ∧
      L = arena.laidOut (arena.live outputs removeDead) outputs entry.numInputs entry.numPublic := by
  obtain ⟨entry, found, emitted⟩ := bind_eq_ok.mp emitted
  obtain ⟨result, ran, emitted⟩ := bind_eq_ok.mp emitted
  have first := Arena.pushInputs_grows (Arena.tidy_empty (F := F)) entry.numInputs
  obtain ⟨taken, -, -, means⟩ := Arena.pushInputs_spec #[] entry.numInputs Arena.wellFormed_empty
  obtain ⟨circuit, unfolds, ⟨tidy, nodes, count⟩, sound⟩ :=
    Upkeep.emit.run_keeps D (D.size + 1) .entry first.tidy (WireValue.sound_of_forall₂_means means) ran
  have last := Arena.materializeAll_grows tidy sound
  refine ⟨entry, result.tree, _, (result.state.materializeAll result.outputs).1,
    Design.circuit_eq_ok_iff.mp (mapError_eq_ok.mp found), circuit, unfolds, last.tidy, ?_, ?_⟩
  · rw [last.constraints]
    rw [first.constraints] at count
    exact count.trans_eq (Nat.zero_add _)
  · obtain ⟨same, -⟩ := LayeredCircuit.ofParts_eq_ok_iff.mp (mapError_eq_ok.mp emitted)
    rw [same]
    exact Arena.layout_eq _ _ _ _ _

end ArithCircuit
