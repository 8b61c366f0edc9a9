import ArithCircuit.Proofs.Builder.Definition
import ArithCircuit.Proofs.Script.Meaning

/-!
An action records a circuit of what it computes. The forms that it makes have, under every assignment
that satisfies the builder, the values that it computes from the values of its operands.
-/
namespace ArithCircuit
variable {F : ScalarField}

theorem Scalar.bit?_eq_some_iff {x : Scalar F} {bit : Bool} : x.bit? = some bit ↔ x = .ofBool bit := by
  rw [bit?]
  split
  · rename_i zero
    subst zero
    cases bit <;> simp [one_ne_zero'.symm]
  · rename_i nonzero
    split
    · rename_i one
      subst one
      cases bit <;> simp [nonzero]
    · rename_i other
      cases bit <;> simp [nonzero, other]

theorem Scalar.ofBool_isZero (x : Scalar F) : ofBool x.isZero = if x = 0 then (1 : Scalar F) else 0 := by
  by_cases zero : x = 0
  · rw [if_pos zero, (isZero_iff x).mpr zero, ofBool_true]
  · rw [if_neg zero, (isZero_eq_false_iff x).mpr zero, ofBool_false]

/-- The forms that a product adds to a store. -/
def Product.listed : Product F → List (LinearForm F)
  | .forms es => es
  | _ => []

theorem Store.forms_extend (store : Store F) (p : Product F) : (store.extend p).forms = store.forms ++ p.listed := by
  cases p <;> simp [Store.extend, Product.listed]

/-- A store whose forms read only the first wires. -/
def Store.Scoped (n : Nat) (store : Store F) : Prop := ∀ e ∈ store.forms, e.Reads n

theorem Store.scoped_empty (n : Nat) : (Store.empty : Store F).Scoped n := by
  intro e member
  exact absurd member (Array.not_mem_empty e)

theorem Store.mem_of_item? {α : Type} {items : Array α} {position : Int} {a : α} (found : item? items position = some a) :
    a ∈ items := by
  simp only [item?, Option.ite_none_right_eq_some] at found
  exact Array.mem_of_getElem? found.2

theorem Store.Scoped.reads {n : Nat} {store : Store F} (inScope : store.Scoped n) (positive : 0 < n) {a : Operand F}
    (plain : a.Plain) : (store.form a).Reads n := by
  cases a with
  | stored position =>
    rw [Store.form]
    cases found : item? store.forms position with
    | none => exact LinearForm.reads_zero n
    | some e => exact inScope e (mem_of_item? found)
  | form e =>
    obtain ⟨k, rfl⟩ := plain
    exact LinearForm.reads_constant positive k

instance : Readout F (Product F) (List (Scalar F)) where
  value p w := p.listed.map (·.eval w)
  Reads n p := ∀ e ∈ p.listed, e.Reads n
  value_congr reads agree := List.map_congr_left fun e member => LinearForm.eval_congr (reads e member) agree
  reads_mono le reads e member := LinearForm.reads_mono le (reads e member)

/-- A rule under which a quotient is hinted only where the divisor is not zero. -/
def HintRule.Divides (rule : HintRule F) : Prop :=
  ∀ {x y q : Scalar F}, rule BuiltinHint.quotient.name [x, y] [q] → y ≠ 0

namespace Action
open Builder
variable {W : World F} {b : Builder F}

theorem onBits_eq_some_iff {op : Bool → Bool → Bool} {x y : Scalar F} {ys : List (Scalar F)} :
    onBits op x y = some ys ↔ ∃ z, (∃ s t, x = .ofBool s ∧ y = .ofBool t ∧ z = .ofBool (op s t)) ∧ ys = [z] := by
  simp only [onBits, Option.bind_eq_bind, Option.bind_eq_some_iff, Scalar.bit?_eq_some_iff]
  constructor
  · rintro ⟨s, left, t, right, ⟨⟩⟩
    exact ⟨_, ⟨s, t, left, right, rfl⟩, rfl⟩
  · rintro ⟨_, ⟨s, t, left, right, rfl⟩, rfl⟩
    exact ⟨s, left, t, right, rfl⟩

theorem one_performs {step : Build F (LinearForm F)} {R : (Wire → Scalar F) → Scalar F → Prop}
    (performs : Performs W b step R) : Performs W b (one step) fun w ys => ∃ z, R w z ∧ ys = [z] := by
  intro p b' done
  obtain ⟨e, _, stepped, ⟨⟩⟩ := Builder.bind_eq_ok.mp done
  obtain ⟨recorded, reads, gives⟩ := performs e _ stepped
  refine ⟨recorded, List.forall_mem_singleton.mpr reads, fun satisfied => ⟨fun w' agree later => ?_, ?_⟩⟩
  · exact ⟨_, (gives satisfied).sound w' agree later, rfl⟩
  · rintro room ys ⟨z, related, rfl⟩
    obtain ⟨w', agree, later, rfl⟩ := (gives satisfied).complete room z related
    exact ⟨w', agree, later, rfl⟩

theorem many_performs {step : Build F (List (LinearForm F))} {R : (Wire → Scalar F) → List (Scalar F) → Prop}
    (performs : Performs W b step R) : Performs W b (many step) R := by
  intro p b' done
  obtain ⟨es, _, stepped, ⟨⟩⟩ := Builder.bind_eq_ok.mp done
  exact performs es _ stepped

theorem done_performs {step : Build F Unit} {P : (Wire → Scalar F) → Prop}
    (performs : Performs W b step fun w (_ : Unit) => P w) : Performs W b (done step) fun w ys => P w ∧ ys = [] := by
  intro p b' done
  obtain ⟨_, _, stepped, ⟨⟩⟩ := Builder.bind_eq_ok.mp done
  obtain ⟨recorded, _, gives⟩ := performs () _ stepped
  refine ⟨recorded, nofun, fun satisfied => ⟨fun w' agree later => ?_, ?_⟩⟩
  · exact ⟨(gives satisfied).sound w' agree later, rfl⟩
  · rintro room ys ⟨holds, rfl⟩
    obtain ⟨w', agree, later, _⟩ := (gives satisfied).complete room () holds
    exact ⟨w', agree, later, rfl⟩

/-- A form that is made without recording anything. -/
theorem form_performs (good : b.Good W) {e : LinearForm F} (reads : e.Reads b.nextWire) :
    Performs W b (return Product.forms [e]) fun w ys => ys = [e.eval w] :=
  Performs.pure good (a := Product.forms [e]) (List.forall_mem_singleton.mpr reads)

/-- The forms of an action other than an output have the values that the action computes from those of its operands. -/
theorem run_performs (allows : W.rule.Allows) (good : b.Good W) {store : Store F} (inScope : store.Scoped b.nextWire)
    {lib : Library F}
    (calls : ∀ {id args ys}, (∃ c, b.subCircuits.get? id = some c ∧ c.numInputs = args.length ∧
      ys.length = c.outputs.length ∧ W.call id args ys) ↔ lib.call id args = some ys)
    {action : Action F} (plain : action.Plain) (checked : action.Checked ∨ W.rule.Divides)
    (silent : ∀ es, action ≠ .output es) :
    Performs W b (action.run store) fun w ys =>
      action.compute lib (inputValues b.numInputs w) (fun a => (store.form a).eval w) = some ys := by
  have reads {a : Operand F} (plain : a.Plain) := inScope.reads good.positive plain
  have readsAll (as : List (Operand F)) (plain : ∀ a ∈ as, a.Plain) :
      ∀ e ∈ as.map store.form, e.Reads b.nextWire := List.forall_mem_map.mpr fun a member => reads (plain a member)
  cases action with
  | form e => exact (form_performs good (reads (a := .form e) plain)).congr (by simp [compute, eq_comm, Store.form])
  | input index => exact (one_performs (input_performs good index)).congr (by simp [compute, eq_comm])
  | inputs => exact (many_performs (inputs_performs good)).congr (by simp [compute, eq_comm])
  | add x y => exact (form_performs good ((reads plain.1).add (reads plain.2))).congr (by simp [compute, eq_comm])
  | sub x y => exact (form_performs good ((reads plain.1).sub (reads plain.2))).congr (by simp [compute, eq_comm])
  | neg x => exact (form_performs good (reads (a := x) plain).neg).congr (by simp [compute, eq_comm])
  | scale x c => exact (form_performs good ((reads (a := x) plain).scale c)).congr (by simp [compute, eq_comm])
  | mul x y => exact (one_performs (mul_performs good (reads plain.1) (reads plain.2))).congr (by simp [compute, eq_comm])
  | reify x => exact (one_performs (reify_performs good (reads (a := x) plain))).congr (by simp [compute, eq_comm])
  | innerProduct xs ys =>
    refine (one_performs (innerProduct_performs good (readsAll xs plain.1) (readsAll ys plain.2))).congr fun _ => ?_
    rw [compute, List.length_map, List.length_map, List.zip_map, List.map_map]
    simp [eq_comm, Function.comp_def]
  | assertZero x =>
    refine (done_performs (requireZero_performs good .zero (reads (a := x) plain))).congr fun _ => ?_
    simp [compute, eq_comm]
  | assertEqual x y =>
    refine (done_performs (assertEqual_performs good (reads plain.1) (reads plain.2))).congr fun _ => ?_
    simp [compute, eq_comm]
  | assertDistinct x y =>
    refine (done_performs (assertDistinct_performs allows good (reads plain.1) (reads plain.2))).congr fun _ => ?_
    simp [compute, eq_comm]
  | assertBoolean x =>
    refine (done_performs (assertBoolean_performs good (reads (a := x) plain))).congr fun _ => ?_
    simp [compute, eq_comm]
  | select c t f =>
    exact (one_performs (select_performs good (reads plain.1) (reads plain.2.1) (reads plain.2.2))).congr
      (by simp [compute, eq_comm])
  | inverse x =>
    refine (one_performs (inverse_performs allows good (reads (a := x) plain))).congr fun _ => ?_
    simp [compute, eq_comm]
  | div x y =>
    refine (one_performs (div_performs allows good (reads plain.1) (reads plain.2))).congr fun _ => ?_
    simp [compute, eq_comm, div_eq_mul_inv]
  | divUnchecked x y =>
    have divides : W.rule.Divides := checked.resolve_left id
    refine (one_performs (divUnchecked_performs allows divides good (reads plain.1) (reads plain.2))).congr fun _ => ?_
    simp [compute, eq_comm, div_eq_mul_inv]
  | isZero x =>
    refine (one_performs (isZero_performs allows good (reads (a := x) plain))).congr fun _ => ?_
    simp only [compute, Scalar.ofBool_isZero, exists_eq_left, Option.some.injEq]
    exact eq_comm
  | and x y =>
    refine (one_performs (and_performs good (reads plain.1) (reads plain.2))).congr fun _ => ?_
    rw [compute, onBits_eq_some_iff]
  | or x y =>
    refine (one_performs (or_performs good (reads plain.1) (reads plain.2))).congr fun _ => ?_
    rw [compute, onBits_eq_some_iff]
  | xor x y =>
    refine (one_performs (xor_performs good (reads plain.1) (reads plain.2))).congr fun _ => ?_
    rw [compute, onBits_eq_some_iff]
  | lookup2 c₀ c₁ v₀ v₁ v₂ v₃ =>
    have reads := readsAll _ plain
    refine (one_performs (lookup2_performs good reads)).congr fun _ => ?_
    simp only [compute, Option.bind_eq_bind, Option.bind_eq_some_iff, Scalar.bit?_eq_some_iff]
    constructor
    · rintro ⟨_, ⟨s, t, low, high, rfl⟩, rfl⟩
      refine ⟨s, low, t, high, ?_⟩
      cases s <;> cases t <;> rfl
    · rintro ⟨s, low, t, high, ⟨⟩⟩
      refine ⟨_, ⟨s, t, low, high, rfl⟩, ?_⟩
      cases s <;> cases t <;> rfl
  | toBinary x count =>
    refine (many_performs (toBinary_performs allows good (reads (a := x) plain) count)).congr fun _ => ?_
    simp [compute, eq_comm]
  | fromBinary xs =>
    refine (form_performs good (reads_fromBinary (readsAll xs plain))).congr fun _ => ?_
    rw [eval_fromBinary]
    simp [compute, eq_comm, Function.comp_def]
  | call id args =>
    refine (many_performs (call_performs good id (readsAll args plain))).congr fun _ => ?_
    rw [compute, ← calls]
    simp [Function.comp_def]
  | output es => exact absurd rfl (silent es)
  | _ => exact plain.elim

/-- What an action computes depends on the values of its operands alone. -/
theorem compute_congr {lib : Library F} {inputs : List (Scalar F)} {read read' : Operand F → Scalar F} {action : Action F}
    (plain : action.Plain) (same : ∀ a : Operand F, a.Plain → read a = read' a) :
    action.compute lib inputs read = action.compute lib inputs read' := by
  have sameAll {as : List (Operand F)} (plain : ∀ a ∈ as, a.Plain) : as.map read = as.map read' :=
    List.map_congr_left fun a member => same a (plain a member)
  cases action with
  | innerProduct xs ys =>
    have products : ((xs.zip ys).map fun p => read p.1 * read p.2) = (xs.zip ys).map fun p => read' p.1 * read' p.2 := by
      refine List.map_congr_left fun p member => ?_
      rw [same p.1 (plain.1 p.1 (List.of_mem_zip member).1), same p.2 (plain.2 p.2 (List.of_mem_zip member).2)]
    rw [compute, compute, products]
  | fromBinary xs => rw [compute, compute, sameAll plain]
  | call id args => rw [compute, compute, sameAll plain]
  | lookup2 b₀ b₁ v₀ v₁ v₂ v₃ =>
    have listed (a : Operand F) (member : a ∈ [b₀, b₁, v₀, v₁, v₂, v₃]) : read a = read' a := same a (plain a member)
    have chosen (low high : Bool) : read (if high then if low then v₃ else v₂ else if low then v₁ else v₀) =
        read' (if high then if low then v₃ else v₂ else if low then v₁ else v₀) := by
      cases low <;> cases high <;> exact listed _ (by simp)
    simp only [compute, listed b₀ (by simp), listed b₁ (by simp), chosen]
  | _ => simp_all [compute, Plain]

end Action
end ArithCircuit
