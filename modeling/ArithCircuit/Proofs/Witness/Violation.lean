import Mathlib.Data.Prod.Lex
import ArithCircuit.Proofs.Witness.Solver

/-!
Which violation is reported. The constraints of all instances are listed by instance and then by
position, so the first task of the list that finds something finds the violation of the least place.
Workers search contiguous chunks of that list, which makes no difference to what is found first.
-/
namespace ArithCircuit
variable {F : ScalarField}

/-- A constraint of an instance has this value, which is not zero. -/
def Instance.Violates (D : Design F) (inst : Instance F) (index : Nat) (value : Scalar F) : Prop :=
  ∃ c form, D.get? inst.circuit = some c ∧ c.constraints[index]? = some form ∧
    value = form.on inst.values.toList ∧ value ≠ 0

namespace Violation

/-- Among these instances, the constraint at the place of a violation has its value. -/
def Occurs (D : Design F) (instances : List (Instance F)) (v : Violation F) : Prop :=
  ∃ inst, instances[v.inst]? = some inst ∧ v.circuit = inst.circuit ∧ inst.Violates D v.index v.value

/-- Violations are ordered by instance and then by the position of the constraint. -/
def place (v : Violation F) : Nat ×ₗ Nat := toLex (v.inst, v.index)

/-- A violation that stands before all others. -/
def First (D : Design F) (instances : List (Instance F)) (v : Violation F) : Prop :=
  v.Occurs D instances ∧ ∀ other, Occurs D instances other → v.place ≤ other.place

/-- There is at most one violation at a place. -/
theorem Occurs.eq_of_place {D : Design F} {instances : List (Instance F)} {v w : Violation F}
    (left : v.Occurs D instances) (right : w.Occurs D instances) (same : v.place = w.place) : v = w := by
  obtain ⟨inst, index⟩ := Prod.mk.inj (toLex.injective same)
  obtain ⟨run, found, circuit, c, form, known, listed, value, -⟩ := left
  obtain ⟨run', found', circuit', c', form', known', listed', value', -⟩ := right
  cases found.symm.trans (inst ▸ found')
  cases known.symm.trans known'
  cases listed.symm.trans (index ▸ listed')
  calc v = ⟨v.inst, v.circuit, v.index, v.value⟩ := rfl
    _ = ⟨w.inst, w.circuit, w.index, w.value⟩ := by rw [inst, circuit, index, value, circuit', value']

theorem First.unique {D : Design F} {instances : List (Instance F)} {v w : Violation F} (left : v.First D instances)
    (right : w.First D instances) : v = w :=
  left.1.eq_of_place right.1 (le_antisymm (left.2 w right.1) (right.2 v left.1))

end Violation

namespace ConstraintTask

/-- Tasks are ordered as the violations they may find. -/
def place (task : ConstraintTask F) : Nat ×ₗ Nat := toLex (task.inst, task.index)

theorem check_eq_some_iff {task : ConstraintTask F} {v : Violation F} :
    task.check = some v ↔
      v = ⟨task.inst, task.circuit, task.index, task.form.on task.values.toList⟩ ∧ v.value ≠ 0 := by
  rw [check, ← LinearForm.eval_getD]
  split
  · rename_i zero
    constructor
    · intro none
      cases none
    · rintro ⟨rfl, nonzero⟩
      exact absurd ((Scalar.isZero_iff _).mp zero) nonzero
  · rename_i nonzero
    rw [Option.some_inj, eq_comm, iff_self_and]
    rintro rfl
    exact mt (Scalar.isZero_iff _).mpr nonzero

theorem place_eq_of_check {task : ConstraintTask F} {v : Violation F} (found : task.check = some v) :
    v.place = task.place := by
  rw [(check_eq_some_iff.mp found).1]
  rfl

theorem mem_ofInstance {i : Nat} {inst : Instance F} {constraints : List (LinearForm F)} {task : ConstraintTask F} :
    task ∈ ofInstance i inst constraints ↔
      ∃ index form, constraints[index]? = some form ∧ task = ⟨i, inst.circuit, index, form, inst.values⟩ := by
  rw [ofInstance, List.mem_map]
  constructor
  · rintro ⟨⟨form, index⟩, member, rfl⟩
    exact ⟨index, form, List.mk_mem_zipIdx_iff_getElem?.mp member, rfl⟩
  · rintro ⟨index, form, found, rfl⟩
    exact ⟨(form, index), List.mk_mem_zipIdx_iff_getElem?.mpr found, rfl⟩

theorem pairwise_ofInstance (i : Nat) (inst : Instance F) (constraints : List (LinearForm F)) :
    (ofInstance i inst constraints).Pairwise fun s t => s.place < t.place := by
  rw [ofInstance, List.pairwise_map, List.pairwise_iff_getElem]
  intro m n short long below
  refine Prod.Lex.toLex_lt_toLex.mpr (.inr ⟨rfl, ?_⟩)
  simpa using below

theorem ofInstances_cons_eq_ok {D : Design F} {i : Nat} {first : Instance F} {rest : List (Instance F)}
    {tasks : List (ConstraintTask F)} : ofInstances D i (first :: rest) = .ok tasks ↔
      ∃ c later, D.get? first.circuit = some c ∧ ofInstances D (i + 1) rest = .ok later ∧
        tasks = ofInstance i first c.constraints ++ later := by
  rw [ofInstances, bind_eq_ok]
  constructor
  · rintro ⟨c, known, listed⟩
    obtain ⟨later, listed, same⟩ := bind_eq_ok.mp listed
    exact ⟨c, later, Design.circuit_eq_ok_iff.mp (mapError_eq_ok.mp known), listed, (Except.ok.inj same).symm⟩
  · rintro ⟨c, later, known, listed, rfl⟩
    exact ⟨c, mapError_eq_ok.mpr (Design.circuit_eq_ok_iff.mpr known), bind_eq_ok.mpr ⟨later, listed, rfl⟩⟩

/-- There is a task for every constraint of every instance. -/
theorem mem_ofInstances {D : Design F} {i : Nat} {instances : List (Instance F)} {tasks : List (ConstraintTask F)}
    (listed : ofInstances D i instances = .ok tasks) {task : ConstraintTask F} :
    task ∈ tasks ↔ ∃ k inst c index form, instances[k]? = some inst ∧ D.get? inst.circuit = some c ∧
      c.constraints[index]? = some form ∧ task = ⟨i + k, inst.circuit, index, form, inst.values⟩ := by
  induction instances generalizing i tasks with
  | nil =>
    cases listed
    simp
  | cons first rest ih =>
    obtain ⟨c, later, known, further, rfl⟩ := ofInstances_cons_eq_ok.mp listed
    rw [List.mem_append, mem_ofInstance, ih further]
    constructor
    · rintro (⟨index, form, found, rfl⟩ | ⟨k, inst, c', index, form, there, known', found, rfl⟩)
      · exact ⟨0, first, c, index, form, rfl, known, found, rfl⟩
      · exact ⟨k + 1, inst, c', index, form, there, known', found, by rw [Nat.add_right_comm, Nat.add_assoc]⟩
    · rintro ⟨k, inst, c', index, form, there, known', found, rfl⟩
      cases k with
      | zero =>
        cases there
        cases known.symm.trans known'
        exact .inl ⟨index, form, found, rfl⟩
      | succ k =>
        exact .inr ⟨k, inst, c', index, form, there, known', found, by rw [Nat.add_right_comm, Nat.add_assoc]⟩

/-- Tasks are listed by instance and then by the position of the constraint. -/
theorem pairwise_ofInstances {D : Design F} {i : Nat} {instances : List (Instance F)} {tasks : List (ConstraintTask F)}
    (listed : ofInstances D i instances = .ok tasks) : tasks.Pairwise fun s t => s.place < t.place := by
  induction instances generalizing i tasks with
  | nil =>
    cases listed
    exact .nil
  | cons first rest ih =>
    obtain ⟨c, later, -, further, rfl⟩ := ofInstances_cons_eq_ok.mp listed
    refine List.pairwise_append.mpr ⟨pairwise_ofInstance i first c.constraints, ih further, ?_⟩
    intro s here t there
    obtain ⟨_, _, -, rfl⟩ := mem_ofInstance.mp here
    obtain ⟨k, _, _, _, _, -, -, -, rfl⟩ := (mem_ofInstances further).mp there
    have earlier : i < i + 1 + k := by omega
    exact Prod.Lex.toLex_lt_toLex.mpr (.inl earlier)

/-- The violations that occur are those that tasks find. -/
theorem occurs_iff {D : Design F} {instances : List (Instance F)} {tasks : List (ConstraintTask F)}
    (listed : ofInstances D 0 instances = .ok tasks) {v : Violation F} :
    v.Occurs D instances ↔ ∃ task ∈ tasks, task.check = some v := by
  simp only [mem_ofInstances listed, check_eq_some_iff]
  constructor
  · rintro ⟨inst, there, circuit, c, form, known, found, value, nonzero⟩
    refine ⟨_, ⟨v.inst, inst, c, v.index, form, there, known, found, rfl⟩, ?_, nonzero⟩
    rw [Nat.zero_add, ← circuit, ← value]
  · rintro ⟨_, ⟨k, inst, c, index, form, there, known, found, rfl⟩, rfl, nonzero⟩
    exact ⟨inst, (Nat.zero_add k).symm ▸ there, rfl, c, form, known, found, rfl, nonzero⟩

/-- The first task that finds a violation finds the first violation. -/
theorem first_of_findSome? {D : Design F} {instances : List (Instance F)} {tasks : List (ConstraintTask F)}
    (listed : ofInstances D 0 instances = .ok tasks) {v : Violation F} (found : tasks.findSome? check = some v) :
    v.First D instances := by
  obtain ⟨before, task, after, split, here, none⟩ := List.findSome?_eq_some_iff.mp found
  have member : task ∈ tasks := by simp [split]
  refine ⟨(occurs_iff listed).mpr ⟨task, member, here⟩, fun other occurs => ?_⟩
  obtain ⟨task', member', there⟩ := (occurs_iff listed).mp occurs
  rw [place_eq_of_check here, place_eq_of_check there]
  rw [split, List.mem_append, List.mem_cons] at member'
  rcases member' with earlier | rfl | later
  · cases (none task' earlier).symm.trans there
  · exact le_rfl
  · have sorted := pairwise_ofInstances listed
    rw [split] at sorted
    exact ((List.pairwise_cons.mp (List.pairwise_append.mp sorted).2.1).1 task' later).le

end ConstraintTask

/-- However many workers there are, the check finds nothing exactly when every constraint of every
    instance is zero, and otherwise the first violation; so solving never depends on them. -/
theorem firstViolation_first {D : Design F} {instances : List (Instance F)}
    (known : ∀ inst ∈ instances, ∃ c, D.get? inst.circuit = some c) (workers : Nat) :
    (∃ found, firstViolation D instances workers = .ok found ∧
      (found = none ↔ ∀ inst ∈ instances, inst.Satisfied D) ∧ ∀ v, found = some v ↔ v.First D instances) ∧
    ∀ (solver : Solver F) (inputs : List (Scalar F)) (mode : HintMode) (others : Nat),
      solver.solve inputs ⟨workers, mode⟩ = solver.solve inputs ⟨others, mode⟩ := by
  constructor
  · obtain ⟨tasks, listed, same⟩ := ConstraintTask.ofInstances_spec known 0
    refine ⟨tasks.findSome? ConstraintTask.check, by rw [firstViolation_eq, listed, ok_bind], ?_, fun v => ⟨?_, ?_⟩⟩
    · rw [List.findSome?_eq_none_iff, same]
    · exact ConstraintTask.first_of_findSome? listed
    · intro first
      obtain ⟨task, member, here⟩ := (ConstraintTask.occurs_iff listed).mp first.1
      cases found : tasks.findSome? ConstraintTask.check with
      | none => cases (List.findSome?_eq_none_iff.mp found task member).symm.trans here
      | some w => rw [first.unique (ConstraintTask.first_of_findSome? listed found)]
  · intro solver inputs mode others
    simp only [Solver.solve, firstViolation_eq]

/-- Runs of the reciprocal design in which the hint gave five for the reciprocal of three, and then of two. -/
def wrongRuns : List (Instance .mersenne31) :=
  [⟨.entry, #[1, .ofNat 3, .ofNat 5]⟩, ⟨1, #[1, .ofNat 3, .ofNat 5, .ofNat 15]⟩,
    ⟨1, #[1, .ofNat 2, .ofNat 5, .ofNat 10]⟩]

theorem firstViolation_first_wrongRuns :
    (∀ inst ∈ wrongRuns, ∃ c, Design.reciprocal.get? inst.circuit = some c) ∧
    firstViolation Design.reciprocal wrongRuns 7 = .ok (some ⟨1, 1, 0, .ofNat 14⟩) ∧
    ∀ (solver : Solver .mersenne31) (inputs : List (Scalar .mersenne31)),
      solver.solve inputs ⟨7, .strict⟩ = solver.solve inputs ⟨0, .strict⟩ := by
  have known : ∀ inst ∈ wrongRuns, ∃ c, Design.reciprocal.get? inst.circuit = some c := by
    simp only [wrongRuns, List.forall_mem_cons]
    exact ⟨⟨_, rfl⟩, ⟨_, rfl⟩, ⟨_, rfl⟩, List.forall_mem_nil _⟩
  have occurs : Violation.Occurs Design.reciprocal wrongRuns ⟨1, 1, 0, .ofNat 14⟩ :=
    ⟨_, rfl, rfl, _, ⟨[⟨-1, .one⟩, ⟨1, 3⟩]⟩, rfl, rfl, by decide, by decide⟩
  obtain ⟨⟨found, checked, -, first⟩, alike⟩ := firstViolation_first known 7
  refine ⟨known, ?_, fun solver inputs => alike solver inputs .strict 0⟩
  rw [checked, (first _).mpr ⟨occurs, ?_⟩]
  rintro ⟨inst, circuit, index, value⟩ ⟨run, there, -, c, form, known, listed, -⟩
  cases inst with
  | zero =>
    cases there
    cases known
    cases listed
  | succ inst => exact Prod.Lex.toLex_le_toLex.mpr (by simp; omega)

end ArithCircuit
