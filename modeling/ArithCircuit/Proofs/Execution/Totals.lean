import ArithCircuit.Proofs.Execution.Termination
import ArithCircuit.Proofs.Execution.Unfolding

/-!
Totals over the calls of a circuit, written out as a tree. Expanded counts never build the tree: they are
looked up for circuits that have been counted before and are held in 64 bits. What calls add is capped, and
capping sums of capped numbers caps the sum, so a count is the total capped at the largest count. What a
circuit counts itself wraps, so this holds as long as no circuit counts something of its own when that would
go past the largest count.
-/
namespace ArithCircuit
variable {F : ScalarField} {D : Design F}

/-! ### Trees of calls -/

theorem sumOver_flatMap {α β : Type} (count : β → Nat) (f : α → List β) (xs : List α) :
    sumOver count (xs.flatMap f) = sumOver (fun x => sumOver count (f x)) xs := by
  induction xs with
  | nil => rfl
  | cons x rest ih => rw [List.flatMap_cons, sumOver_append, ih, sumOver_cons]

theorem sumOver_map {α β : Type} (count : β → Nat) (f : α → β) (xs : List α) :
    sumOver count (xs.map f) = sumOver (fun x => count (f x)) xs := by
  induction xs with
  | nil => rfl
  | cons x rest ih => rw [List.map_cons, sumOver_cons, ih, sumOver_cons]

/-- The circuits that a circuit calls, in order. -/
theorem Circuit.callees_eq (c : Circuit F) : c.callSites.map (·.callee) = c.instructions.filterMap Instruction.callee? := by
  rw [Circuit.callSites, List.map_filterMap]
  refine List.filterMap_congr fun i _ => ?_
  cases i <;> rfl

namespace CallTree
variable {V W : Type}

/-- A count of a circuit, added up over the circuits of a tree. -/
def total (D : Design F) (count : Circuit F → Nat) (tree : CallTree V) : Nat :=
  sumOver (fun id => (D.get? id).elim 0 count) tree.circuits

theorem total_node {id : CircuitId} {c : Circuit F} (found : D.get? id = some c) (count : Circuit F → Nat)
    (values : Array V) (calls : List (CallTree V)) :
    (node id values calls).total D count = count c + sumOver (total D count) calls := by
  rw [total, circuits_node, sumOver_cons, found, Option.elim_some, sumOver_flatMap]
  rfl

theorem Unfolds.total_eq {tree : CallTree V} {other : CallTree W} (unfolds : tree.Unfolds D)
    (unfolds' : other.Unfolds D) (same : tree.circuit = other.circuit) (count : Circuit F → Nat) :
    tree.total D count = other.total D count := by
  rw [total, unfolds.circuits_eq unfolds' same, total]

end CallTree

/-- In a valid design the calls of every circuit can be written out. -/
theorem Design.Valid.exists_unfolding (valid : D.Valid) {id : CircuitId} {c : Circuit F} (found : D.get? id = some c) :
    ∃ tree : CallTree Unit, tree.circuit = id ∧ tree.Unfolds D := by
  refine valid.depth_induction
    (P := fun _ id => ∀ {c}, D.get? id = some c → ∃ tree : CallTree Unit, tree.circuit = id ∧ tree.Unfolds D)
    ?_ le_rfl id found
  intro _ id callees c found
  have fits := (valid.wellFormed found).instructions.fits
  have trees : ∀ callee ∈ c.instructions.filterMap Instruction.callee?,
      ∃ tree : CallTree Unit, tree.circuit = callee ∧ tree.Unfolds D := by
    intro callee called
    obtain ⟨instruction, member, calling⟩ := List.mem_filterMap.mp called
    obtain ⟨c', present⟩ := (fits instruction member).present calling
    exact callees found instruction member callee calling present
  obtain ⟨calls, pairs⟩ := forall₂_of_exists trees
  refine ⟨.node id #[] calls, rfl, .node found ?_ ?_⟩
  · rw [Circuit.callees_eq, ← List.forall₂_eq_eq_eq, List.forall₂_map_right_iff]
    exact pairs.imp fun _ _ related => related.1.symm
  · exact ((List.forall₂_and_left _ _).mp (pairs.flip.imp fun _ _ related => ⟨related.2, related.1⟩)).1

/-! ### What is counted -/

/-- What expanded counts tell of a circuit. -/
inductive Gauge where
  | instances | muls | constraints | hintOutputs | wires

namespace Gauge

def read : Gauge → ExpandedCounts → Nat
  | instances, counts => counts.instances
  | muls, counts => counts.muls
  | constraints, counts => counts.constraints
  | hintOutputs, counts => counts.hintOutputs
  | wires, counts => counts.wires

/-- What a circuit has of it without its calls. -/
def own : Gauge → Circuit F → Nat
  | instances, _ => 1
  | muls, c => c.instructions.countP fun i => i.kind == .product
  | constraints, c => c.constraints.length
  | hintOutputs, c => sumOver (fun i => if i.kind = .hint then i.outputs.length else 0) c.instructions
  | wires, c => c.wireCount

/-- What a circuit has of it before its instructions are counted. -/
def initial : Gauge → Circuit F → Nat
  | instances, _ => 1
  | muls, _ => 0
  | constraints, c => c.constraints.length
  | hintOutputs, _ => 0
  | wires, c => c.wireCount

/-- What one instruction has of it that is no call. -/
def step : Gauge → Instruction F → Nat
  | muls, .product _ _ _ => 1
  | hintOutputs, .hint _ _ outputs => outputs.length
  | _, _ => 0

/-- Counting starts with this, unless the number of wires has wrapped. -/
theorem read_start {g : Gauge} {c : Circuit F} (small : g.initial c ≤ countLimit) : g.read (.start c) = g.initial c := by
  cases g with
  | wires => exact machineWord_of_lt (Nat.lt_succ_of_le small)
  | _ => rfl

theorem own_eq (g : Gauge) (c : Circuit F) : g.own c = g.initial c + sumOver g.step c.instructions := by
  have none (instructions : List (Instruction F)) : sumOver (fun _ => 0) instructions = 0 := by
    induction instructions with
    | nil => rfl
    | cons _ rest ih => rw [sumOver_cons, ih]
  cases g with
  | instances => exact congrArg (1 + ·) (none c.instructions).symm
  | constraints => exact congrArg (c.constraints.length + ·) (none c.instructions).symm
  | wires => exact congrArg (c.wireCount + ·) (none c.instructions).symm
  | muls =>
    rw [own, initial, Nat.zero_add]
    induction c.instructions with
    | nil => rfl
    | cons i rest ih =>
      rw [List.countP_cons, ih, sumOver_cons, Nat.add_comm]
      cases i <;> rfl
  | hintOutputs =>
    rw [own, initial, Nat.zero_add]
    induction c.instructions with
    | nil => rfl
    | cons i rest ih =>
      rw [sumOver_cons, ih, sumOver_cons]
      cases i <;> rfl

/-- Counting instructions in order, from a sum on and with the totals of their calls, an instruction has
    something of its own that takes the sum past the largest count. -/
inductive Overflows {V : Type} (D : Design F) (g : Gauge) : List (Instruction F) → List (CallTree V) → (sum : Nat) → Prop
  | here {i : Instruction F} {rest : List (Instruction F)} {calls : List (CallTree V)} {sum : Nat} :
    0 < g.step i → countLimit < sum + g.step i → Overflows D g (i :: rest) calls sum
  | next {i : Instruction F} {rest : List (Instruction F)} {calls : List (CallTree V)} {sum : Nat} :
    i.callee? = none → Overflows D g rest calls (sum + g.step i) → Overflows D g (i :: rest) calls sum
  | call {i : Instruction F} {callee : CircuitId} {rest : List (Instruction F)} {tree : CallTree V}
    {calls : List (CallTree V)} {sum : Nat} :
    i.callee? = some callee → Overflows D g rest calls (sum + tree.total D g.own) →
    Overflows D g (i :: rest) (tree :: calls) sum

theorem Overflows.lt {V : Type} {g : Gauge} {instructions : List (Instruction F)} {calls : List (CallTree V)} {sum : Nat}
    (overflows : g.Overflows D instructions calls sum) :
    countLimit < sum + sumOver g.step instructions + sumOver (CallTree.total D g.own) calls := by
  induction overflows with
  | here _ past => rw [sumOver_cons]; omega
  | next _ _ ih => rw [sumOver_cons]; omega
  | call _ _ ih => rw [sumOver_cons, sumOver_cons]; omega

end Gauge

/-- Somewhere in a tree, a circuit has something of its own that takes the sum past the largest count, from
    the start or in one of its instructions. -/
inductive CallTree.Overruns {V : Type} (D : Design F) (g : Gauge) : CallTree V → Prop
  | start {id : CircuitId} {c : Circuit F} {values : Array V} {calls : List (CallTree V)} : D.get? id = some c →
    countLimit < g.initial c → Overruns D g (node id values calls)
  | root {id : CircuitId} {c : Circuit F} {values : Array V} {calls : List (CallTree V)} : D.get? id = some c →
    g.Overflows D c.instructions calls (g.initial c) → Overruns D g (node id values calls)
  | inside {id : CircuitId} {values : Array V} {calls : List (CallTree V)} {tree : CallTree V} : tree ∈ calls →
    Overruns D g tree → Overruns D g (node id values calls)

theorem le_sumOver {α : Type} (count : α → Nat) {x : α} {xs : List α} (member : x ∈ xs) : count x ≤ sumOver count xs := by
  induction xs with
  | nil => cases member
  | cons first rest ih =>
    rw [sumOver_cons]
    rcases List.mem_cons.mp member with rfl | later
    · exact Nat.le_add_right ..
    · exact (ih later).trans (Nat.le_add_left ..)

/-- Only a total past the largest count overruns it. -/
theorem CallTree.Overruns.lt_total {V : Type} {g : Gauge} {tree : CallTree V} (overruns : tree.Overruns D g)
    (unfolds : tree.Unfolds D) : countLimit < tree.total D g.own := by
  induction overruns with
  | start found past =>
    rw [total_node found, Gauge.own_eq]
    omega
  | root found overflows =>
    rw [total_node found, Gauge.own_eq]
    exact overflows.lt
  | inside member _ ih =>
    obtain ⟨found, -, inside⟩ := unfolds
    rw [total_node found]
    exact (ih (inside _ member)).trans_le ((le_sumOver _ member).trans (Nat.le_add_left ..))

/-- What no instruction has by itself is not overrun if every circuit starts small. -/
theorem CallTree.not_overruns {V : Type} {g : Gauge} (none : ∀ i : Instruction F, g.step i = 0)
    (small : ∀ id c, D.get? id = some c → g.initial c ≤ countLimit) (tree : CallTree V) : ¬ tree.Overruns D g := by
  have never {instructions : List (Instruction F)} {calls : List (CallTree V)} {sum : Nat} :
      ¬ g.Overflows D instructions calls sum := by
    intro overflows
    induction overflows with
    | here some _ => exact some.ne' (none _)
    | next _ _ ih => exact ih
    | call _ _ ih => exact ih
  intro overruns
  induction overruns with
  | start found past => exact past.not_ge (small _ _ found)
  | root _ overflows => exact never overflows
  | inside _ _ ih => exact ih

/-! ### Counting -/

theorem saturatingAdd_min (a b : Nat) :
    saturatingAdd (min a countLimit) (min b countLimit) = min (a + b) countLimit := by
  rw [saturatingAdd]
  omega

theorem wrappingAdd_eq {a b : Nat} (small : a + b ≤ countLimit) : wrappingAdd a b = a + b :=
  Nat.mod_eq_of_lt (Nat.lt_succ_of_le small)

/-- What counting an instruction that is no call makes of the counts so far. -/
def ExpandedCounts.addOwn (counts : ExpandedCounts) : Instruction F → ExpandedCounts
  | .product _ _ _ => { counts with muls := wrappingAdd counts.muls 1 }
  | .hint _ _ outputs => { counts with hintOutputs := wrappingAdd counts.hintOutputs outputs.length }
  | _ => counts

namespace Gauge

theorem read_addCall (g : Gauge) (a b : ExpandedCounts) : g.read (a.addCall b) = saturatingAdd (g.read a) (g.read b) := by
  cases g <;> rfl

/-- A capped sum that an instruction does not take past the largest count by itself stays the capped sum. -/
theorem read_addOwn {g : Gauge} {counts : ExpandedCounts} {sum : Nat} (capped : g.read counts = min sum countLimit)
    {i : Instruction F} (small : 0 < g.step i → sum + g.step i ≤ countLimit) :
    g.read (counts.addOwn i) = min (sum + g.step i) countLimit := by
  have held : g.read counts ≤ countLimit := capped ▸ Nat.min_le_right ..
  have added : g.read (counts.addOwn i) = wrappingAdd (g.read counts) (g.step i) := by
    cases g <;> cases i <;> simp_all [read, step, ExpandedCounts.addOwn, wrappingAdd_eq]
  rw [added, capped]
  rcases Nat.eq_zero_or_pos (g.step i) with zero | some
  · rw [zero, wrappingAdd_eq (Nat.min_le_right ..), Nat.add_zero, Nat.add_zero]
  · have fits := small some
    rw [Nat.min_eq_left (by omega), Nat.min_eq_left fits, wrappingAdd_eq fits]

end Gauge

/-- Counts of a circuit tell the totals over its calls written out, capped at the largest count, wherever
    these are not overrun. -/
def ExpandedCounts.Tell (D : Design F) (id : CircuitId) (counts : ExpandedCounts) : Prop :=
  ∀ {V : Type} (tree : CallTree V), tree.circuit = id → tree.Unfolds D → ∀ g : Gauge, ¬ tree.Overruns D g →
    g.read counts = min (tree.total D g.own) countLimit

namespace Design

/-- The counts of a table tell totals. -/
def CountTable.Sound (D : Design F) (known : CountTable) : Prop :=
  ∀ {id : CircuitId} {counts : ExpandedCounts}, known.get? id = some counts → counts.Tell D id

/-- A table has counts for every circuit that an earlier one has counts for, and tells totals. -/
structure CountTable.Extends (D : Design F) (known next : CountTable) : Prop where
  sound : next.Sound D
  kept : ∀ {id : CircuitId}, known.contains id = true → next.contains id = true

theorem CountTable.Extends.refl {known : CountTable} (sound : known.Sound D) : known.Extends D known :=
  ⟨sound, id⟩

theorem CountTable.Extends.trans {first second third : CountTable} (left : first.Extends D second)
    (right : second.Extends D third) : first.Extends D third :=
  ⟨right.sound, fun held => right.kept (left.kept held)⟩

theorem CountTable.Extends.insert {known next : CountTable} (extends' : known.Extends D next) {id : CircuitId}
    {counts : ExpandedCounts} (tell : counts.Tell D id) : known.Extends D (next.insert id counts) := by
  refine ⟨fun {other _} found => ?_, fun {other} held => ?_⟩
  · rw [Table.get?_insert] at found
    split at found
    · rename_i same
      cases found
      exact same ▸ tell
    · exact extends'.sound found
  · rw [Table.contains, Table.get?_insert]
    split
    · rfl
    · exact extends'.kept held

/-- Wherever a count table tells totals, expanding a circuit gives counts that do, and such a table. -/
def Expands (D : Design F) (expand : CircuitId → CountTable → Except Fault (ExpandedCounts × CountTable))
    (id : CircuitId) : Prop :=
  ∀ {known next : CountTable} {counts : ExpandedCounts}, known.Sound D → expand id known = .ok (counts, next) →
    counts.Tell D id ∧ known.Extends D next

theorem countInstructions_own {expand : CircuitId → CountTable → Except Fault (ExpandedCounts × CountTable)}
    {i : Instruction F} (own : i.callee? = none) (rest : List (Instruction F)) (counts : ExpandedCounts)
    (known : CountTable) :
    countInstructions expand (i :: rest) counts known = countInstructions expand rest (counts.addOwn i) known := by
  cases i with
  | linear form out => rfl
  | product lhs rhs out => rfl
  | hint name inputs outputs => rfl
  | call callee inputs outputs => cases own

/-- Counting instructions adds up what they have of their own and the totals of their calls, capped. -/
theorem countInstructions_tell {expand : CircuitId → CountTable → Except Fault (ExpandedCounts × CountTable)}
    (expands : ∀ callee, D.Expands expand callee) {instructions : List (Instruction F)} {counts final : ExpandedCounts}
    {known next : CountTable} (sound : known.Sound D)
    (counted : countInstructions expand instructions counts known = .ok (final, next)) :
    known.Extends D next ∧ ∀ {V : Type} (g : Gauge) (calls : List (CallTree V)) (sum : Nat),
      instructions.filterMap Instruction.callee? = calls.map CallTree.circuit →
      (∀ tree ∈ calls, tree.Unfolds D ∧ ¬ tree.Overruns D g) → g.read counts = min sum countLimit →
      ¬ g.Overflows D instructions calls sum →
      g.read final = min (sum + sumOver g.step instructions + sumOver (CallTree.total D g.own) calls) countLimit := by
  induction instructions generalizing counts known with
  | nil =>
    cases counted
    refine ⟨.refl sound, fun g calls sum callees _ capped _ => ?_⟩
    obtain rfl : calls = [] := List.map_eq_nil_iff.mp callees.symm
    exact capped
  | cons i rest ih =>
    cases calling : i.callee? with
    | none =>
      rw [countInstructions_own calling] at counted
      obtain ⟨extends', tells⟩ := ih sound counted
      refine ⟨extends', fun g calls sum callees trees capped fits => ?_⟩
      rw [List.filterMap_cons_none calling] at callees
      have small (some : 0 < g.step i) : sum + g.step i ≤ countLimit :=
        not_lt.mp fun past => fits (.here some past)
      rw [tells g calls (sum + g.step i) callees trees (Gauge.read_addOwn capped small)
        (fun later => fits (.next calling later)), sumOver_cons, ← Nat.add_assoc]
    | some callee =>
      obtain ⟨inputs, outputs, rfl⟩ := Instruction.callee?_eq_some_iff.mp calling
      rw [countInstructions] at counted
      obtain ⟨⟨sub, between⟩, expanded, later⟩ := bind_eq_ok.mp counted
      obtain ⟨subTells, subExtends⟩ := expands callee sound expanded
      obtain ⟨extends', tells⟩ := ih subExtends.sound later
      refine ⟨subExtends.trans extends', fun g calls sum callees trees capped fits => ?_⟩
      rw [List.filterMap_cons_some calling] at callees
      obtain ⟨tree, calls, rfl, same, callees⟩ := List.map_eq_cons_iff.mp callees.symm
      obtain ⟨⟨unfolds, steady⟩, trees⟩ := List.forall_mem_cons.mp trees
      have added : g.read (counts.addCall sub) = min (sum + tree.total D g.own) countLimit := by
        rw [Gauge.read_addCall, capped, subTells tree same unfolds g steady, saturatingAdd_min]
      have silent : g.step (.call callee inputs outputs : Instruction F) = 0 := by cases g <;> rfl
      rw [tells g calls (sum + tree.total D g.own) callees.symm trees added (fun later => fits (.call calling later)),
        sumOver_cons, sumOver_cons, silent]
      congr 1
      omega

/-- Expanding a circuit gives counts that tell its totals. -/
theorem expands (depth : Nat) (id : CircuitId) : D.Expands (D.expand depth) id := by
  induction depth generalizing id with
  | zero =>
    intro known next counts _ expanded
    cases expanded
  | succ depth ih =>
    intro known next counts sound expanded
    rw [expand] at expanded
    cases held : known.get? id with
    | some old =>
      rw [held] at expanded
      cases expanded
      exact ⟨sound held, .refl sound⟩
    | none =>
      rw [held] at expanded
      obtain ⟨c, present, expanded⟩ := bind_eq_ok.mp expanded
      obtain ⟨⟨counts, between⟩, counted, inserted⟩ := bind_eq_ok.mp expanded
      cases inserted
      have found := circuit_eq_ok_iff.mp present
      obtain ⟨extends', tells⟩ := countInstructions_tell ih sound counted
      have tell : counts.Tell D id := by
        rintro V ⟨_, values, calls⟩ rfl ⟨found', callees, inside⟩ g steady
        cases found.symm.trans found'
        rw [CallTree.total_node found', Gauge.own_eq]
        have small : g.initial c ≤ countLimit := not_lt.mp fun past => steady (.start found' past)
        have started := (Gauge.read_start small).trans (Nat.min_eq_left small).symm
        refine tells g calls _ (c.callees_eq.symm.trans callees) ?_ started ?_
        · exact fun tree member => ⟨inside tree member, fun overruns => steady (.inside member overruns)⟩
        · exact fun overflows => steady (.root found' overflows)
      exact ⟨tell, extends'.insert tell⟩

theorem contains_expand {depth : Nat} {id : CircuitId} {known next : CountTable} {counts : ExpandedCounts}
    (expanded : D.expand depth id known = .ok (counts, next)) : next.contains id = true := by
  cases depth with
  | zero => cases expanded
  | succ depth =>
    rw [expand] at expanded
    cases held : known.get? id with
    | some old =>
      rw [held] at expanded
      cases expanded
      exact Table.contains_iff.mpr ⟨_, held⟩
    | none =>
      rw [held] at expanded
      obtain ⟨c, -, expanded⟩ := bind_eq_ok.mp expanded
      obtain ⟨⟨counts, between⟩, -, inserted⟩ := bind_eq_ok.mp expanded
      cases inserted
      rw [Table.contains, Table.get?_insert, if_pos rfl]
      rfl

/-- Expanding circuits one after the other gives a table that has counts for each. -/
theorem expandAll_extends {ids : List CircuitId} {known table : CountTable} (sound : known.Sound D)
    (expanded : D.expandAll ids known = .ok table) :
    known.Extends D table ∧ ∀ id ∈ ids, table.contains id = true := by
  induction ids generalizing known with
  | nil =>
    cases expanded
    exact ⟨.refl sound, List.forall_mem_nil _⟩
  | cons id rest ih =>
    rw [expandAll] at expanded
    obtain ⟨⟨counts, next⟩, first, later⟩ := bind_eq_ok.mp expanded
    obtain ⟨-, extends'⟩ := expands _ id sound first
    obtain ⟨further, all⟩ := ih extends'.sound later
    exact ⟨extends'.trans further, List.forall_mem_cons.mpr ⟨further.kept (contains_expand first), all⟩⟩

/-- The totals of a valid design can be computed, and those of every circuit are told. -/
theorem expandedCounts_tell (valid : D.Valid) :
    ∃ table, D.expandedCounts = .ok table ∧ ∀ {id : CircuitId} {c : Circuit F}, D.get? id = some c →
      ∃ counts, table.get? id = some counts ∧ counts.Tell D id := by
  obtain ⟨table, expanded⟩ := expandedCounts_succeeds valid
  have sound : (∅ : CountTable).Sound D := fun found => by cases found
  obtain ⟨extends', all⟩ := expandAll_extends sound expanded
  refine ⟨table, expanded, fun {id c} found => ?_⟩
  obtain ⟨counts, held⟩ := Table.contains_iff.mp (all id (Table.mem_keys_iff.mpr ⟨c, found⟩))
  exact ⟨counts, held, extends'.sound held⟩

/-- The circuits of a design are small enough for their own constraints and wires to be counted. -/
def Countable (D : Design F) : Prop :=
  ∀ c ∈ D.circuits.values, c.constraints.length ≤ countLimit ∧ c.wireCount ≤ countLimit

instance (D : Design F) : Decidable D.Countable :=
  inferInstanceAs (Decidable (∀ c ∈ D.circuits.values, c.constraints.length ≤ countLimit ∧ c.wireCount ≤ countLimit))

theorem Countable.start_le (countable : D.Countable) (g : Gauge) (id : CircuitId) (c : Circuit F)
    (found : D.get? id = some c) : g.initial c ≤ countLimit := by
  obtain ⟨constraints, wires⟩ := countable c (mem_values_of_get? found)
  cases g with
  | instances => exact (by decide : 1 ≤ countLimit)
  | muls => exact Nat.zero_le _
  | constraints => exact constraints
  | hintOutputs => exact Nat.zero_le _
  | wires => exact wires

/-- The expanded counts of a checked design are the totals over calls written out, capped at the largest
    count: always for instances, constraints and wires, and for products and hint outputs unless a circuit
    has some of its own that take the sum past the largest count. -/
theorem expandedCounts_saturate {D : Design F} (checked : D.validate = .ok ()) (countable : D.Countable) :
    ∃ table, D.expandedCounts = .ok table ∧ ∀ (id : CircuitId) (c : Circuit F), D.get? id = some c →
      ∃ counts, table.get? id = some counts ∧ (∃ tree : CallTree Unit, tree.circuit = id ∧ tree.Unfolds D) ∧
        ∀ tree : CallTree Unit, tree.circuit = id → tree.Unfolds D →
          counts.instances = min (tree.total D Gauge.instances.own) countLimit ∧
          counts.constraints = min (tree.total D Gauge.constraints.own) countLimit ∧
          counts.wires = min (tree.total D Gauge.wires.own) countLimit ∧
          ∀ g : Gauge, (¬ tree.Overruns D g → g.read counts = min (tree.total D g.own) countLimit) ∧
            (tree.Overruns D g → countLimit < tree.total D g.own) := by
  have valid := D.valid_of_validate checked
  obtain ⟨table, expanded, told⟩ := expandedCounts_tell valid
  refine ⟨table, expanded, fun id c found => ?_⟩
  obtain ⟨counts, held, tell⟩ := told found
  refine ⟨counts, held, valid.exists_unfolding found, fun tree same unfolds => ⟨?_, ?_, ?_, fun g => ?_⟩⟩
  · exact tell tree same unfolds .instances (tree.not_overruns (fun _ => rfl) (countable.start_le _))
  · exact tell tree same unfolds .constraints (tree.not_overruns (fun _ => rfl) (countable.start_le _))
  · exact tell tree same unfolds .wires (tree.not_overruns (fun _ => rfl) (countable.start_le _))
  · exact ⟨tell tree same unfolds g, fun overruns => overruns.lt_total unfolds⟩

/-- A circuit that calls the next one twice, unless it is the last. The last and the entry circuit have a
    product, after their calls. -/
def doublingCircuit (id : CircuitId) : Circuit .mersenne31 :=
  let calls := if id = 64 then [] else [.call (id + 1) [] [], .call (id + 1) [] []]
  let products := if id = .entry ∨ id = 64 then [.product (.wire .one) (.wire .one) 1] else []
  ⟨0, 0, calls ++ products, [], []⟩

def doubling : Design .mersenne31 := .ofList ((List.range 65).map fun id => (id, doublingCircuit id))

theorem doubling_checked : doubling.validate = .ok () := by decide +kernel

theorem doubling_countable : doubling.Countable := by decide +kernel

theorem doubling_counts :
    doubling.expandedCounts.toOption.map (fun table => (table.get? .entry, table.get? 1)) =
      some (some ⟨countLimit, 0, 0, 0, countLimit⟩, some ⟨countLimit, 9223372036854775808, 0, 0, countLimit⟩) := by
  decide +kernel

theorem doubling_expandedCounts_saturate :
    doubling.validate = .ok () ∧ doubling.Countable ∧
      ∃ table, doubling.expandedCounts = .ok table ∧ ∀ (id : CircuitId) (c : Circuit .mersenne31), doubling.get? id = some c →
        ∃ counts, table.get? id = some counts ∧ (∃ tree : CallTree Unit, tree.circuit = id ∧ tree.Unfolds doubling) ∧
          ∀ tree : CallTree Unit, tree.circuit = id → tree.Unfolds doubling →
            counts.instances = min (tree.total doubling Gauge.instances.own) countLimit ∧
            counts.constraints = min (tree.total doubling Gauge.constraints.own) countLimit ∧
            counts.wires = min (tree.total doubling Gauge.wires.own) countLimit ∧
            ∀ g : Gauge, (¬ tree.Overruns doubling g → g.read counts = min (tree.total doubling g.own) countLimit) ∧
              (tree.Overruns doubling g → countLimit < tree.total doubling g.own) :=
  ⟨doubling_checked, doubling_countable, expandedCounts_saturate doubling_checked doubling_countable⟩

/-- The product after the calls takes the sum past the largest count, and it wraps to zero. -/
theorem doubling_wraps :
    doubling.validate = .ok () ∧
      (∃ table counts, doubling.expandedCounts = .ok table ∧ table.get? .entry = some counts ∧ counts.muls = 0) ∧
      ∀ tree : CallTree Unit, tree.circuit = .entry → tree.Unfolds doubling →
        countLimit < tree.total doubling Gauge.muls.own := by
  obtain ⟨table, expanded, told⟩ := expandedCounts_tell (doubling.valid_of_validate doubling_checked)
  have evaluated := doubling_counts
  rw [expanded] at evaluated
  obtain ⟨entry, second⟩ := Prod.mk.inj (Option.some.inj evaluated)
  refine ⟨doubling_checked, ⟨table, _, expanded, entry, rfl⟩, ?_⟩
  have called {tree : CallTree Unit} (same : tree.circuit = 1) (unfolds : tree.Unfolds doubling) :
      9223372036854775808 ≤ tree.total doubling Gauge.muls.own := by
    by_cases overruns : tree.Overruns doubling .muls
    · exact (by decide : 9223372036854775808 ≤ countLimit).trans (overruns.lt_total unfolds).le
    · obtain ⟨counts, held, tell⟩ := told (by decide +kernel : doubling.get? 1 = some (doublingCircuit 1))
      cases held.symm.trans second
      have capped : 9223372036854775808 = min (tree.total doubling Gauge.muls.own) countLimit :=
        tell tree same unfolds .muls overruns
      omega
  -- The entry circuit has one product and two calls, each with half of the largest count and more.
  have first : doubling.get? .entry = some (doublingCircuit .entry) := by decide +kernel
  have product : Gauge.muls.own (doublingCircuit .entry) = 1 := rfl
  rintro ⟨id, values, calls⟩ (rfl : id = .entry) ⟨found, callees, inside⟩
  cases first.symm.trans found
  obtain ⟨left, _, rfl, sameLeft, others⟩ := List.map_eq_cons_iff.mp callees.symm
  obtain ⟨right, _, rfl, sameRight, none⟩ := List.map_eq_cons_iff.mp others
  obtain rfl := List.map_eq_nil_iff.mp none
  have leftHalf := called sameLeft (inside left (by simp))
  have rightHalf := called sameRight (inside right (by simp))
  rw [CallTree.total_node found, sumOver_cons, sumOver_cons, sumOver_nil, product]
  have limit : countLimit = 18446744073709551615 := by decide
  omega

end Design

end ArithCircuit
