import Mathlib.Data.Nat.Log
import Mathlib.Order.Bounds.Defs
import ArithCircuit.Proofs.Layered.Lookups
import ArithCircuit.Proofs.LinearForm.NormalForm

/-!
Folding is as shallow as it can be. A tree of binary gates over gates of depths `d₁` to `dₘ` reaches at
least the depth that `2 ^ d₁ + … + 2 ^ dₘ` needs as a power of two, since a gate at most doubles the
larger power of its operands. Joining the two shallowest summands rounds this sum up to a multiple of the
second power, which all later powers are multiples of, so no power of two comes in between.
-/
namespace ArithCircuit
variable {F : ScalarField}

/-! ### Trees of gates -/

/-- A tree of binary gates over gates that are given by their numbers. -/
inductive GateTree where
  | leaf (gate : Nat)
  | join (left right : GateTree)

/-- What gates of these depths ask for: the sum of the powers of two of their depths. -/
def load (depths : List Nat) : Nat := (depths.map (2 ^ ·)).sum

@[simp] theorem load_cons (depth : Nat) (depths : List Nat) : load (depth :: depths) = 2 ^ depth + load depths := by
  rw [load, List.map_cons, List.sum_cons, load]

theorem load_append (depths others : List Nat) : load (depths ++ others) = load depths + load others := by
  rw [load, List.map_append, List.sum_append, load, load]

theorem load_perm {depths others : List Nat} (same : depths.Perm others) : load depths = load others :=
  (same.map _).sum_eq

namespace GateTree

def leaves : GateTree → List Nat
  | leaf gate => [gate]
  | join left right => left.leaves ++ right.leaves

/-- The depth of the root, over leaves of known depths. -/
def depth (depthOf : Nat → Nat) : GateTree → Nat
  | leaf gate => depthOf gate
  | join left right => 1 + max (left.depth depthOf) (right.depth depthOf)

theorem load_leaves_le (depthOf : Nat → Nat) (tree : GateTree) :
    load (tree.leaves.map depthOf) ≤ 2 ^ tree.depth depthOf := by
  induction tree with
  | leaf gate => simp [leaves, depth, load]
  | join left right ihl ihr =>
    have growL : 2 ^ left.depth depthOf ≤ 2 ^ max (left.depth depthOf) (right.depth depthOf) :=
      Nat.pow_le_pow_right Nat.two_pos (le_max_left ..)
    have growR : 2 ^ right.depth depthOf ≤ 2 ^ max (left.depth depthOf) (right.depth depthOf) :=
      Nat.pow_le_pow_right Nat.two_pos (le_max_right ..)
    calc load ((join left right).leaves.map depthOf)
        = load (left.leaves.map depthOf) + load (right.leaves.map depthOf) := by
          rw [leaves, List.map_append, load_append]
      _ ≤ 2 ^ left.depth depthOf + 2 ^ right.depth depthOf := Nat.add_le_add ihl ihr
      _ ≤ 2 ^ (join left right).depth depthOf := by
          rw [depth, pow_add]
          omega

/-- No tree over gates is shallower than what the gates ask for. -/
theorem clog_load_le (depthOf : Nat → Nat) (tree : GateTree) {gates : List Nat} (leaves : tree.leaves.Perm gates) :
    Nat.clog 2 (load (gates.map depthOf)) ≤ tree.depth depthOf := by
  rw [← load_perm (leaves.map depthOf)]
  exact Nat.clog_le_of_le_pow (load_leaves_le depthOf tree)

end GateTree

/-- Depths that are all at least `d` ask for a multiple of `2 ^ d`. -/
theorem dvd_load {d : Nat} {depths : List Nat} (deep : ∀ e ∈ depths, d ≤ e) : 2 ^ d ∣ load depths := by
  refine List.dvd_sum fun power member => ?_
  obtain ⟨e, listed, rfl⟩ := List.mem_map.mp member
  exact Nat.pow_dvd_pow 2 (deep e listed)

/-- Joining the two shallowest gates asks for no more in the end. -/
theorem clog_load_join {d e : Nat} {depths : List Nat} (shallowest : d ≤ e) (deep : ∀ f ∈ depths, e ≤ f) :
    Nat.clog 2 (load ((1 + max d e) :: depths)) = Nat.clog 2 (load (d :: e :: depths)) := by
  -- Both sums stay below the same powers of two.
  suffices bounds : ∀ n, load ((1 + max d e) :: depths) ≤ 2 ^ n ↔ load (d :: e :: depths) ≤ 2 ^ n by
    refine le_antisymm ?_ ?_
    · exact Nat.clog_le_of_le_pow ((bounds _).mpr (Nat.le_pow_clog Nat.one_lt_two _))
    · exact Nat.clog_le_of_le_pow ((bounds _).mp (Nat.le_pow_clog Nat.one_lt_two _))
  intro n
  obtain ⟨r, rest⟩ := dvd_load deep
  have small : 2 ^ d ≤ 2 ^ e := Nat.pow_le_pow_right Nat.two_pos shallowest
  have positive : 0 < 2 ^ d := Nat.two_pow_pos d
  rw [max_eq_right shallowest, load_cons, load_cons, load_cons, rest, pow_add, pow_one]
  constructor
  · intro fits
    omega
  · intro fits
    -- A power of two that is larger than `2 ^ e` is a multiple of it.
    have larger : e ≤ n := (Nat.pow_le_pow_iff_right Nat.one_lt_two).mp (by omega : 2 ^ e ≤ 2 ^ n)
    obtain ⟨q, power⟩ := Nat.pow_dvd_pow 2 larger
    rw [power] at fits ⊢
    have next : 1 + r < q := by
      refine Nat.lt_of_mul_lt_mul_left (a := 2 ^ e) ?_
      rw [Nat.mul_add, Nat.mul_one]
      omega
    calc 2 * 2 ^ e + 2 ^ e * r = 2 ^ e * (1 + r + 1) := by ring
      _ ≤ 2 ^ e * q := Nat.mul_le_mul_left _ next

/-! ### Joining summands -/

namespace Arena
variable {arena next : Arena F}

/-- A gate is the root of a tree of sums. -/
inductive Sums (arena : Arena F) : GateTree → Nat → Prop
  | leaf (gate : Nat) : Sums arena (.leaf gate) gate
  | join {left right : GateTree} {a b gate : Nat} {coef : Scalar F} : arena.gates[gate]? = some (.add a b coef) →
    Sums arena left a → Sums arena right b → Sums arena (.join left right) gate

theorem depth_eq (wellFormed : arena.WellFormed) {i : Nat} {gate : Gate F} (found : arena.gates[i]? = some gate) :
    arena.depth i = arena.depthOver gate := by
  rw [gates, List.getElem?_map, Array.getElem?_toList] at found
  obtain ⟨node, here, rfl⟩ := Option.map_eq_some_iff.mp found
  rw [← wellFormed.depths here, depth, here]

/-- The root of a tree of sums has the depth of the tree. -/
theorem Sums.depth_eq (wellFormed : arena.WellFormed) {tree : GateTree} {gate : Nat} (sums : arena.Sums tree gate) :
    arena.depth gate = tree.depth arena.depth := by
  induction sums with
  | leaf gate => rfl
  | join found _ _ ihl ihr => rw [Arena.depth_eq wellFormed found, GateTree.depth, ← ihl, ← ihr]; rfl

theorem Sums.kept (nodes : arena.nodes.toList <+: next.nodes.toList) {tree : GateTree} {gate : Nat}
    (sums : arena.Sums tree gate) : next.Sums tree gate := by
  induction sums with
  | leaf gate => exact .leaf gate
  | join found _ _ ihl ihr => exact .join (gate_kept nodes found) ihl ihr

/-- A new sum lies one below its deeper operand. -/
theorem push_sum (wellFormed : arena.WellFormed) {a b : Nat} (insideA : a < arena.nodes.size)
    (insideB : b < arena.nodes.size) (coef : Scalar F) :
    Advances #[] arena (arena.push (.add a b coef)).2 [] True ∧
      (arena.push (.add a b coef)).2.gates[arena.nodes.size]? = some (.add a b coef) ∧
      (arena.push (.add a b coef)).2.depth arena.nodes.size = 1 + max (arena.depth a) (arena.depth b) := by
  have admitted : arena.Admits (.add a b coef) := by
    rintro a' b' ⟨⟩
    exact ⟨insideA, insideB⟩
  have advances := push_advances #[] wellFormed admitted rfl
  have here : (arena.push (.add a b coef)).2.gates[arena.nodes.size]? = some (.add a b coef) := by
    rw [push_gates, ← length_gates, List.getElem?_concat_length]
  refine ⟨advances, here, ?_⟩
  rw [depth_eq advances.wellFormed here, depthOver_kept advances.nodes admitted]
  rfl

end Arena

namespace Summand

theorem sorted_enqueue {s : Summand F} {queue : List (Summand F)}
    (sorted : queue.Pairwise fun a b => a.depth ≤ b.depth) :
    (enqueue s queue).Pairwise fun a b => a.depth ≤ b.depth := by
  induction queue with
  | nil => exact List.pairwise_singleton _ _
  | cons first rest ih =>
    obtain ⟨below, restSorted⟩ := List.pairwise_cons.mp sorted
    rw [enqueue]
    split
    · rename_i before
      refine List.pairwise_cons.mpr ⟨List.forall_mem_cons.mpr ⟨before.le, ?_⟩, sorted⟩
      exact fun u member => before.le.trans (below u member)
    · rename_i after
      refine List.pairwise_cons.mpr ⟨fun u member => ?_, ih restSorted⟩
      rcases List.mem_cons.mp ((enqueue_perm s rest).mem_iff.mp member) with rfl | old
      · exact not_lt.mp after
      · exact below u old

theorem sorted_enqueueFirst {s : Summand F} {queue : List (Summand F)}
    (sorted : queue.Pairwise fun a b => a.depth ≤ b.depth) :
    (enqueueFirst s queue).Pairwise fun a b => a.depth ≤ b.depth := by
  induction queue with
  | nil => exact List.pairwise_singleton _ _
  | cons first rest ih =>
    obtain ⟨below, restSorted⟩ := List.pairwise_cons.mp sorted
    rw [enqueueFirst]
    split
    · rename_i before
      refine List.pairwise_cons.mpr ⟨fun u member => ?_, ih restSorted⟩
      rcases List.mem_cons.mp ((enqueueFirst_perm s rest).mem_iff.mp member) with rfl | old
      · exact before.le
      · exact below u old
    · rename_i after
      refine List.pairwise_cons.mpr ⟨List.forall_mem_cons.mpr ⟨not_lt.mp after, ?_⟩, sorted⟩
      exact fun u member => (not_lt.mp after).trans (below u member)

theorem sorted_queue (arena : Arena F) (form : LinearForm F) :
    (queue arena form).Pairwise fun a b => a.depth ≤ b.depth := by
  rw [queue]
  induction form.terms with
  | nil => exact .nil
  | cons t rest ih => exact sorted_enqueueFirst ih

/-- Joining a queue gives the root of a tree of sums over all its gates, no deeper than these ask for. Gates
    of the queue may be roots of trees themselves. -/
theorem join_sums (site : Site) (form : LinearForm F) {queue : List (Summand F)} {arena : Arena F}
    (wellFormed : arena.WellFormed) (summands : ∀ s ∈ queue, s.gate < arena.nodes.size ∧ s.depth = arena.depth s.gate)
    (sorted : queue.Pairwise fun a b => a.depth ≤ b.depth) {trees : Nat → GateTree}
    (roots : ∀ s ∈ queue, arena.Sums (trees s.gate) s.gate) {gate : Nat} {coef : Scalar F} {next : Arena F}
    (joined : join site form queue arena = .ok (.scaled gate coef, next)) :
    arena.nodes.toList <+: next.nodes.toList ∧ next.WellFormed ∧
      next.depth gate = Nat.clog 2 (load (queue.map Summand.depth)) ∧
      ∃ tree, next.Sums tree gate ∧ tree.leaves.Perm (queue.flatMap fun s => (trees s.gate).leaves) := by
  fun_induction join site form queue arena generalizing trees with
  | case1 arena => cases joined
  | case2 arena s =>
    cases joined
    obtain ⟨-, depth⟩ := summands s (List.mem_singleton_self s)
    refine ⟨List.prefix_rfl, wellFormed, ?_, trees s.gate, roots s (List.mem_singleton_self s), by simp⟩
    simp [load, depth, Nat.clog_pow]
  | case3 arena s t rest none => cases joined
  | case4 arena s t rest inverse found new after pushed ih =>
    obtain ⟨⟨insideS, depthS⟩, ⟨insideT, depthT⟩, others⟩ :
        (s.gate < arena.nodes.size ∧ s.depth = arena.depth s.gate) ∧
          (t.gate < arena.nodes.size ∧ t.depth = arena.depth t.gate) ∧
          ∀ u ∈ rest, u.gate < arena.nodes.size ∧ u.depth = arena.depth u.gate := by simpa using summands
    obtain ⟨rootS, rootT, rootOthers⟩ : arena.Sums (trees s.gate) s.gate ∧ arena.Sums (trees t.gate) t.gate ∧
        ∀ u ∈ rest, arena.Sums (trees u.gate) u.gate := by simpa using roots
    obtain ⟨below, restBelow, restSorted⟩ : (s.depth ≤ t.depth ∧ ∀ u ∈ rest, s.depth ≤ u.depth) ∧
        (∀ u ∈ rest, t.depth ≤ u.depth) ∧ rest.Pairwise fun a b => a.depth ≤ b.depth := by simpa using sorted
    obtain ⟨advances, here, depth⟩ := Arena.push_sum wellFormed insideS insideT (t.coef * inverse)
    have size := Arena.size_push (.add s.gate t.gate (t.coef * inverse)) arena
    obtain ⟨rfl, rfl⟩ : arena.nodes.size = new ∧ (arena.push (.add s.gate t.gate (t.coef * inverse))).2 = after :=
      Prod.ext_iff.mp pushed
    rw [← depthS, ← depthT] at depth
    generalize (arena.push (.add s.gate t.gate (t.coef * inverse))).2 = after at *
    -- The new gate stands for the two trees joined; the others keep theirs, since its number is new.
    let grown := Function.update trees arena.nodes.size (.join (trees s.gate) (trees t.gate))
    have grownHere : grown arena.nodes.size = .join (trees s.gate) (trees t.gate) := Function.update_self ..
    have grownOther {u : Summand F} (member : u ∈ rest) : grown u.gate = trees u.gate :=
      Function.update_of_ne (others u member).1.ne ..
    have perm := enqueue_perm ⟨after.depth arena.nodes.size, arena.nodes.size, s.coef⟩ rest
    have laterRoots : ∀ u ∈ enqueue ⟨after.depth arena.nodes.size, arena.nodes.size, s.coef⟩ rest,
        after.Sums (grown u.gate) u.gate := by
      intro u member
      rcases List.mem_cons.mp (perm.mem_iff.mp member) with rfl | old
      · rw [grownHere]
        exact .join here (rootS.kept advances.nodes) (rootT.kept advances.nodes)
      · rw [grownOther old]
        exact (rootOthers u old).kept advances.nodes
    have laterSummands : ∀ u ∈ enqueue ⟨after.depth arena.nodes.size, arena.nodes.size, s.coef⟩ rest,
        u.gate < after.nodes.size ∧ u.depth = after.depth u.gate := by
      intro u member
      rcases List.mem_cons.mp (perm.mem_iff.mp member) with rfl | old
      · exact ⟨size ▸ Nat.lt_succ_self _, rfl⟩
      · obtain ⟨inside, depthU⟩ := others u old
        exact ⟨advances.inside inside, by rw [depthU, Arena.depth_kept advances.nodes inside]⟩
    obtain ⟨nodes, wellFormed', deep, tree, sums, leaves⟩ :=
      ih advances.wellFormed laterSummands (sorted_enqueue restSorted) laterRoots joined
    refine ⟨advances.nodes.trans nodes, wellFormed', ?_, tree, sums, leaves.trans ?_⟩
    · rw [deep, load_perm (perm.map _), List.map_cons, depth, clog_load_join below.1 (by simpa using restBelow)]
      rfl
    · have others : (rest.flatMap fun u => (grown u.gate).leaves) = rest.flatMap fun u => (trees u.gate).leaves :=
        List.flatMap_congr fun u member => by rw [grownOther member]
      refine (perm.flatMap_right _).trans (.of_eq ?_)
      rw [List.flatMap_cons, List.flatMap_cons, List.flatMap_cons, others, grownHere, GateTree.leaves,
        List.append_assoc]

end Summand

/-! ### Folding forms -/

/-- The coefficient of a gate in a wire value, where a constant is a multiple of the gate `one`. -/
def WireValue.coefOf (one gate : Nat) : WireValue F → Scalar F
  | .constant k => if one = gate then k else 0
  | .scaled other coef => if other = gate then coef else 0

/-- The coefficient of a gate in a form over wire values: what the wires of the form contribute, added up. -/
def Arena.coefOf (arena : Arena F) (form : LinearForm F) (values : Array (WireValue F)) (gate : Nat) : Scalar F :=
  form.eval fun w => (values.getD w (.constant 0)).coefOf (arena.constant 1).1 gate

namespace LinearForm

theorem coefficient_append (terms others : List (Term F)) (w : Wire) :
    coefficient (terms ++ others) w = coefficient terms w + coefficient others w :=
  total_append _ _ _

/-- The wires of collected terms are those with a coefficient other than zero. -/
theorem mem_wires_ofTerms {terms : List (Term F)} {w : Wire} :
    w ∈ (ofTerms terms).terms.map Term.wire ↔ coefficient terms w ≠ 0 := by
  have same : coefficient (ofTerms terms).terms w = coefficient terms w := by
    rw [coefficient, ← eval_eq_total, eval_ofTerms, coefficient]
  rw [← same, List.mem_map]
  constructor
  · rintro ⟨t, member, rfl⟩
    obtain ⟨nonzero, coef⟩ := (canonical_ofTerms terms).mem_iff.mp member
    rwa [coef]
  · intro nonzero
    exact ⟨⟨coefficient (ofTerms terms).terms w, w⟩, (canonical_ofTerms terms).mem_iff.mpr ⟨nonzero, rfl⟩, rfl⟩

theorem nodup_wires_ofTerms (terms : List (Term F)) : ((ofTerms terms).terms.map Term.wire).Nodup := by
  refine List.pairwise_map.mpr ((canonical_ofTerms terms).1.imp fun below => ?_)
  exact below.ne

end LinearForm

namespace GateSum

/-- Substituting wire values gives each gate the coefficient it has in the values of the wires. -/
theorem coefficient_ofForm (form : LinearForm F) (values : Array (WireValue F)) (one gate : Nat) :
    (if one = gate then (ofForm form values).constant else 0) + LinearForm.coefficient (ofForm form values).terms gate =
      form.eval fun w => (values.getD w (.constant 0)).coefOf one gate := by
  rw [LinearForm.eval_eq_total, ofForm]
  induction form.terms with
  | nil => simp [LinearForm.coefficient]
  | cons t rest ih =>
    rw [List.foldr_cons, LinearForm.total_cons, ← ih]
    cases values.getD t.wire (.constant 0) with
    | constant k =>
      simp only [WireValue.coefOf]
      split <;> ring
    | scaled other coef =>
      simp only [WireValue.coefOf, LinearForm.coefficient_cons, mul_ite, mul_zero]
      ring

theorem coefficient_addends (form : LinearForm F) (values : Array (WireValue F)) (arena : Arena F) (gate : Nat) :
    LinearForm.coefficient ((ofForm form values).addends arena).1 gate = arena.coefOf form values gate := by
  rw [Arena.coefOf, ← coefficient_ofForm, addends]
  split
  · rename_i zero
    rw [(Scalar.isZero_iff _).mp zero, ite_self, zero_add]
  · rw [LinearForm.coefficient_append, LinearForm.coefficient_cons, add_comm]
    exact congrArg (· + _) (add_zero _)

theorem addends_advances (sum : GateSum F) {arena : Arena F} (wellFormed : arena.WellFormed) :
    Arena.Advances #[] arena (sum.addends arena).2 [] True := by
  rw [addends]
  split
  · exact .refl wellFormed
  · exact (Arena.constant_places #[] 1 wellFormed).1

end GateSum

namespace Arena
variable {arena next : Arena F} {form : LinearForm F} {values : Array (WireValue F)} {gate : Nat} {coef : Scalar F}

/-- A gate is the root of a tree of sums over the listed gates, and no tree of binary gates over these is
    shallower. -/
structure Shallowest (arena : Arena F) (gates : List Nat) (gate : Nat) : Prop where
  sums : ∃ tree : GateTree, tree.leaves.Perm gates ∧ arena.Sums tree gate
  depth : arena.depth gate = Nat.clog 2 (gates.map (2 ^ arena.depth ·)).sum
  least : IsLeast {depth | ∃ tree : GateTree, tree.leaves.Perm gates ∧ tree.depth arena.depth = depth} (arena.depth gate)

/-- A tree of sums that is as deep as its leaves ask for is as shallow as any. -/
theorem Shallowest.of_sums (wellFormed : arena.WellFormed) {gates : List Nat} {tree : GateTree}
    (leaves : tree.leaves.Perm gates) (sums : arena.Sums tree gate)
    (depth : arena.depth gate = Nat.clog 2 (load (gates.map arena.depth))) : arena.Shallowest gates gate := by
  refine ⟨⟨tree, leaves, sums⟩, ?_, ⟨tree, leaves, (sums.depth_eq wellFormed).symm⟩, ?_⟩
  · rw [depth, load, List.map_map]
    rfl
  · rintro _ ⟨other, leaves, rfl⟩
    exact depth ▸ other.clog_load_le arena.depth leaves

/-- Joining the gates of collected terms gives a tree over these gates that is as shallow as any. -/
theorem shallowest_of_join {site : Site} {terms : List (Term F)} (wellFormed : arena.WellFormed)
    (inside : ∀ t ∈ terms, t.wire < arena.nodes.size)
    (joined : Summand.join site form (Summand.queue arena (LinearForm.ofTerms terms)) arena = .ok (.scaled gate coef, next)) :
    next.Shallowest ((LinearForm.ofTerms terms).terms.map Term.wire) gate := by
  have perm := Summand.queue_perm arena (LinearForm.ofTerms terms)
  have summands : ∀ s ∈ Summand.queue arena (LinearForm.ofTerms terms),
      s.gate < arena.nodes.size ∧ s.depth = arena.depth s.gate := by
    intro s member
    obtain ⟨t, listed, rfl⟩ := List.mem_map.mp (perm.mem_iff.mp member)
    exact ⟨(Summand.queue_ofTerms arena inside _ member).1, rfl⟩
  obtain ⟨nodes, wellFormed', depth, tree, sums, leaves⟩ := Summand.join_sums site form wellFormed summands
    (Summand.sorted_queue arena _) (fun s _ => .leaf s.gate) joined
  refine .of_sums wellFormed' (leaves.trans ((perm.flatMap_right _).trans (.of_eq ?_))) sums ?_
  · rw [List.flatMap_map]
    exact List.map_eq_flatMap.symm
  · rw [depth, load_perm (perm.map _), List.map_map, List.map_map]
    refine congrArg (Nat.clog 2 ∘ load) (List.map_congr_left fun t member => ?_)
    obtain ⟨u, listed, same⟩ := LinearForm.wire_mem_of_mem_ofTerms member
    exact (depth_kept nodes (same ▸ inside u listed)).symm

/-- Folding a form into a multiple of a gate joins the gates that are left with a coefficient other than
    zero, each once, by a tree of sums as shallow as any. -/
def FoldsShallowest (form : LinearForm F) (values : Array (WireValue F)) (arena : Arena F) : Prop :=
  ∀ (site : Site) (gate : Nat) (coef : Scalar F) (next : Arena F),
    arena.fold site form values = .ok (.scaled gate coef, next) →
    ∃ gates : List Nat, gates ≠ [] ∧ gates.Nodup ∧ (∀ g, g ∈ gates ↔ arena.coefOf form values g ≠ 0) ∧
      next.Shallowest gates gate

theorem foldsShallowest (wellFormed : arena.WellFormed) (sound : ∀ value ∈ values.toList, value.Sound arena)
    (form : LinearForm F) : FoldsShallowest form values arena := by
  intro site gate coef next folded
  obtain ⟨xs, mean⟩ := WireValue.exists_forall₂_means #[] sound
  rw [fold_eq] at folded
  split at folded
  · cases folded
  · split at folded
    · cases folded
    · rename_i nonempty
      refine ⟨_, ?_, LinearForm.nodup_wires_ofTerms _, fun g => ?_, shallowest_of_join
        (GateSum.addends_advances _ wellFormed).wellFormed
        (GateSum.addends_inside wellFormed (GateSum.ofForm_value mean form).2) folded⟩
      · exact mt List.map_eq_nil_iff.mp (mt List.isEmpty_iff.mpr nonempty)
      · rw [LinearForm.mem_wires_ofTerms, GateSum.coefficient_addends]

end Arena

/-! ### Lowering -/

/-- When the forms that an operation on gates folds are folded as shallow as they can be. -/
def Lookups.shallow : Lookups F (WireValue F) (Arena F) where
  form := Arena.FoldsShallowest
  product _ _ _ := True
  hint _ _ _ := True
  constrain := Arena.FoldsShallowest

theorem Reading.emit_shallow (inputs : Array (Scalar F)) : (Reading.emit inputs).Finds .shallow where
  form wellFormed mean _ := Arena.foldsShallowest wellFormed (WireValue.sound_of_forall₂_means mean) _
  product _ _ _ := trivial
  hint _ _ _ := trivial
  constrain wellFormed mean _ := Arena.foldsShallowest wellFormed (WireValue.sound_of_forall₂_means mean) _

/-- Forms are folded at the least depth: over the gates of any arena, and so in every fold that lowering a
    checked design makes. -/
theorem Design.emit_folds_shallowest {D : Design F} (checked : D.validate = .ok ()) :
    (∀ (arena : Arena F) (values : Array (WireValue F)) (form : LinearForm F), arena.WellFormed →
      (∀ value ∈ values.toList, value.Sound arena) → arena.FoldsShallowest form values) ∧
    ∃ entry, D.get? .entry = some entry ∧
      Interp.emit.InRange .shallow D .entry (Arena.empty.pushInputs entry.numInputs).1
        (Arena.empty.pushInputs entry.numInputs).2 := by
  refine ⟨fun arena values form wellFormed sound => Arena.foldsShallowest wellFormed sound form, ?_⟩
  have valid := D.valid_of_validate checked
  obtain ⟨entry, found⟩ := valid.entry
  obtain ⟨taken, count, first, means⟩ := Arena.pushInputs_spec #[] entry.numInputs Arena.wellFormed_empty
  exact ⟨entry, found, (Reading.emit_shallow #[]).inRange valid (fun _ _ _ _ _ => trivial) found first.wellFormed means
    count.symm⟩

/-- A design that adds up one, its inputs, a product of two and a product of three: gates of the depths
    0, 0, 0, 0, 1 and 2. -/
def Design.unevenSum : Design .mersenne31 :=
  .ofList [(.entry, ⟨3, 0, [.product (.wire 1) (.wire 2) 4, .product (.wire 3) (.wire 4) 5,
    .linear ⟨[⟨1, .one⟩, ⟨1, 1⟩, ⟨1, 2⟩, ⟨1, 3⟩, ⟨1, 4⟩, ⟨1, 5⟩]⟩ 6], [], [.wire 6]⟩)]

theorem Design.unevenSum_emit_folds_shallowest :
    Design.unevenSum.validate = .ok () ∧
      (Design.unevenSum.emit true).toOption.map (·.layers.length) = some (Nat.clog 2 (4 * 2 ^ 0 + 2 ^ 1 + 2 ^ 2) + 1) ∧
      (∀ (arena : Arena .mersenne31) (values : Array (WireValue .mersenne31)) (form : LinearForm .mersenne31),
        arena.WellFormed → (∀ value ∈ values.toList, value.Sound arena) → arena.FoldsShallowest form values) ∧
      ∃ entry, Design.unevenSum.get? .entry = some entry ∧
        Interp.emit.InRange .shallow Design.unevenSum .entry (Arena.empty.pushInputs entry.numInputs).1
          (Arena.empty.pushInputs entry.numInputs).2 :=
  ⟨by decide, by decide +kernel, Design.emit_folds_shallowest (by decide)⟩

end ArithCircuit
