import ArithCircuit.Proofs.Circuit.Validity

/-!
Designs that pass their check. The check of one circuit asks for its rules and for no call to itself;
the walk of the calls finds no cycle where every call goes to a circuit of lower rank.
-/
namespace ArithCircuit
variable {F : ScalarField}

namespace LinearForm

/-- A form can be read exactly when it is canonical and every wire of it has a value. -/
theorem readable_iff {n : Nat} {e : LinearForm F} : e.Readable n ↔ Canonical e.terms ∧ e.Reads n := by
  constructor
  · intro readable
    exact ⟨(canonicalTerms_iff e.terms).mp readable.1, readable.reads⟩
  · rintro ⟨canonical, reads⟩
    refine ⟨(canonicalTerms_iff e.terms).mpr canonical, ?_⟩
    have bounded : ∀ w, e.maxWire? = some w → ¬ n ≤ w := by
      intro w found
      obtain ⟨t, last, rfl⟩ := Option.map_eq_some_iff.mp found
      exact Nat.not_le.mpr (reads t (List.mem_of_getLast? last))
    simpa [undefined?, Option.filter_eq_none_iff] using bounded

namespace Readable
variable {m n : Nat} {a b e : LinearForm F}

theorem canonical (readable : e.Readable n) : Canonical e.terms := (readable_iff.mp readable).1

theorem mono (le : m ≤ n) (readable : e.Readable m) : e.Readable n :=
  readable_iff.mpr ⟨readable.canonical, reads_mono le readable.reads⟩

theorem zero (n : Nat) : (LinearForm.zero : LinearForm F).Readable n := readable_iff.mpr ⟨canonical_zero, reads_zero n⟩

theorem wire {w : Wire} (below : w < n) : (LinearForm.wire w : LinearForm F).Readable n :=
  readable_iff.mpr ⟨canonical_term 1 w, reads_wire below⟩

theorem constant (positive : 0 < n) (k : Scalar F) : (LinearForm.constant k).Readable n :=
  readable_iff.mpr ⟨canonical_term k Wire.one, reads_constant positive k⟩

theorem add (left : a.Readable n) (right : b.Readable n) : (a + b).Readable n :=
  readable_iff.mpr ⟨canonical_merge one_ne_zero left.canonical right.canonical, left.reads.add right.reads⟩

theorem sub (left : a.Readable n) (right : b.Readable n) : (a - b).Readable n :=
  readable_iff.mpr
    ⟨canonical_merge (neg_ne_zero.mpr one_ne_zero) left.canonical right.canonical, left.reads.sub right.reads⟩

theorem scale (readable : e.Readable n) (c : Scalar F) : (e.scale c).Readable n :=
  readable_iff.mpr ⟨canonical_scale readable.canonical c, readable.reads.scale c⟩

theorem neg (readable : e.Readable n) : (-e).Readable n := readable.scale (-1)

end Readable
end LinearForm

theorem Sequenced.fits {D : Design F} {n : Nat} {instructions : List (Instruction F)}
    (sequenced : Sequenced D n instructions) : ∀ i ∈ instructions, i.Fits D := by
  induction instructions generalizing n with
  | nil => simp
  | cons i rest ih =>
    obtain ⟨-, first, -, later⟩ := sequenced
    exact List.forall_mem_cons.mpr ⟨first, ih later⟩

theorem Instruction.Fits.present {D : Design F} {i : Instruction F} (fits : i.Fits D) {callee : CircuitId}
    (calls : i.callee? = some callee) : ∃ c, D.get? callee = some c := by
  cases i with
  | linear => cases calls
  | product => cases calls
  | hint => cases calls
  | call =>
    cases calls
    obtain ⟨c, found, -⟩ := fits
    exact ⟨c, found⟩

namespace Circuit

theorem checkCall_eq_ok {D : Design F} {id : CircuitId} {location : Location} {i : Instruction F} (fits : i.Fits D)
    (other : i.callee? ≠ some id) : checkCall D id location i = .ok () := by
  cases i with
  | linear => rfl
  | product => rfl
  | hint => rfl
  | call callee inputs outputs =>
    obtain ⟨c, found, same⟩ := fits
    have differ : callee ≠ id := by simpa [Instruction.callee?] using other
    simp [checkCall, differ, found, same]

theorem checkInstructions_eq_ok {D : Design F} {id : CircuitId} {i n : Nat} {instructions : List (Instruction F)}
    (sequenced : Sequenced D n instructions) (others : Design.CallsIn (· ≠ id) instructions) :
    checkInstructions D id i n instructions = .ok (n + sumOver (·.outputs.length) instructions) := by
  induction instructions generalizing i n with
  | nil => simp [checkInstructions]
  | cons instruction rest ih =>
    obtain ⟨readable, fits, outputs, later⟩ := sequenced
    obtain ⟨other, others⟩ := List.forall_mem_cons.mp others
    have distinct : instruction.callee? ≠ some id := fun same => other id same rfl
    rw [checkInstructions, checkForms_eq_ok_iff.mpr readable, ok_bind, checkCall_eq_ok fits distinct, ok_bind,
      checkSequence_eq_ok_iff.mpr ⟨outputs, rfl⟩, ok_bind, ih later others, sumOver_cons, Nat.add_assoc]

/-- A circuit that keeps the rules and does not call itself passes its check. -/
theorem check_eq_ok {D : Design F} {id : CircuitId} {c : Circuit F} (wellFormed : c.WellFormed D)
    (others : Design.CallsIn (· ≠ id) c.instructions) : c.check D id = .ok () := by
  rw [check, if_neg (Nat.not_lt.mpr wellFormed.numPublic), checkInstructions_eq_ok wellFormed.instructions others, ok_bind]
  have constraints : checkForms id .constraint c.wireCount 0 c.constraints = .ok () :=
    checkForms_eq_ok_iff.mpr wellFormed.constraints
  have outputs : checkForms id .output c.wireCount 0 c.outputs = .ok () := checkForms_eq_ok_iff.mpr wellFormed.outputs
  rw [wireCount] at constraints outputs
  rw [constraints, ok_bind, outputs]

end Circuit

namespace Design
variable {D : Design F}

theorem checkCircuits_eq_ok {entries : List (CircuitId × Circuit F)} (checks : ∀ e ∈ entries, e.2.check D e.1 = .ok ()) :
    D.checkCircuits entries = .ok () := by
  induction entries with
  | nil => rfl
  | cons e rest ih =>
    obtain ⟨first, later⟩ := List.forall_mem_cons.mp checks
    rw [checkCircuits, first, ok_bind, ih later]

theorem followCalls_succeeds {visit : CircuitId → List CircuitId → Except Fault (List CircuitId)} (id : CircuitId)
    {path : List CircuitId} (i : Nat) {instructions : List (Instruction F)} (finished : List CircuitId)
    (visits : CallsIn (fun callee => callee ∉ path ∧ ∀ finished, ∃ result, visit callee finished = .ok result) instructions) :
    ∃ result, followCalls visit id path i instructions finished = .ok result := by
  induction instructions generalizing i finished with
  | nil => exact ⟨finished, rfl⟩
  | cons instruction rest ih =>
    obtain ⟨first, later⟩ := List.forall_mem_cons.mp visits
    rw [followCalls]
    cases calls : instruction.callee? with
    | none => exact ih _ _ later
    | some callee =>
      obtain ⟨offPath, visited⟩ := first callee calls
      obtain ⟨middle, visiting⟩ := visited finished
      simp only [if_neg offPath, visiting, ok_bind]
      exact ih _ _ later

/-- Every call goes to a circuit of the design, and to one of lower rank. -/
def Ranked (D : Design F) (rank : CircuitId → Nat) : Prop :=
  ∀ {id c}, D.get? id = some c →
    CallsIn (fun callee => rank callee < rank id ∧ ∃ c', D.get? callee = some c') c.instructions

/-- Ranks fall along the path, so no call leads back to it. -/
theorem explore_succeeds {rank : CircuitId → Nat} (ranked : D.Ranked rank) (depth : Nat) {path : List CircuitId}
    {id : CircuitId} (present : ∃ c, D.get? id = some c) (above : ∀ x ∈ path, rank id < rank x)
    (finished : List CircuitId) : ∃ result, D.explore depth path id finished = .ok result := by
  induction depth generalizing path id finished with
  | zero => exact ⟨finished, rfl⟩
  | succ depth ih =>
    rw [explore]
    by_cases done : id ∈ finished
    · exact ⟨finished, if_pos done⟩
    · obtain ⟨c, found⟩ := present
      have visits : CallsIn (fun callee => callee ∉ id :: path ∧
          ∀ finished, ∃ result, D.explore depth (id :: path) callee finished = .ok result) c.instructions := by
        intro instruction member callee calls
        obtain ⟨lower, present⟩ := ranked found instruction member callee calls
        have above' : ∀ x ∈ id :: path, rank callee < rank x :=
          List.forall_mem_cons.mpr ⟨lower, fun x onPath => lower.trans (above x onPath)⟩
        exact ⟨fun onPath => Nat.lt_irrefl _ (above' callee onPath), fun finished => ih present above' finished⟩
      obtain ⟨result, followed⟩ := followCalls_succeeds id 0 finished visits
      rw [if_neg done, circuit_eq_ok_iff.mpr found, ok_bind, followed]
      exact ⟨id :: result, rfl⟩

theorem exploreAll_succeeds {rank : CircuitId → Nat} (ranked : D.Ranked rank) {ids : List CircuitId}
    (present : ∀ id ∈ ids, ∃ c, D.get? id = some c) (finished : List CircuitId) :
    ∃ result, D.exploreAll ids finished = .ok result := by
  induction ids generalizing finished with
  | nil => exact ⟨finished, rfl⟩
  | cons id rest ih =>
    obtain ⟨first, later⟩ := List.forall_mem_cons.mp present
    obtain ⟨middle, explored⟩ := explore_succeeds ranked (D.size + 1) first (List.forall_mem_nil _) finished
    rw [exploreAll, explored, ok_bind]
    exact ih later middle

/-- A design that keeps the rules, with calls that fall in rank, passes its check. -/
theorem validate_of_ranked {rank : CircuitId → Nat} (ranked : D.Ranked rank) (entry : ∃ c, D.get? .entry = some c)
    (wellFormed : ∀ {id c}, D.get? id = some c → c.WellFormed D) : D.validate = .ok () := by
  obtain ⟨c, found⟩ := entry
  have checks : ∀ e ∈ D.circuits.entries, e.2.check D e.1 = .ok () := by
    intro e member
    have listed : D.get? e.1 = some e.2 := Table.get?_eq_some_iff.mpr member
    refine Circuit.check_eq_ok (wellFormed listed) ?_
    intro instruction inside callee calls same
    exact Nat.lt_irrefl _ (same ▸ (ranked listed instruction inside callee calls).1)
  have present : ∀ id ∈ D.circuits.keys, ∃ c, D.get? id = some c := fun id => Table.mem_keys_iff.mp
  obtain ⟨result, explored⟩ := exploreAll_succeeds ranked present []
  rw [validate, circuit_eq_ok_iff.mpr found, ok_bind, checkCircuits_eq_ok checks, ok_bind, explored]
  rfl

end Design
end ArithCircuit
