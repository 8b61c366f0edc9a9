import ArithCircuit.Proofs.Basic
import ArithCircuit.Proofs.Builder.Definition
import ArithCircuit.Proofs.Circuit.Exactness
import ArithCircuit.Proofs.Script.Meaning

/-!
Sub-circuits beside the procedures they stand for. A circuit realizes a procedure if its satisfying
assignments show exactly what the procedure returns, as long as there were numbers for all wires; the
sub-circuits of a builder realize the procedures defined so far, id by id.
-/
namespace ArithCircuit
variable {F : ScalarField} {W : World F}

/-- The satisfying assignments of a circuit show what a procedure returns, and all of it if every wire has a number of
    its own. -/
structure Circuit.Realizes (W : World F) (c : Circuit F) (p : Procedure F) : Prop where
  numInputs : c.numInputs = p.numInputs
  length : ∀ {xs outs}, p.run xs = some outs → outs.length = c.outputs.length
  sound : ∀ {xs w}, xs.length = p.numInputs → c.Satisfying W xs w → p.run xs = some (c.outputs.map (·.eval w))
  complete : c.wireCount ≤ 2 ^ 32 → ∀ {xs outs}, xs.length = p.numInputs → p.run xs = some outs →
    ∃ w, c.Satisfying W xs w ∧ c.outputs.map (·.eval w) = outs

/-- A circuit has few inputs and wires of four bytes, and calls circuits with the first ids and hints that are
    builtin. -/
structure Circuit.Closed (bound : Nat) (c : Circuit F) : Prop where
  few : c.numInputs + 1 < 2 ^ 32
  numbered : c.Numbered
  calls : ∀ i ∈ c.instructions, ∀ id, i.callee? = some id → ∃ index < bound, id = index + 1
  hints : ∀ i ∈ c.instructions, ∀ name, i.hintName? = some name → ∃ hint : BuiltinHint, hint.name = name

/-- The check passes such a circuit only if every wire has a number of its own. -/
theorem Circuit.Closed.room {bound : Nat} {c : Circuit F} (closed : c.Closed bound) {D : Design F} (wellFormed : c.WellFormed D) :
    c.wireCount ≤ 2 ^ 32 :=
  closed.numbered.wireCount_le le_rfl (by decide) closed.few.le (.inl wellFormed)

/-- The sub-circuits of a builder realize the procedures of a library, in the order of ids. -/
structure SubCircuits.Shelf (W : World F) (subs : SubCircuits F) (lib : Library F) : Prop where
  nextId : subs.nextId = lib.length + 1
  keys : ∀ key, (subs.lookup? key).isSome = lib.defines key
  bound : ∀ {id c}, subs.get? id = some c → ∃ index < lib.length, id = index + 1
  circuits : ∀ {index p}, lib[index]? = some p →
    ∃ c, subs.get? (index + 1) = some c ∧ c.Realizes W p ∧ c.Closed index

theorem Library.call_eq_some_iff {lib : Library F} {id : CircuitId} {args ys : List (Scalar F)} :
    lib.call id args = some ys ↔ ∃ p, lib.find? id = some p ∧ p.numInputs = args.length ∧ p.run args = some ys := by
  rw [call]
  cases lib.find? id with
  | none => simp
  | some p => simp

namespace SubCircuits.Shelf

theorem empty (W : World F) : Shelf W (SubCircuits.empty : SubCircuits F) [] :=
  ⟨rfl, fun _ => rfl, nofun, nofun⟩

/-- On a shelf, calls of the whole library that a builder may record are calls of the library so far. -/
theorem calls {subs : SubCircuits F} {lib full : Library F} (shelf : Shelf W subs lib) (early : lib <+: full)
    (world : ∀ {id xs ys}, W.call id xs ys ↔ full.call id xs = some ys) {id : CircuitId} {args ys : List (Scalar F)} :
    (∃ c, subs.get? id = some c ∧ c.numInputs = args.length ∧ ys.length = c.outputs.length ∧ W.call id args ys) ↔
      lib.call id args = some ys := by
  obtain ⟨later, rfl⟩ := early
  rw [world]
  constructor
  · rintro ⟨c, found, _, _, called⟩
    obtain ⟨index, below, rfl⟩ := shelf.bound found
    rw [Library.call_eq_some_iff] at called ⊢
    rwa [Library.find?, List.getElem?_append_left below] at called
  · intro called
    obtain ⟨p, found, arity, run⟩ := Library.call_eq_some_iff.mp called
    cases id with
    | zero => cases found
    | succ index =>
      obtain ⟨c, here, realizes, _⟩ := shelf.circuits found
      have below := (List.getElem?_eq_some_iff.mp found).1
      refine ⟨c, here, realizes.numInputs.trans arity, realizes.length run, Library.call_eq_some_iff.mpr ⟨p, ?_, arity, run⟩⟩
      rwa [Library.find?, List.getElem?_append_left below]

/-- A new definition takes the next id. -/
theorem insert {subs : SubCircuits F} {lib : Library F} (shelf : Shelf W subs lib) {c : Circuit F} {p : Procedure F}
    (realizes : c.Realizes W p) (closed : c.Closed lib.length) : Shelf W (subs.insert p.key c).2 (lib ++ [p]) := by
  have get (id : CircuitId) : (subs.insert p.key c).2.get? id = if id = lib.length + 1 then some c else subs.get? id := by
    rw [← shelf.nextId]
    exact Table.get?_insert ..
  refine ⟨?_, fun key => ?_, fun found => ?_, fun {index q} found => ?_⟩
  · show subs.nextId + 1 = _
    rw [shelf.nextId, List.length_append, List.length_singleton]
  · have lookup : (subs.insert p.key c).2.lookup? key = if key = p.key then some subs.nextId else subs.lookup? key :=
      Table.get?_insert ..
    rw [lookup, Library.defines, List.any_append]
    by_cases same : key = p.key
    · simp [same]
    · simp [same, shelf.keys key, Library.defines, Ne.symm same]
  · rw [get] at found
    rw [List.length_append, List.length_singleton]
    split at found
    · rename_i same
      exact ⟨lib.length, Nat.lt_succ_self _, same⟩
    · obtain ⟨index, below, same⟩ := shelf.bound found
      exact ⟨index, Nat.lt_succ_of_lt below, same⟩
  · rw [get]
    by_cases last : index = lib.length
    · subst last
      rw [List.getElem?_concat_length] at found
      cases found
      exact ⟨c, if_pos rfl, realizes, closed⟩
    · have inside : index < lib.length + 1 := by
        simpa using (List.getElem?_eq_some_iff.mp found).1
      have below : index < lib.length := Nat.lt_of_le_of_ne (Nat.le_of_lt_succ inside) last
      rw [List.getElem?_append_left below] at found
      obtain ⟨c', here, rest⟩ := shelf.circuits found
      refine ⟨c', ?_, rest⟩
      rw [if_neg fun same => last (Nat.succ.inj same), here]

end SubCircuits.Shelf
end ArithCircuit
