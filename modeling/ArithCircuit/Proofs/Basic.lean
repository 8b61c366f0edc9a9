import Mathlib.Order.Basic
import ArithCircuit.Table

/-!
Outcomes of checks and lookups in tables. A sequence of checks succeeds exactly when each does, and
a table holds exactly the entries it lists.
-/
namespace ArithCircuit

theorem bind_eq_ok {ε α β : Type} {x : Except ε α} {f : α → Except ε β} {b : β} :
    (x >>= f) = .ok b ↔ ∃ a, x = .ok a ∧ f a = .ok b := by
  cases x with
  | ok a =>
    have reduced : (Except.ok a >>= f) = f a := rfl
    simp [reduced]
  | error e =>
    have reduced : (Except.error e >>= f) = .error e := rfl
    simp [reduced]

@[simp] theorem ok_bind {ε α β : Type} (a : α) (f : α → Except ε β) : (Except.ok a >>= f) = f a := rfl

@[simp] theorem error_bind {ε α β : Type} (e : ε) (f : α → Except ε β) :
    (Except.error e >>= f) = .error e := rfl

/-- A step after another succeeds from a state exactly when both do. -/
theorem run_bind_eq_ok {ε σ α β : Type} {step : EStateM ε σ α} {next : α → EStateM ε σ β} {c : β} {s s' : σ} :
    (step >>= next) s = .ok c s' ↔ ∃ a s₁, step s = .ok a s₁ ∧ next a s₁ = .ok c s' := by
  cases stepped : step s with
  | ok a s₁ =>
    have reduced : (step >>= next) s = next a s₁ := by simp [Bind.bind, EStateM.bind, stepped]
    rw [reduced]
    constructor
    · exact fun continued => ⟨a, s₁, rfl, continued⟩
    · rintro ⟨_, _, ⟨⟩, continued⟩
      exact continued
  | error e s₁ => simp [Bind.bind, EStateM.bind, stepped]

/-- A step after another fails from a state when the first fails, or the second does after it. -/
theorem run_bind_eq_error {ε σ α β : Type} {step : EStateM ε σ α} {next : α → EStateM ε σ β} {e : ε} {s s' : σ} :
    (step >>= next) s = .error e s' ↔
      step s = .error e s' ∨ ∃ a s₁, step s = .ok a s₁ ∧ next a s₁ = .error e s' := by
  cases stepped : step s with
  | ok a s₁ =>
    have reduced : (step >>= next) s = next a s₁ := by simp [Bind.bind, EStateM.bind, stepped]
    rw [reduced]
    constructor
    · exact fun continued => .inr ⟨a, s₁, rfl, continued⟩
    · rintro (failed | ⟨_, _, ⟨⟩, continued⟩)
      · cases failed
      · exact continued
  | error e s₁ => simp [Bind.bind, EStateM.bind, stepped]

theorem run_get_bind {ε σ α : Type} (next : σ → EStateM ε σ α) (s : σ) : (get >>= next) s = next s s := rfl

theorem run_map_eq_ok {ε σ α β : Type} {step : EStateM ε σ α} {f : α → β} {c : β} {s s' : σ} :
    (f <$> step) s = .ok c s' ↔ ∃ a, step s = .ok a s' ∧ f a = c := by
  cases stepped : step s with
  | ok a s₁ =>
    have mapped : (f <$> step) s = .ok (f a) s₁ := by simp [Functor.map, EStateM.map, stepped]
    rw [mapped]
    constructor
    · rintro ⟨⟩
      exact ⟨a, rfl, rfl⟩
    · rintro ⟨_, ⟨⟩, rfl⟩
      rfl
  | error e s₁ => simp [Functor.map, EStateM.map, stepped]

theorem run_map_eq_error {ε σ α β : Type} {step : EStateM ε σ α} {f : α → β} {e : ε} {s s' : σ} :
    (f <$> step) s = .error e s' ↔ step s = .error e s' := by
  cases stepped : step s with
  | ok a s₁ => simp [Functor.map, EStateM.map, stepped]
  | error e s₁ => simp [Functor.map, EStateM.map, stepped]

theorem toList_mapM {ε σ α β : Type} {n : Nat} (v : Vector α n) (f : α → EStateM ε σ β) :
    Vector.toList <$> v.mapM f = v.toList.mapM f := by
  calc Vector.toList <$> v.mapM f = Array.toList <$> Vector.toArray <$> v.mapM f := comp_map Vector.toArray Array.toList _
    _ = Array.toList <$> List.toArray <$> v.toList.mapM f := by
      rw [Vector.toArray_mapM, Array.mapM_eq_mapM_toList]
      rfl
    _ = v.toList.mapM f := by
      rw [Functor.map_map]
      exact id_map _

/-- A step for each entry of a vector is a step for each entry of its list. -/
theorem run_mapM_eq_ok {ε σ α β : Type} {n : Nat} {v : Vector α n} {f : α → EStateM ε σ β} {r : Vector β n} {s s' : σ} :
    v.mapM f s = .ok r s' ↔ v.toList.mapM f s = .ok r.toList s' := by
  rw [← toList_mapM, run_map_eq_ok]
  constructor
  · exact fun done => ⟨r, done, rfl⟩
  · rintro ⟨r', done, same⟩
    rwa [← Vector.toList_inj.mp same]

theorem run_mapM_eq_error {ε σ α β : Type} {n : Nat} {v : Vector α n} {f : α → EStateM ε σ β} {e : ε} {s s' : σ} :
    v.mapM f s = .error e s' ↔ v.toList.mapM f s = .error e s' := by
  rw [← toList_mapM, run_map_eq_error]

theorem size_appendList {α : Type} (values : Array α) (new : List α) : (values ++ new).size = values.size + new.length := by
  rw [← Array.length_toList, Array.toList_appendList, List.length_append, Array.length_toList]

theorem appendList_append {α : Type} (values : Array α) (new more : List α) :
    values ++ new ++ more = values ++ (new ++ more) := by
  rw [← Array.toList_inj, Array.toList_appendList, Array.toList_appendList, Array.toList_appendList, List.append_assoc]

theorem exists_of_isOk {ε α : Type} {x : Except ε α} (succeeds : x.isOk = true) : ∃ a, x = .ok a := by
  cases x with
  | ok a => exact ⟨a, rfl⟩
  | error e => cases succeeds

theorem exists_of_any {ε α : Type} {x : Except ε α} {p : α → Bool} (holds : x.toOption.any p = true) :
    ∃ a, x = .ok a ∧ p a = true := by
  cases x with
  | ok a => exact ⟨a, rfl, holds⟩
  | error e => cases holds

theorem mapError_eq_ok {ε ε' α : Type} {f : ε → ε'} {x : Except ε α} {a : α} :
    x.mapError f = .ok a ↔ x = .ok a := by
  cases x with
  | ok b => simp [Except.mapError]
  | error e => simp [Except.mapError]

namespace Table

private theorem lookup_cons {κ α : Type} [DecidableEq κ] (key : κ) (entry : κ × α) (rest : List (κ × α)) :
    (entry :: rest).lookup key = if key = entry.1 then some entry.2 else rest.lookup key := by
  rw [List.lookup_cons]
  by_cases same : key = entry.1
  · rw [if_pos same, beq_iff_eq.mpr same]
  · rw [if_neg same, beq_eq_false_iff_ne.mpr same]

variable {κ α : Type} [LT κ] [DecidableEq κ]

theorem lookup_eq_some_iff [LE κ] [Std.IsLinearOrder κ] [Std.LawfulOrderLT κ] {entries : List (κ × α)}
    (sorted : entries.Pairwise fun a b => a.1 < b.1) {key : κ} {value : α} :
    entries.lookup key = some value ↔ (key, value) ∈ entries := by
  induction entries with
  | nil => simp
  | cons first rest ih =>
    obtain ⟨below, restSorted⟩ := List.pairwise_cons.mp sorted
    rw [lookup_cons]
    by_cases same : key = first.1
    · rw [if_pos same, List.mem_cons]
      constructor
      · intro found
        exact .inl (by rw [same, ← Option.some.inj found])
      · rintro (atFirst | later)
        · rw [← atFirst]
        · have smaller := below _ later
          exact absurd smaller (by simpa [same] using Std.lt_irrefl)
    · rw [if_neg same, ih restSorted, List.mem_cons]
      constructor
      · exact .inr
      · rintro (atFirst | later)
        · exact absurd (congrArg Prod.fst atFirst) same
        · exact later

/-- A table maps a key to a value exactly when it lists that entry. -/
theorem get?_eq_some_iff [LE κ] [Std.IsLinearOrder κ] [Std.LawfulOrderLT κ] {t : Table κ α} {key : κ}
    {value : α} : t.get? key = some value ↔ (key, value) ∈ t.entries :=
  lookup_eq_some_iff t.sorted

theorem mem_keys_iff [LE κ] [Std.IsLinearOrder κ] [Std.LawfulOrderLT κ] {t : Table κ α} {key : κ} :
    key ∈ t.keys ↔ ∃ value, t.get? key = some value := by
  rw [keys, List.mem_map]
  constructor
  · rintro ⟨⟨_, value⟩, member, rfl⟩
    exact ⟨value, get?_eq_some_iff.mpr member⟩
  · rintro ⟨value, found⟩
    exact ⟨(key, value), get?_eq_some_iff.mp found, rfl⟩

omit [DecidableEq κ] in
theorem nodup_entries [LE κ] [Std.IsLinearOrder κ] [Std.LawfulOrderLT κ] (t : Table κ α) : t.entries.Nodup := by
  refine t.sorted.imp ?_
  intro a b below equal
  exact Std.lt_irrefl (equal ▸ below)

/-- Tables that map every key to the same value are equal. -/
theorem ext_get? [LE κ] [Std.IsLinearOrder κ] [Std.LawfulOrderLT κ] {s t : Table κ α}
    (same : ∀ key, s.get? key = t.get? key) : s = t := by
  have listed : ∀ e, e ∈ s.entries ↔ e ∈ t.entries := by
    intro e
    rw [← get?_eq_some_iff (t := s), ← get?_eq_some_iff (t := t), same]
  have equal : s.entries = t.entries := by
    refine List.Perm.eq_of_pairwise ?_ s.sorted t.sorted
      ((List.perm_ext_iff_of_nodup s.nodup_entries t.nodup_entries).mpr listed)
    intro a b _ _ before after
    exact absurd (Std.lt_trans before after) Std.lt_irrefl
  cases s
  cases t
  cases equal
  rfl

/-- A filtered table keeps the entries that pass the test. -/
theorem get?_filter [LE κ] [Std.IsLinearOrder κ] [Std.LawfulOrderLT κ] (t : Table κ α) (keep : κ → α → Bool) (key : κ) :
    (t.filter keep).get? key = (t.get? key).filter (keep key) := by
  refine Option.ext fun value => ?_
  rw [Option.filter_eq_some_iff, get?_eq_some_iff, get?_eq_some_iff, filter, List.mem_filter]

@[simp] theorem get?_empty (key : κ) : (∅ : Table κ α).get? key = none := rfl

theorem contains_iff {t : Table κ α} {key : κ} : t.contains key = true ↔ ∃ value, t.get? key = some value := by
  rw [contains, Option.isSome_iff_exists]

section
variable [DecidableLT κ] [LE κ] [Std.IsLinearOrder κ] [Std.LawfulOrderLT κ]

/-- Inserting changes what its key is mapped to and nothing else. -/
theorem get?_insert (t : Table κ α) (key other : κ) (value : α) :
    (t.insert key value).get? other = if other = key then some value else t.get? other := by
  have inserted (entries : List (κ × α)) : (insertEntry key value entries).lookup other =
      if other = key then some value else entries.lookup other := by
    induction entries with
    | nil => rw [insertEntry, lookup_cons]
    | cons first rest ih =>
      simp only [insertEntry]
      split
      · rw [lookup_cons]
      · rename_i notBefore
        split
        · rename_i after
          rw [lookup_cons, ih, lookup_cons]
          by_cases same : other = first.1
          · have differs : first.1 ≠ key := fun equal => Std.lt_irrefl (equal ▸ after)
            rw [if_pos same, if_neg (same ▸ differs), if_pos same]
          · rw [if_neg same, if_neg same]
        · rename_i notAfter
          have equal : key = first.1 := Std.le_antisymm (Std.not_lt.mp notAfter) (Std.not_lt.mp notBefore)
          rw [lookup_cons, lookup_cons]
          by_cases same : other = key
          · rw [if_pos same, if_pos same]
          · rw [if_neg same, if_neg same, if_neg (equal ▸ same)]
  exact inserted t.entries

/-- A new key is added beside the others. -/
theorem mem_insert {t : Table κ α} {entry e : κ × α} (fresh : ¬ t.contains entry.1 = true) :
    e ∈ (t.insert entry.1 entry.2).entries ↔ e = entry ∨ e ∈ t.entries := by
  rw [← get?_eq_some_iff (t := t.insert entry.1 entry.2), ← get?_eq_some_iff (t := t), get?_insert]
  by_cases same : e.1 = entry.1
  · have absent : t.get? e.1 ≠ some e.2 := fun found => fresh (contains_iff.mpr ⟨e.2, same ▸ found⟩)
    rw [if_pos same, or_iff_left absent, Prod.ext_iff, and_iff_right same, Option.some_inj, eq_comm]
  · have differs : e ≠ entry := fun equal => same (congrArg Prod.fst equal)
    rw [if_neg same, or_iff_right differs]

end

end Table
end ArithCircuit
