/-!
Finite maps listed by strictly increasing keys. Two tables that map every key to the same value
have the same listing, so equality of tables is equality of maps.
-/
namespace ArithCircuit

/-- A finite map from keys to values, listed by strictly increasing keys. -/
structure Table (κ : Type) (α : Type) [LT κ] where
  entries : List (κ × α)
  sorted : entries.Pairwise fun a b => a.1 < b.1

namespace Table
variable {κ α : Type} [LT κ]

instance [DecidableEq κ] [DecidableEq α] : DecidableEq (Table κ α) := fun s t =>
  decidable_of_iff (s.entries = t.entries) (by cases s; cases t; simp)

def empty : Table κ α := ⟨[], .nil⟩

instance : EmptyCollection (Table κ α) := ⟨empty⟩

def size (t : Table κ α) : Nat := t.entries.length

def isEmpty (t : Table κ α) : Bool := t.entries.isEmpty

/-- The keys, in increasing order. -/
def keys (t : Table κ α) : List κ := t.entries.map (·.1)

/-- The values, by increasing key. -/
def values (t : Table κ α) : List α := t.entries.map (·.2)

def get? [DecidableEq κ] (t : Table κ α) (key : κ) : Option α := t.entries.lookup key

def contains [DecidableEq κ] (t : Table κ α) (key : κ) : Bool := (t.get? key).isSome

/-- The entries that satisfy a test. -/
def filter (t : Table κ α) (keep : κ → α → Bool) : Table κ α :=
  ⟨t.entries.filter fun e => keep e.1 e.2, t.sorted.filter _⟩

/-- Puts an entry at its place in a sorted listing, replacing an entry of the same key. -/
def insertEntry [DecidableLT κ] (key : κ) (value : α) : List (κ × α) → List (κ × α)
  | [] => [(key, value)]
  | entry :: rest =>
    if key < entry.1 then (key, value) :: entry :: rest
    else if entry.1 < key then entry :: insertEntry key value rest
    else (key, value) :: rest

theorem mem_insertEntry [DecidableLT κ] {key : κ} {value : α} {entries : List (κ × α)} {e : κ × α}
    (member : e ∈ insertEntry key value entries) : e = (key, value) ∨ e ∈ entries := by
  induction entries with
  | nil => simpa [insertEntry] using member
  | cons first rest ih =>
    simp only [insertEntry] at member
    split at member
    · simpa using member
    · split at member
      · rcases List.mem_cons.mp member with same | later
        · exact .inr (by simp [same])
        · exact (ih later).imp_right (List.mem_cons_of_mem _)
      · rcases List.mem_cons.mp member with same | later
        · exact .inl same
        · exact .inr (List.mem_cons_of_mem _ later)

theorem insertEntry_sorted [DecidableLT κ] [LE κ] [Std.IsLinearOrder κ] [Std.LawfulOrderLT κ]
    {key : κ} {value : α} {entries : List (κ × α)} (sorted : entries.Pairwise fun a b => a.1 < b.1) :
    (insertEntry key value entries).Pairwise fun a b => a.1 < b.1 := by
  induction entries with
  | nil => simp [insertEntry]
  | cons first rest ih =>
    obtain ⟨below, restSorted⟩ := List.pairwise_cons.mp sorted
    simp only [insertEntry]
    split
    · rename_i before
      refine List.pairwise_cons.mpr ⟨?_, sorted⟩
      intro e member
      rcases List.mem_cons.mp member with same | later
      · simpa [same] using before
      · exact Std.lt_trans before (below e later)
    · rename_i notBefore
      split
      · rename_i after
        refine List.pairwise_cons.mpr ⟨?_, ih restSorted⟩
        intro e member
        rcases mem_insertEntry member with same | later
        · simpa [same] using after
        · exact below e later
      · rename_i notAfter
        have same : key = first.1 := Std.le_antisymm (Std.not_lt.mp notAfter) (Std.not_lt.mp notBefore)
        exact List.pairwise_cons.mpr ⟨fun e later => by simpa [same] using below e later, restSorted⟩

section
variable [DecidableLT κ] [LE κ] [Std.IsLinearOrder κ] [Std.LawfulOrderLT κ]

/-- Maps a key to a value, replacing what the key was mapped to. -/
def insert (t : Table κ α) (key : κ) (value : α) : Table κ α :=
  ⟨insertEntry key value t.entries, insertEntry_sorted t.sorted⟩

/-- The table of a list of entries. The last entry of a key counts. -/
def ofList (entries : List (κ × α)) : Table κ α :=
  entries.foldl (fun t e => t.insert e.1 e.2) ∅

end

end Table
end ArithCircuit
