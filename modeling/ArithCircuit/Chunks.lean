/-!
Lists cut into chunks of equal length.
-/
namespace ArithCircuit
variable {α : Type}

/-- Cuts a list into chunks of `size` elements, the last of which may be shorter. There are no
    chunks of no elements. -/
def chunks (size : Nat) (xs : List α) : List (List α) :=
  if size = 0 ∨ xs = [] then [] else xs.take size :: chunks size (xs.drop size)
termination_by xs.length
decreasing_by
  rename_i h
  have : xs.length ≠ 0 := by simpa using fun e => h (.inr e)
  have : size ≠ 0 := fun e => h (.inl e)
  simp only [List.length_drop]; omega

/-- Chunks lose nothing and add nothing. -/
theorem flatten_chunks {size : Nat} (positive : 0 < size) (xs : List α) :
    (chunks size xs).flatten = xs := by
  fun_induction chunks size xs with
  | case1 xs h =>
    rcases h with zero | none
    · omega
    · simp [none]
  | case2 xs h ih => simp [ih]

end ArithCircuit
