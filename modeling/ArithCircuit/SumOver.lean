/-!
Sums of a count over a list.
-/
namespace ArithCircuit
variable {α : Type}

/-- The sum of a count over a list. -/
def sumOver (count : α → Nat) (xs : List α) : Nat := xs.foldr (fun x sum => count x + sum) 0

@[simp] theorem sumOver_nil (count : α → Nat) : sumOver count [] = 0 := rfl

@[simp] theorem sumOver_cons (count : α → Nat) (x : α) (xs : List α) :
    sumOver count (x :: xs) = count x + sumOver count xs := rfl

@[simp] theorem sumOver_append (count : α → Nat) (xs ys : List α) :
    sumOver count (xs ++ ys) = sumOver count xs + sumOver count ys := by
  induction xs with
  | nil => simp
  | cons x xs ih => rw [List.cons_append, sumOver_cons, sumOver_cons, ih, Nat.add_assoc]

end ArithCircuit
