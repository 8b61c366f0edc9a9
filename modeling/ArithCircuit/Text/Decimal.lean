/-!
Decimal text of large numbers, taken off in blocks of digits that fit a machine word. The result is
the usual numeral.
-/
namespace ArithCircuit

/-- The number of digits in a block. -/
def blockDigits : Nat := 18

/-- The numbers of one block. -/
def blockSize : Nat := 1000000000000000000

theorem blockSize_eq : blockSize = Nat.pow 10 blockDigits := by decide

/-- The lowest `count` digits, zeros included, before a tail. -/
def pushDigits : (count : Nat) → Nat → List Char → List Char
  | 0, _, tail => tail
  | count + 1, n, tail => pushDigits count (n / 10) ((n % 10).digitChar :: tail)

/-- The digits of a number before a tail. -/
def digitsOnto (n : Nat) (tail : List Char) : List Char :=
  if n < blockSize then Nat.toDigits 10 n ++ tail
  else digitsOnto (n / blockSize) (pushDigits blockDigits (n % blockSize) tail)
termination_by n
decreasing_by exact Nat.div_lt_self (by unfold blockSize at *; omega) (by decide)

/-- The decimal numeral. -/
def decimal (n : Nat) : String := String.ofList (digitsOnto n [])

theorem toDigits_append_pushDigits (count m n : Nat) (tail : List Char) (hm : 0 < m) :
    Nat.toDigits 10 m ++ pushDigits count n tail =
      Nat.toDigits 10 (Nat.pow 10 count * m + n % Nat.pow 10 count) ++ tail := by
  simp only [Nat.pow_eq]
  induction count generalizing n tail with
  | zero => simp [pushDigits, Nat.mod_one]
  | succ count ih =>
    have hpos : 0 < 10 ^ count * m + n / 10 % 10 ^ count :=
      Nat.add_pos_left (Nat.mul_pos (Nat.pow_pos (by decide)) hm) _
    have hdigit : n % 10 < 10 := Nat.mod_lt _ (by decide)
    have hsum : 10 * (10 ^ count * m + n / 10 % 10 ^ count) + n % 10 =
        10 ^ (count + 1) * m + n % 10 ^ (count + 1) := by
      rw [Nat.pow_succ, Nat.mul_comm (10 ^ count) 10, Nat.mod_mul, Nat.mul_add, Nat.mul_assoc]
      omega
    rw [pushDigits, ih, ← hsum, ← Nat.toDigits_append_toDigits (by decide) hpos hdigit,
      Nat.toDigits_of_lt_base hdigit]
    simp

theorem digitsOnto_eq (n : Nat) (tail : List Char) :
    digitsOnto n tail = Nat.toDigits 10 n ++ tail := by
  fun_induction digitsOnto n tail with
  | case1 => rfl
  | case2 n tail h ih =>
    have hpos : 0 < n / blockSize := Nat.div_pos (Nat.le_of_not_lt h) (by decide)
    rw [ih, toDigits_append_pushDigits _ _ _ _ hpos, ← blockSize_eq, Nat.mod_mod,
      Nat.div_add_mod]

/-- Working in blocks gives the usual numeral. -/
theorem decimal_eq_repr (n : Nat) : decimal n = Nat.repr n := by
  rw [decimal, digitsOnto_eq, List.append_nil, Nat.repr_eq_ofList_toDigits]

end ArithCircuit
