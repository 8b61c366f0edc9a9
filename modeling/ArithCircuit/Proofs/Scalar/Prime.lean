import Mathlib.NumberTheory.LucasPrimality
import Mathlib.Tactic.NormNum.Prime
import ArithCircuit.Scalar.Field

/-!
The moduli are prime. Lucas's test needs the prime factors of the number below a modulus, which are
large themselves, so each prime stands on the primes proved before it.
-/
namespace ArithCircuit
namespace ScalarField

/-- `acc * base ^ exponent` modulo `m`, one binary digit of the exponent at a time. -/
def powMod (m : Nat) : (digits : Nat) → (acc base exponent : Nat) → Nat
  | 0, acc, _, _ => acc % m
  | digits + 1, acc, base, exponent =>
    powMod m digits (if exponent % 2 = 1 then acc * base % m else acc) (base * base % m) (exponent / 2)

theorem powMod_eq (m : Nat) {digits acc base exponent : Nat} (bound : exponent < 2 ^ digits) :
    powMod m digits acc base exponent = acc * base ^ exponent % m := by
  induction digits generalizing acc base exponent with
  | zero =>
    have none : exponent = 0 := by simpa using bound
    simp [powMod, none]
  | succ digits ih =>
    have half : exponent / 2 < 2 ^ digits := by rw [pow_succ] at bound; omega
    have squared : (base * base % m) ^ (exponent / 2) ≡ base ^ (2 * (exponent / 2)) [MOD m] := by
      rw [pow_mul, sq]
      exact (Nat.mod_modEq _ _).pow _
    rw [powMod, ih half]
    rcases Nat.mod_two_eq_zero_or_one exponent with even | odd
    · have whole : 2 * (exponent / 2) = exponent := by omega
      rw [whole] at squared
      rw [if_neg (by omega)]
      exact squared.mul_left acc
    · have whole : 2 * (exponent / 2) + 1 = exponent := by omega
      rw [if_pos odd]
      have moved : acc * base * base ^ (2 * (exponent / 2)) = acc * base ^ exponent := by
        rw [mul_assoc, ← pow_succ', whole]
      rw [← moved]
      exact (Nat.mod_modEq _ _).mul squared

/-- Lucas's test of `p` at the base `a`. The factors of `p - 1` come with their exponents. -/
def lucasTest (p digits a : Nat) (factors : List (Nat × Nat)) : Bool :=
  decide (1 < p) && decide (p - 1 < 2 ^ digits) &&
    (factors.map fun f => f.1 ^ f.2).prod == p - 1 && powMod p digits 1 a (p - 1) == 1 &&
    factors.all fun f => powMod p digits 1 a ((p - 1) / f.1) != 1

theorem prime_of_lucasTest {p a : Nat} (digits : Nat) (factors : List (Nat × Nat))
    (primes : ∀ f ∈ factors, f.1.Prime) (passed : lucasTest p digits a factors = true) : p.Prime := by
  simp only [lucasTest, Bool.and_eq_true, decide_eq_true_eq, beq_iff_eq, List.all_eq_true,
    bne_iff_ne, ne_eq] at passed
  obtain ⟨⟨⟨⟨above, bound⟩, product⟩, full⟩, partials⟩ := passed
  have power (n : Nat) (le : n ≤ p - 1) : (a : ZMod p) ^ n = 1 ↔ powMod p digits 1 a n = 1 := by
    rw [powMod_eq p (lt_of_le_of_lt le bound), one_mul, ← Nat.cast_pow, ← Nat.cast_one,
      ZMod.natCast_eq_natCast_iff', Nat.mod_eq_of_lt above]
  refine lucas_primality p (a : ZMod p) ((power _ le_rfl).mpr full) ?_
  intro q prime divides one
  rw [← product] at divides
  obtain ⟨n, inProduct, divides⟩ := (Prime.dvd_prod_iff prime.prime).mp divides
  obtain ⟨f, member, rfl⟩ := List.mem_map.mp inProduct
  have same : q = f.1 :=
    (Nat.prime_dvd_prime_iff_eq prime (primes f member)).mp (prime.dvd_of_dvd_pow divides)
  subst same
  exact partials f member ((power _ (Nat.div_le_self _ _)).mp one)

private theorem prime_65865678001877903 : Nat.Prime 65865678001877903 := by
  have prime : Nat.Prime 639533339 := by
    refine prime_of_lucasTest (a := 2) 30 [(2, 1), (229, 1), (853, 1), (1637, 1)] ?_ (by decide +kernel)
    simp only [List.forall_mem_cons]
    norm_num
  refine prime_of_lucasTest (a := 5) 56 [(2, 1), (83, 1), (379, 1), (1637, 1), (639533339, 1)] ?_
    (by decide +kernel)
  simp only [List.forall_mem_cons, prime]
  norm_num

private theorem prime_13818364434197438864469338081 : Nat.Prime 13818364434197438864469338081 := by
  refine prime_of_lucasTest (a := 3) 94
    [(2, 5), (5, 1), (823, 1), (1593227, 1), (65865678001877903, 1)] ?_ (by decide +kernel)
  simp only [List.forall_mem_cons, prime_65865678001877903]
  norm_num

private theorem prime_1670836401704629 : Nat.Prime 1670836401704629 := by
  have small : Nat.Prime 12048837557 := by
    refine prime_of_lucasTest (a := 2) 34 [(2, 2), (7, 2), (661, 1), (93001, 1)] ?_ (by decide +kernel)
    simp only [List.forall_mem_cons]
    norm_num
  have large : Nat.Prime 5156902474397 := by
    refine prime_of_lucasTest (a := 2) 43 [(2, 2), (107, 1), (12048837557, 1)] ?_ (by decide +kernel)
    simp only [List.forall_mem_cons, small]
    norm_num
  refine prime_of_lucasTest (a := 2) 51 [(2, 2), (3, 4), (5156902474397, 1)] ?_ (by decide +kernel)
  simp only [List.forall_mem_cons, large]
  norm_num

private theorem prime_405928799 : Nat.Prime 405928799 := by
  refine prime_of_lucasTest (a := 22) 29 [(2, 1), (11, 1), (3691, 1), (4999, 1)] ?_ (by decide +kernel)
  simp only [List.forall_mem_cons]
  norm_num

/-- Both fields are fields. -/
theorem modulus_prime (F : ScalarField) : F.modulus.Prime := by
  cases F with
  | bn254 =>
    refine prime_of_lucasTest (a := 5) 254
      [(2, 28), (3, 2), (13, 1), (29, 1), (983, 1), (11003, 1), (237073, 1), (405928799, 1),
        (1670836401704629, 1), (13818364434197438864469338081, 1)] ?_ (by decide +kernel)
    simp only [List.forall_mem_cons, prime_405928799, prime_1670836401704629,
      prime_13818364434197438864469338081]
    norm_num
  | mersenne31 =>
    refine prime_of_lucasTest (a := 7) 31
      [(2, 1), (3, 2), (7, 1), (11, 1), (31, 1), (151, 1), (331, 1)] ?_ (by decide +kernel)
    simp only [List.forall_mem_cons]
    norm_num

instance (F : ScalarField) : Fact F.modulus.Prime := ⟨F.modulus_prime⟩

end ScalarField
end ArithCircuit
