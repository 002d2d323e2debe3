import Mathlib.Data.Nat.Choose.Basic
import StackCalc.NumberTheory

/-! # Arrangements and choices

A product of consecutive naturals does not depend on where it is split, so it is a rising factorial.
The factors below `n` that an arrangement takes are a falling one, which the factorial of their
number divides, so that the quotient is the number of choices and nothing is cut off. -/

namespace StackCalc.NumberTheory

variable {n k : Nat}

/-! ## 1. Products of consecutive naturals -/

theorem rangeProduct_eq (first count : Nat) :
    rangeProduct first count = first.ascFactorial count := by
  fun_induction rangeProduct with
  | case1 => rfl
  | case2 => rw [Nat.ascFactorial_succ, Nat.ascFactorial_zero, Nat.add_zero, Nat.mul_one]
  | case3 first count _ _ left right =>
    rw [left, right, Nat.ascFactorial_mul_ascFactorial, Nat.add_sub_cancel' (Nat.div_le_self ..)]

theorem factorial_eq (n : Nat) : factorial n = n.factorial := by
  rw [factorial, rangeProduct_eq, Nat.one_ascFactorial]

/-- An arrangement takes the last factors of the factorial. -/
theorem permutations_eq (n k : Nat) : permutations n k =
    if n < k then .error (.domain (.chooseTooMany "perm" k n)) else .ok (n.descFactorial k) := by
  unfold permutations
  split
  · rfl
  · have factors := Nat.add_descFactorial_eq_ascFactorial (n - k) k
    rw [Nat.sub_add_cancel (Nat.not_lt.mp ‹_›)] at factors
    rw [rangeProduct_eq, factors]

/-! ## 2. Choices -/

/-- The factors to be left out may be chosen as well as those to be taken. -/
theorem choose_min (h : k ≤ n) : n.choose (min k (n - k)) = n.choose k := by
  rcases Nat.le_total k (n - k) with less | more
  · rw [Nat.min_eq_left less]
  · rw [Nat.min_eq_right more, Nat.choose_symm h]

theorem combinations_eq (n k : Nat) : combinations n k =
    if n < k then .error (.domain (.chooseTooMany "comb" k n)) else .ok (n.choose k) := by
  unfold combinations
  split
  · rfl
  · have enough : ¬ n < min k (n - k) := by omega
    dsimp only
    rw [permutations_eq, if_neg enough, ← choose_min (Nat.not_lt.mp ‹_›), factorial_eq,
      Nat.choose_eq_descFactorial_div_factorial]
    rfl

/-- The number of choices, which is zero where there is none. -/
def chosen (n k : Nat) : Nat := (combinations n k).toOption.getD 0

theorem chosen_eq (n k : Nat) : chosen n k = n.choose k := by
  rw [chosen, combinations_eq]
  split
  · exact (Nat.choose_eq_zero_of_lt ‹_›).symm
  · rfl

/-- Arrangements and choices of more than there are get refused. All others are exact: they are
quotients of factorials, the last division leaves no remainder, what is left out may be chosen
instead, and a choice either takes the last one or not. -/
theorem combinations_exact (n k : Nat) :
    factorial n = n.factorial ∧
    (permutations n k = .error (.domain (.chooseTooMany "perm" k n)) ↔ n < k) ∧
    (combinations n k = .error (.domain (.chooseTooMany "comb" k n)) ↔ n < k) ∧
    (k ≤ n → ∃ p c,
      permutations n k = .ok p ∧ p * factorial (n - k) = factorial n ∧
      combinations n k = .ok c ∧ c * factorial k * factorial (n - k) = factorial n ∧
      permutations n (min k (n - k)) = .ok (c * factorial (min k (n - k))) ∧
      combinations n (n - k) = .ok c) ∧
    (1 ≤ n → 1 ≤ k → chosen n k = chosen (n - 1) (k - 1) + chosen (n - 1) k) := by
  simp only [permutations_eq, combinations_eq, factorial_eq, chosen_eq]
  refine ⟨trivial, by simp, by simp, fun h => ⟨n.descFactorial k, n.choose k, ?_⟩, fun hn hk => ?_⟩
  · rw [if_neg (by omega), if_neg (by omega), if_neg (by omega), if_neg (by omega),
      Nat.choose_symm h, ← choose_min h]
    refine ⟨rfl, ?_, rfl, ?_, ?_, rfl⟩
    · rw [Nat.mul_comm, Nat.factorial_mul_descFactorial h]
    · rw [choose_min h, Nat.choose_mul_factorial_mul_factorial h]
    · rw [Nat.mul_comm, Nat.descFactorial_eq_factorial_mul_choose]
  · obtain ⟨n, rfl⟩ := Nat.exists_eq_add_of_le' hn
    obtain ⟨k, rfl⟩ := Nat.exists_eq_add_of_le' hk
    exact Nat.choose_succ_succ n k

/-- Three out of seven, which is more than half of what is left out. -/
theorem combinations_exact_seven :
    (3 ≤ 7 ∧ 1 ≤ 7 ∧ 1 ≤ 3) ∧
    (∃ p c, permutations 7 3 = .ok p ∧ p * factorial (7 - 3) = factorial 7 ∧
      combinations 7 3 = .ok c ∧ c * factorial 3 * factorial (7 - 3) = factorial 7 ∧
      permutations 7 (min 3 (7 - 3)) = .ok (c * factorial (min 3 (7 - 3))) ∧
      combinations 7 (7 - 3) = .ok c) ∧
    chosen 7 3 = chosen (7 - 1) (3 - 1) + chosen (7 - 1) 3 := by
  obtain ⟨_, _, _, exact, pascal⟩ := combinations_exact 7 3
  exact ⟨by decide, exact (by decide), pascal (by decide) (by decide)⟩

end StackCalc.NumberTheory
