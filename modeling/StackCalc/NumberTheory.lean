import StackCalc.Error

/-!
Exact integer functions: inverses and powers to a modulus, and the numbers of arrangements and
choices. Long products are split in the middle, so that their factors have about equal lengths.
-/

namespace StackCalc.NumberTheory

/-- Euclid's algorithm on remainders `r₀` and `r₁` with the cofactors of the first argument: the
greatest common divisor and its cofactor. -/
def euclid (r₀ r₁ : Nat) (s₀ s₁ : Int) : Nat × Int :=
  if r₁ = 0 then (r₀, s₀)
  else euclid r₁ (r₀ % r₁) s₁ (s₀ - (r₀ / r₁ : Nat) * s₁)
termination_by r₁
decreasing_by exact Nat.mod_lt _ (by omega)

/-- The inverse of `a` to the modulus `|m|`, from zero up to the modulus. -/
def modInverse (a m : Int) : Except Error Int :=
  if m = 0 then .error .divisionByZero
  else
    let n := m.natAbs
    let (g, x) := euclid (a % n).toNat n 1 0
    if g = 1 then .ok (x % n) else .error (.domain (.noInverse a n g))

/-- The product of `acc` and `square ^ e` to the modulus `n`. -/
def powMod (n acc square e : Nat) : Nat :=
  if e = 0 then acc
  else powMod n (if e % 2 = 1 then acc * square % n else acc) (square * square % n) (e / 2)
termination_by e

/-- The power of `b` to the modulus `|m|`. Negative exponents raise the inverse. -/
def modPower (b e m : Int) : Except Error Int :=
  if m = 0 then .error .divisionByZero
  else
    let n := m.natAbs
    if e < 0 then do
      return powMod n (1 % n) (← modInverse b n).toNat e.natAbs
    else .ok (powMod n (1 % n) (b % n).toNat e.natAbs)

/-- The product of the `count` naturals from `first` on. -/
def rangeProduct (first count : Nat) : Nat :=
  if count = 0 then 1
  else if count = 1 then first
  else rangeProduct first (count / 2) * rangeProduct (first + count / 2) (count - count / 2)
termination_by count

def factorial (n : Nat) : Nat := rangeProduct 1 n

/-- The ordered arrangements of `k` out of `n`. -/
def permutations (n k : Nat) : Except Error Nat :=
  if n < k then .error (.domain (.chooseTooMany "perm" k n))
  else .ok (rangeProduct (n - k + 1) k)

/-- The choices of `k` out of `n`. -/
def combinations (n k : Nat) : Except Error Nat :=
  if n < k then .error (.domain (.chooseTooMany "comb" k n))
  else do
    let k := min k (n - k)
    return (← permutations n k) / factorial k

/-- The largest argument of the products. -/
def maxArgument : Nat := 100000

def argument (op : String) (n : Int) : Except Error Nat :=
  if n < 0 then .error (.domain (.negativeArgument op n))
  else if maxArgument < n.natAbs then .error (.invalidArgument (.argumentTooLarge op n maxArgument))
  else .ok n.natAbs

end StackCalc.NumberTheory
