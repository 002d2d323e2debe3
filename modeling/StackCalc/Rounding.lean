/-!
Rounding of exact quotients of naturals. Every inexact step of the calculator ends in `halfEven`
or `halfUp`: the quotient is exact until then, so the nearest integer is decided by its remainder.
`floorLog2` and `floorLog10` find the leading place of a quotient without forming it, and
`floorSqrt` is the integer square root by Newton's iteration from above.
-/

namespace StackCalc.Rounding

/-- The natural number nearest to `n / d`. Of two equally near ones it is the even one. -/
def halfEven (n d : Nat) : Nat :=
  let q := n / d
  let r := n % d
  if 2 * r < d then q
  else if d < 2 * r then q + 1
  else q + q % 2

/-- The natural number nearest to `n / d`. Of two equally near ones it is the larger one. -/
def halfUp (n d : Nat) : Nat :=
  (2 * n + d) / (2 * d)

/-- The `k` with `2 ^ k ≤ n / d < 2 ^ (k + 1)`, for positive `n` and `d`. -/
def floorLog2 (n d : Nat) : Int :=
  let k : Int := (n.log2 : Int) - d.log2
  if d <<< k.toNat ≤ n <<< (-k).toNat then k else k - 1

/-- Whether `10 ^ k ≤ n / d`. -/
def powTenLe (k : Int) (n d : Nat) : Bool :=
  d * Nat.pow 10 k.toNat ≤ n * Nat.pow 10 (-k).toNat

/-- The `k` with `10 ^ k ≤ n / d < 10 ^ (k + 1)`, for positive `n` and `d`. The leading binary
place gives `k` up to one unit, and two comparisons settle it. -/
def floorLog10 (n d : Nat) : Int :=
  let k := floorLog2 n d * 301029995663981195 / 1000000000000000000
  if powTenLe (k + 1) n d then k + 1
  else if powTenLe k n d then k
  else k - 1

/-- Newton's iteration for the square root of `n`, run while the guess gets smaller. -/
def descend (n guess : Nat) : Nat :=
  let next := (n / guess + guess) / 2
  if next < guess then descend n next else guess
termination_by guess

/-- The largest natural number whose square is at most `n`. The first guess is above the root. -/
def floorSqrt (n : Nat) : Nat :=
  if n ≤ 1 then n else descend n (1 <<< (n.log2 / 2 + 1))

def exactSqrt? (n : Nat) : Option Nat :=
  let r := floorSqrt n
  if r * r = n then some r else none

/-- The integer part, towards zero. -/
def truncate (q : Rat) : Int :=
  q.num.tdiv q.den

/-- The nearest integer, a half going away from zero. -/
def nearest (q : Rat) : Int :=
  if q.num < 0 then -(halfUp q.num.natAbs q.den : Int) else halfUp q.num.natAbs q.den

end StackCalc.Rounding
