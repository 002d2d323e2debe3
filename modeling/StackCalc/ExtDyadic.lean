import StackCalc.Rounding

/-!
Dyadic rationals with two infinities, rounded to a width in bits. A dyadic rational has one form
with an odd numerator, so two of them are equal as numbers exactly when they are equal as data.

Each operation computes its exact result as a quotient of integers times a power of two, and
`nearest` rounds that once, to the nearest number of the given width, a tie going to the even
neighbour. An operation without a meaning, such as infinity less infinity, has no result.
-/

namespace StackCalc

/-- A dyadic rational or a signed infinity. -/
inductive ExtDyadic where
  | finite (x : Dyadic)
  | infinite (negative : Bool)
deriving DecidableEq

namespace ExtDyadic

/-- The largest power of two `e` of a number `0.1… · 2 ^ e`, up to sign. Larger numbers are
infinite and smaller ones zero. -/
def maxExponent : Int := 2147483647

/-- The odd numerator of a dyadic rational, or zero. -/
def numerator : Dyadic → Int
  | .zero => 0
  | .ofOdd n _ _ => n

/-- The power of two by which the numerator is scaled. -/
def scale : Dyadic → Int
  | .zero => 0
  | .ofOdd _ k _ => -k

/-- The place of the leading bit: `2 ^ lead x ≤ |x| < 2 ^ (lead x + 1)` for `x ≠ 0`. -/
def lead (x : Dyadic) : Int :=
  (numerator x).natAbs.log2 + scale x

def bitLength (x : Dyadic) : Nat :=
  (numerator x).natAbs.log2 + 1

/-- The dyadic rational `m · 2 ^ e`. The trailing zeros of `m` are the bits that `m` and `m - 1`
share above the last one, so they are dropped in one step. -/
def scaled (m e : Int) : Dyadic :=
  let n := m.natAbs
  let z := (n ^^^ (n - 1)).log2
  let q := m >>> z
  if q <<< z = m then .ofIntWithPrec q (-(e + z)) else .ofIntWithPrec m (-e)

/-- The number `± m · 2 ^ e`, unless its exponent is out of range. -/
def inRange (negative : Bool) (m : Nat) (e : Int) : ExtDyadic :=
  let top : Int := m.log2 + 1 + e
  if maxExponent < top then infinite negative
  else if top < -maxExponent then finite 0
  else finite (scaled (if negative then -m else m) e)

/-- The number of `w` bits nearest to `± (n / d) · 2 ^ e`, a tie going to the even neighbour. -/
def nearest (w : Nat) (negative : Bool) (n d : Nat) (e : Int) : ExtDyadic :=
  if n = 0 then finite 0
  else
    let s : Int := (w : Int) - 1 - Rounding.floorLog2 n d
    inRange negative (Rounding.halfEven (n <<< s.toNat) (d <<< (-s).toNat)) (e - s)

/-- The number of `w` bits nearest to `m · 2 ^ e`. -/
def nearestInt (w : Nat) (m e : Int) : ExtDyadic :=
  nearest w (m < 0) m.natAbs 1 e

/-- A number rounded to another width. -/
def round (w : Nat) : ExtDyadic → ExtDyadic
  | finite x => nearestInt w (numerator x) (scale x)
  | infinite s => infinite s

def ofInt (w : Nat) (n : Int) : ExtDyadic :=
  nearestInt w n 0

def isZero (x : ExtDyadic) : Bool :=
  x = finite 0

/-- Whether a number is below zero. -/
def isNegative : ExtDyadic → Bool
  | finite x => numerator x < 0
  | infinite s => s

def isFinite : ExtDyadic → Bool
  | finite _ => true
  | infinite _ => false

def neg : ExtDyadic → ExtDyadic
  | finite x => finite (-x)
  | infinite s => infinite (!s)

def abs (x : ExtDyadic) : ExtDyadic :=
  if x.isNegative then x.neg else x

/-- Whether `y` is too small beside `x` to change `x` in rounding: it is less than a quarter of
the last place that `w` bits give `x`, and `x` itself takes no more than `w` bits. -/
def negligible (w : Nat) (x y : Dyadic) : Bool :=
  bitLength x ≤ w && lead y + 3 + w < lead x

/-- The exact sum, over the smaller of the two scales. -/
def sumFinite (w : Nat) (x y : Dyadic) : ExtDyadic :=
  let e := min (scale x) (scale y)
  nearestInt w
    (numerator x <<< (scale x - e).toNat + numerator y <<< (scale y - e).toNat) e

/-- The rounded sum. A negligible operand is left out, which spares aligning it. -/
def add (w : Nat) : ExtDyadic → ExtDyadic → Option ExtDyadic
  | finite x, finite y =>
    if numerator x = 0 then some (round w (finite y))
    else if numerator y = 0 then some (round w (finite x))
    else if negligible w x y then some (finite x)
    else if negligible w y x then some (finite y)
    else some (sumFinite w x y)
  | finite _, infinite s => some (infinite s)
  | infinite s, finite _ => some (infinite s)
  | infinite s, infinite t => if s = t then some (infinite s) else none

def sub (w : Nat) (x y : ExtDyadic) : Option ExtDyadic :=
  add w x y.neg

def mul (w : Nat) : ExtDyadic → ExtDyadic → Option ExtDyadic
  | finite x, finite y => some (nearestInt w (numerator x * numerator y) (scale x + scale y))
  | x, y =>
    if x.isZero || y.isZero then none else some (infinite (x.isNegative != y.isNegative))

/-- The rounded quotient by a number that is not zero. -/
def div (w : Nat) : ExtDyadic → ExtDyadic → Option ExtDyadic
  | finite x, finite y =>
    if numerator y = 0 then none
    else some (nearest w (decide (numerator x < 0) != decide (numerator y < 0)) (numerator x).natAbs
      (numerator y).natAbs (scale x - scale y))
  | finite _, infinite _ => some (finite 0)
  | infinite s, finite y => some (infinite (s != decide (numerator y < 0)))
  | infinite _, infinite _ => none

/-- The rounded square root of a number that is not negative. The radicand is scaled by an even
power of two until its integer root has two bits more than `w`; a root that is not exact is
replaced by the half above its integer part, which rounds alike. -/
def sqrt (w : Nat) : ExtDyadic → Option ExtDyadic
  | infinite s => if s then none else some (infinite false)
  | finite x =>
    let n := (numerator x).toNat
    if numerator x < 0 then none
    else if n = 0 then some (finite 0)
    else
      let odd := (scale x % 2).toNat
      let s := w + 2
      let m := n <<< (2 * s + odd)
      let r := Rounding.floorSqrt m
      let half := (scale x - odd) / 2 - s
      some (nearest w false (if r * r = m then 2 * r else 2 * r + 1) 1 (half - 1))

/-- The order of two positive dyadic rationals, by the place of the leading bit and then by the
aligned numerators. -/
def comparePositive (x y : Dyadic) : Ordering :=
  if lead x < lead y then .lt
  else if lead y < lead x then .gt
  else
    let e := min (scale x) (scale y)
    compare (numerator x <<< (scale x - e).toNat) (numerator y <<< (scale y - e).toNat)

def compareWith : ExtDyadic → ExtDyadic → Ordering
  | finite x, finite y =>
    let sx := (numerator x).sign
    let sy := (numerator y).sign
    if sx ≠ sy then compare sx sy
    else if sx = 0 then .eq
    else if sx = 1 then comparePositive x y
    else comparePositive (-y) (-x)
  | finite _, infinite s => if s then .gt else .lt
  | infinite s, finite _ => if s then .lt else .gt
  | infinite s, infinite t => if s = t then .eq else if s then .lt else .gt

end ExtDyadic
end StackCalc
