import StackCalc.Enclosure
import StackCalc.ExtDyadic

/-!
Correctly rounded elementary functions. `settle` asks for an enclosure of the result at growing
scales until both of its ends round to the same number, which is then the rounding of every number
between them. The results that are exact are taken out beforehand, since no enclosure of positive
size ever decides them: the exponential of zero and its kin, and powers that are dyadic. All other
results are irrational, so some scale decides them.

Arguments so small that the result is the argument or one, and results out of the range of
exponents, are recognised by the place of their leading bit.
-/

namespace StackCalc.ExtDyadic

/-- How many times a scale is doubled before the lower end of the enclosure is taken. -/
def attempts : Nat := 32

/-- The number of `w` bits nearest to a number that `approx` encloses at every scale, times a
power of two. -/
def settle (w : Nat) (approx : Nat → Enclosure × Int) : Nat → Nat → ExtDyadic
  | 0, p =>
    let (a, e) := approx p
    nearestInt w a.lo (e - p)
  | fuel + 1, p =>
    let (a, e) := approx p
    let l := nearestInt w a.lo (e - p)
    if l = nearestInt w a.hi (e - p) then l else settle w approx fuel (2 * p)

/-- The scale to begin with for a result whose leading bit is about `2 ^ -lost`. -/
def firstScale (w lost : Nat) : Nat :=
  w + 64 + Rounding.floorSqrt w + lost

/-- Whether `x` takes no more than `w` bits and its square is below the last of them. -/
def tiny (w : Nat) (x : Dyadic) : Bool :=
  bitLength x ≤ w && 2 * lead x + w + 4 < 0

def pi (w : Nat) : ExtDyadic :=
  settle w (fun p => (Enclosure.pi p, 0)) attempts (firstScale w 0)

def halfPi (w : Nat) : ExtDyadic :=
  settle w (fun p => (Enclosure.pi p, -1)) attempts (firstScale w 0)

def exp (w : Nat) : ExtDyadic → ExtDyadic
  | infinite s => if s then finite 0 else infinite false
  | finite x =>
    if numerator x = 0 ∨ lead x + w + 3 < 0 then ofInt w 1
    else if 33 ≤ lead x then if numerator x < 0 then finite 0 else infinite false
    else
      settle w (fun p => Enclosure.exp p (Enclosure.ofScaled p (numerator x) (scale x)))
        attempts (firstScale w 0)

/-- The natural logarithm of a number above zero. -/
def ln (w : Nat) : ExtDyadic → Option ExtDyadic
  | infinite s => if s then none else some (infinite false)
  | finite x =>
    if numerator x ≤ 0 then none
    else if x = 1 then some (finite 0)
    else
      let lost := if lead x = 0 ∨ lead x = -1 then (-lead (x - 1)).toNat else 0
      some (settle w (fun p => (Enclosure.ln p (numerator x).toNat (scale x), 0))
        attempts (firstScale w lost))

/-- Applies a function of positive numbers that is even or odd. -/
def bySign (x : Dyadic) (odd : Bool) (f : Nat → ExtDyadic) : ExtDyadic :=
  let y := f (numerator x).natAbs
  if odd && numerator x < 0 then y.neg else y

def sin (w : Nat) : ExtDyadic → Option ExtDyadic
  | infinite _ => none
  | finite x =>
    if numerator x = 0 ∨ tiny w x then some (finite x)
    else some (bySign x true fun m =>
      settle w (fun p => ((Enclosure.circle p m (scale x)).2, 0)) attempts
        (firstScale w (-lead x).toNat))

def cos (w : Nat) : ExtDyadic → Option ExtDyadic
  | infinite _ => none
  | finite x =>
    if numerator x = 0 ∨ tiny w x then some (ofInt w 1)
    else some (bySign x false fun m =>
      settle w (fun p => ((Enclosure.circle p m (scale x)).1, 0)) attempts (firstScale w 0))

/-- The quotient of a sine by a cosine. While the cosine may still be zero, the whole line is
answered, so that no rounding is decided. -/
def tangent (p : Nat) (cs : Enclosure × Enclosure) : Enclosure :=
  let (c, s) := cs
  if 0 < c.lo then Enclosure.div p s c
  else if c.hi < 0 then Enclosure.div p s.neg c.neg
  else ⟨-1, 1⟩

def tan (w : Nat) : ExtDyadic → Option ExtDyadic
  | infinite _ => none
  | finite x =>
    if numerator x = 0 ∨ tiny w x then some (finite x)
    else some (bySign x true fun m =>
      settle w (fun p => (tangent p (Enclosure.circle p m (scale x)), 0)) attempts
        (firstScale w (-lead x).toNat))

def atan (w : Nat) : ExtDyadic → ExtDyadic
  | infinite s => if s then (halfPi w).neg else halfPi w
  | finite x =>
    if numerator x = 0 ∨ tiny w x then finite x
    else bySign x true fun m =>
      settle w (fun p => (Enclosure.atan p m (scale x), 0)) attempts
        (firstScale w (-lead x).toNat)

/-- Takes `n` exact square roots of `m · 2 ^ e`, for odd `m`. -/
def exactRoots : Nat → Nat → Int → Option (Nat × Int)
  | 0, m, e => some (m, e)
  | n + 1, m, e =>
    if e % 2 = 0 then (Rounding.exactSqrt? m).bind fun r => exactRoots n r (e / 2) else none

/-- The power `(m · 2 ^ e) ^ (b · 2 ^ f)`, for odd `m` and odd `b`, if it is dyadic and of so few
bits that it may be a number of `w` bits or half way between two of them. -/
def exactPower? (w m : Nat) (e b f : Int) : Option (Nat × Int) :=
  let roots := (-f).toNat
  if 64 < roots ∨ (b < 0 ∧ m ≠ 1) then none
  else
    (exactRoots roots m e).bind fun (r, d) =>
      let n := b.natAbs <<< f.toNat
      if r = 1 ∨ n * r.log2 ≤ w + 2 then
        some (Nat.pow r (if r = 1 then 0 else n), d * b * Nat.pow 2 f.toNat)
      else none

/-- An enclosure at scale `p` of `y · ln x`, for `x = m · 2 ^ e` and `y = b · 2 ^ f`. -/
def scaledLog (p m : Nat) (e b f : Int) : Enclosure :=
  let q := p + 8 + (f + b.natAbs.log2 + 1).toNat
  let l := Enclosure.times b (Enclosure.ln q m e)
  let s := f + (p : Int) - q
  if 0 ≤ s then l.double s.toNat else l.halve (-s).toNat

/-- The power of a positive number other than one to an exponent other than zero. The place of the
leading bit of the logarithm of the result tells results out of range and results next to one. -/
def powPositive (w : Nat) (x y : Dyadic) : ExtDyadic :=
  let m := (numerator x).natAbs
  let e := scale x
  let b := numerator y
  let f := scale y
  let logBase := match ln w (finite x) with
    | some (finite l) => l
    | _ => 0
  let size := lead y + lead logBase
  if 33 ≤ size then
    if decide (b < 0) != decide (numerator logBase < 0) then finite 0 else infinite false
  else if size + w + 4 < 0 then ofInt w 1
  else match exactPower? w m e b f with
    | some (r, d) => nearestInt w r d
    | none =>
      settle w (fun p => Enclosure.exp p (scaledLog p m e b f)) attempts (firstScale w 0)

def isOddInt (y : Dyadic) : Bool :=
  numerator y ≠ 0 && scale y = 0

def isInt (y : Dyadic) : Bool :=
  0 ≤ scale y

/-- The power of finite numbers. A negative base takes integer exponents only. -/
def powFinite (w : Nat) (x y : Dyadic) : Option ExtDyadic :=
  if numerator y = 0 then some (ofInt w 1)
  else if numerator x = 0 then some (finite 0)
  else if numerator x < 0 && !isInt y then none
  else
    let r := if numerator x = 1 ∧ scale x = 0 ∨ numerator x = -1 ∧ scale x = 0 then ofInt w 1
      else powPositive w (if numerator x < 0 then -x else x) y
    some (if numerator x < 0 && isOddInt y then r.neg else r)

/-- The power. An infinite exponent keeps its sign above a base of one and gives zero below it. -/
def pow (w : Nat) : ExtDyadic → ExtDyadic → Option ExtDyadic
  | finite x, finite y => powFinite w x y
  | finite x, infinite s =>
    some (match compareWith (finite x) (finite 1) with
      | .gt => infinite s
      | .eq => ofInt w 1
      | .lt => finite 0)
  | infinite s, finite y =>
    some (if numerator y = 0 then ofInt w 1
      else if numerator y < 0 then finite 0
      else infinite (s && isOddInt y))
  | infinite _, infinite t => some (if t then finite 0 else infinite false)

end StackCalc.ExtDyadic
