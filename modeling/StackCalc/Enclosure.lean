import StackCalc.Rounding

/-!
Enclosures of real numbers between two integers at a common binary scale: `⟨lo, hi⟩` at scale `p`
stands for the numbers from `lo / 2 ^ p` to `hi / 2 ^ p`. Each operation rounds its lower end down
and its upper end up, so the exact result of exact arguments stays inside.

The elementary functions are sums of power series. The argument is first made small by the
function's own identities (halving for the exponential, the half angle, the square root), and a
series is cut off where its terms fall below the last place, which the ends then allow for.
-/

namespace StackCalc

/-- The numbers between two integers at a common scale. -/
structure Enclosure where
  lo : Int
  hi : Int

namespace Enclosure

/-- `a / 2 ^ k` rounded down. -/
def shiftDown (a : Int) (k : Nat) : Int :=
  a >>> k

/-- `a / 2 ^ k` rounded up. -/
def shiftUp (a : Int) (k : Nat) : Int :=
  -((-a) >>> k)

def ofInt (p : Nat) (n : Int) : Enclosure :=
  ⟨n <<< p, n <<< p⟩

/-- The enclosure of `m · 2 ^ e`. -/
def ofScaled (p : Nat) (m e : Int) : Enclosure :=
  let s := e + p
  if 0 ≤ s then ⟨m <<< s.toNat, m <<< s.toNat⟩
  else ⟨shiftDown m (-s).toNat, shiftUp m (-s).toNat⟩

def add (a b : Enclosure) : Enclosure := ⟨a.lo + b.lo, a.hi + b.hi⟩

def neg (a : Enclosure) : Enclosure := ⟨-a.hi, -a.lo⟩

def sub (a b : Enclosure) : Enclosure := a.add b.neg

/-- The enclosure with both ends moved out by `n` units of the last place. -/
def widen (n : Nat) (a : Enclosure) : Enclosure := ⟨a.lo - n, a.hi + n⟩

def times (c : Int) (a : Enclosure) : Enclosure :=
  if 0 ≤ c then ⟨c * a.lo, c * a.hi⟩ else ⟨c * a.hi, c * a.lo⟩

def double (k : Nat) (a : Enclosure) : Enclosure := ⟨a.lo <<< k, a.hi <<< k⟩

def halve (k : Nat) (a : Enclosure) : Enclosure := ⟨shiftDown a.lo k, shiftUp a.hi k⟩

def divNat (a : Enclosure) (n : Nat) : Enclosure := ⟨a.lo / n, -((-a.hi) / n)⟩

/-- The product at scale `p`. -/
def mul (p : Nat) (a b : Enclosure) : Enclosure :=
  if 0 ≤ a.lo ∧ 0 ≤ b.lo then ⟨shiftDown (a.lo * b.lo) p, shiftUp (a.hi * b.hi) p⟩
  else
    let ll := a.lo * b.lo
    let lh := a.lo * b.hi
    let hl := a.hi * b.lo
    let hh := a.hi * b.hi
    ⟨shiftDown (min (min ll lh) (min hl hh)) p, shiftUp (max (max ll lh) (max hl hh)) p⟩

/-- The quotient at scale `p` by numbers above zero. -/
def div (p : Nat) (a b : Enclosure) : Enclosure :=
  let lo := (a.lo <<< p) / (if 0 ≤ a.lo then b.hi else b.lo)
  let hi := -(((-a.hi) <<< p) / (if 0 ≤ a.hi then b.lo else b.hi))
  ⟨lo, hi⟩

/-- The square root at scale `p` of numbers that are not negative. -/
def sqrt (p : Nat) (a : Enclosure) : Enclosure :=
  ⟨Rounding.floorSqrt (a.lo.toNat <<< p), Rounding.floorSqrt (a.hi.toNat <<< p) + 1⟩

/-- How often the argument of a series is halved at scale `p`: about the square root of the
scale, where the halvings and the terms saved balance. -/
def halvings (p : Nat) : Nat := Rounding.floorSqrt p / 2 + 2

/-- The sum of `± n ^ -(2k+1) / (2k+1)` from the term `k` on, where `u` is `n ^ -(2k+1)` rounded
down, with the number of terms added. -/
def inverseTerms (n : Nat) (alternating : Bool) :
    Nat → Nat → Nat → Int → Nat → Int × Nat
  | 0, _, _, acc, count => (acc, count)
  | fuel + 1, u, k, acc, count =>
    if u = 0 then (acc, count)
    else
      let t : Int := (u / (2 * k + 1) : Nat)
      inverseTerms n alternating fuel (u / (n * n)) (k + 1)
        (if alternating && k % 2 == 1 then acc - t else acc + t) (count + 1)

/-- The inverse tangent of `1 / n`, or the inverse hyperbolic tangent if the series does not
alternate, for `n ≥ 2`. Each term is below its exact value by less than one unit. -/
def inverseOdd (p n : Nat) (alternating : Bool) : Enclosure :=
  let (s, count) := inverseTerms n alternating (p + 2) ((1 <<< p) / n) 0 0 0
  widen (count + 2) ⟨s, s⟩

/-- The natural logarithm of two, from three inverse hyperbolic tangents. -/
def lnTwo (p : Nat) : Enclosure :=
  ((times 18 (inverseOdd p 26 false)).sub (times 2 (inverseOdd p 4801 false))).add
    (times 8 (inverseOdd p 8749 false))

/-- The circle constant, from two inverse tangents. -/
def pi (p : Nat) : Enclosure :=
  (times 16 (inverseOdd p 5 true)).sub (times 4 (inverseOdd p 239 true))

/-- The sum of `r ^ k / k!` from the term after `t`, which is the `k`-th. -/
def expTerms (p : Nat) (r : Enclosure) : Nat → Nat → Enclosure → Enclosure → Enclosure
  | 0, _, _, acc => acc
  | fuel + 1, k, t, acc =>
    let u := (mul p t r).divNat (k + 1)
    if u.hi ≤ 1 then (acc.add u).widen 2 else expTerms p r fuel (k + 1) u (acc.add u)

def squareTimes (p : Nat) : Nat → Enclosure → Enclosure
  | 0, a => a
  | n + 1, a => squareTimes p n (mul p a a)

/-- The exponential of numbers from zero to one. -/
def expSmall (p : Nat) (r : Enclosure) : Enclosure :=
  let j := halvings p
  let one := ofInt p 1
  squareTimes p j (expTerms p (r.halve j) (p + 2) 0 one one)

/-- The exponential of any numbers, as numbers near one times a power of two. -/
def exp (p : Nat) (y : Enclosure) : Enclosure × Int :=
  let q := p + 64
  let l := lnTwo q
  let z := y.double 64
  let k := z.lo / l.hi
  (expSmall p ((z.sub (times k l)).halve 64), k)

/-- The sum of `z ^ (2k+1) / (2k+1)` from the term `k` on, where `u` is `z ^ (2k+1)` and `s` is
the square of `z`. -/
def oddTerms (p : Nat) (s : Enclosure) (alternating : Bool) :
    Nat → Enclosure → Nat → Enclosure → Enclosure
  | 0, _, _, acc => acc
  | fuel + 1, u, k, acc =>
    let t := u.divNat (2 * k + 1)
    let acc := if alternating && k % 2 == 1 then acc.sub t else acc.add t
    if u.hi ≤ 1 then acc.widen 2 else oddTerms p s alternating fuel (mul p u s) (k + 1) acc

/-- The inverse tangent or inverse hyperbolic tangent of small numbers that are not negative. -/
def oddSeries (p : Nat) (z : Enclosure) (alternating : Bool) : Enclosure :=
  oddTerms p (mul p z z) alternating (p + 2) z 0 ⟨0, 0⟩

def rootTimes (p : Nat) : Nat → Enclosure → Enclosure
  | 0, a => a
  | n + 1, a => rootTimes p n (sqrt p a)

/-- The logarithm of numbers from one to two: `j` square roots divide it by `2 ^ j`, and the
logarithm of `y` is twice the inverse hyperbolic tangent of `(y - 1) / (y + 1)`. -/
def lnSmall (p : Nat) (m : Enclosure) : Enclosure :=
  let j := 2 * p.log2
  let one := ofInt p 1
  let y := rootTimes p j m
  (oddSeries p (div p (y.sub one) (y.add one)) false).double (j + 1)

/-- The logarithm of `m · 2 ^ e` for positive `m`. -/
def ln (p : Nat) (m : Nat) (e : Int) : Enclosure :=
  let b := m.log2
  let q := p + 64
  ((times (e + b) (lnTwo q)).halve 64).add (lnSmall p (ofScaled p m (-(b : Int))))

/-- The half angle of an inverse tangent: `t / (1 + √(1 + t²))`, taken `n` times. -/
def halfAngles (p : Nat) : Nat → Enclosure → Enclosure
  | 0, t => t
  | n + 1, t =>
    let one := ofInt p 1
    halfAngles p n (div p t (one.add (sqrt p (one.add (mul p t t)))))

/-- The inverse tangent of numbers from zero to one. -/
def atanSmall (p : Nat) (t : Enclosure) : Enclosure :=
  let j := 2 * p.log2
  (oddSeries p (halfAngles p j t) true).double j

/-- The inverse tangent of `m · 2 ^ e` for positive `m`. Numbers above one go through their
reciprocal. -/
def atan (p : Nat) (m : Nat) (e : Int) : Enclosure :=
  let top := e + m.log2
  if top < 0 then atanSmall p (ofScaled p m e)
  else
    let r : Enclosure :=
      if p + 2 < top then ⟨0, 1⟩
      else
        let n := 1 <<< (p + (-e).toNat)
        let d := m <<< e.toNat
        ⟨(n / d : Nat), (n / d + 1 : Nat)⟩
    ((pi (p + 1)).halve 2).sub (atanSmall p r)

/-- The sums of the even and of the odd terms of the exponential series, each with alternating
signs, from the term after `t`, which is the `k`-th: the cosine and the sine. -/
def circleTerms (p : Nat) (r : Enclosure) :
    Nat → Nat → Enclosure → Enclosure → Enclosure → Enclosure × Enclosure
  | 0, _, _, c, s => (c, s)
  | fuel + 1, k, t, c, s =>
    let u := (mul p t r).divNat (k + 1)
    let c := match (k + 1) % 4 with
      | 0 => c.add u
      | 2 => c.sub u
      | _ => c
    let s := match (k + 1) % 4 with
      | 1 => s.add u
      | 3 => s.sub u
      | _ => s
    if u.hi ≤ 1 then (c.widen 2, s.widen 2) else circleTerms p r fuel (k + 1) u c s

/-- The cosine and sine of twice an angle, taken `n` times. -/
def doubleAngles (p : Nat) : Nat → Enclosure × Enclosure → Enclosure × Enclosure
  | 0, cs => cs
  | n + 1, (c, s) => doubleAngles p n ((mul p c c).sub (mul p s s), (mul p c s).double 1)

/-- The cosine and the sine of numbers from zero to two. -/
def circleSmall (p : Nat) (r : Enclosure) : Enclosure × Enclosure :=
  let j := halvings p
  let one := ofInt p 1
  doubleAngles p j (circleTerms p (r.halve j) (p + 2) 0 one one ⟨0, 0⟩)

/-- The cosine and the sine of `m · 2 ^ e` for positive `m`, by the quarter turn it lies in. -/
def circle (p : Nat) (m : Nat) (e : Int) : Enclosure × Enclosure :=
  let q := p + (e + m.log2).toNat + 8
  let quarter := (pi (q + 1)).halve 2
  let x := ofScaled q m e
  let n := x.lo / quarter.hi
  let (c, s) := circleSmall p ((x.sub (times n quarter)).halve (q - p))
  match (n % 4).toNat with
  | 0 => (c, s)
  | 1 => (s.neg, c)
  | 2 => (c.neg, s.neg)
  | _ => (s, c.neg)

end Enclosure
end StackCalc
