import StackCalc.MPFloat

/-!
Complex numbers with float parts. The formulas are the textbook ones, and every step of them
rounds at the precision of its own operands.
-/

namespace StackCalc

structure Complex where
  re : MPFloat
  im : MPFloat
deriving DecidableEq

namespace Complex

def ofReal (re : MPFloat) : Complex := ⟨re, .zero re.digits⟩

def ofInt (n : Int) (digits : Nat) : Complex := ofReal (.ofInt n digits)

def i (digits : Nat) : Complex := ⟨.zero digits, .ofInt 1 digits⟩

/-- The number with a magnitude and an angle in radians. -/
def ofPolar (magnitude angle : MPFloat) : Except Error Complex := do
  return ⟨← magnitude.mul (← angle.cos), ← magnitude.mul (← angle.sin)⟩

def digits (z : Complex) : Nat := max z.re.digits z.im.digits

def isZero (z : Complex) : Bool := z.re.isZero && z.im.isZero

def isReal (z : Complex) : Bool := z.im.isZero

/-- Whether two complex numbers are the same, whatever their precisions. -/
def same (z w : Complex) : Bool := z.re.same w.re && z.im.same w.im

def add (z w : Complex) : Except Error Complex := do
  return ⟨← z.re.add w.re, ← z.im.add w.im⟩

def sub (z w : Complex) : Except Error Complex := do
  return ⟨← z.re.sub w.re, ← z.im.sub w.im⟩

def mul (z w : Complex) : Except Error Complex := do
  let re ← (← z.re.mul w.re).sub (← z.im.mul w.im)
  let im ← (← z.re.mul w.im).add (← z.im.mul w.re)
  return ⟨re, im⟩

def div (z w : Complex) : Except Error Complex := do
  if w.isZero then throw .divisionByZero
  let norm ← (← w.re.mul w.re).add (← w.im.mul w.im)
  let re ← (← z.re.mul w.re).add (← z.im.mul w.im)
  let im ← (← z.im.mul w.re).sub (← z.re.mul w.im)
  return ⟨← re.div norm, ← im.div norm⟩

def neg (z : Complex) : Complex := ⟨z.re.neg, z.im.neg⟩

def conj (z : Complex) : Complex := ⟨z.re, z.im.neg⟩

def abs (z : Complex) : Except Error MPFloat := do
  (← (← z.re.mul z.re).add (← z.im.mul z.im)).sqrt

/-- The angle in radians, above `-π` and up to `π`. -/
def arg (z : Complex) : Except Error MPFloat := MPFloat.atan2 z.im z.re

/-- The principal square root, from half the sum and half the difference of the magnitude and the
real part. -/
def sqrt (z : Complex) : Except Error Complex := do
  if z.isZero then return z
  let two := MPFloat.ofInt 2 z.digits
  let magnitude ← z.abs
  let re ← (← (← magnitude.add z.re).div two).sqrt
  let im ← (← (← magnitude.sub z.re).div two).sqrt
  return ⟨re, if z.im.isNegative then im.neg else im⟩

def exp (z : Complex) : Except Error Complex := do
  let size ← z.re.exp
  return ⟨← size.mul (← z.im.cos), ← size.mul (← z.im.sin)⟩

def ln (z : Complex) : Except Error Complex := do
  if z.isZero then throw (.domain .logOfZero)
  return ⟨← (← z.abs).ln, ← z.arg⟩

/-- The sine, `(e^{iz} - e^{-iz}) / 2i`. -/
def sin (z : Complex) : Except Error Complex := do
  let i := i z.digits
  let iz ← i.mul z
  let difference ← (← iz.exp).sub (← iz.neg.exp)
  difference.div (← (ofInt 2 z.digits).mul i)

/-- The cosine, `(e^{iz} + e^{-iz}) / 2`. -/
def cos (z : Complex) : Except Error Complex := do
  let iz ← (i z.digits).mul z
  let sum ← (← iz.exp).add (← iz.neg.exp)
  sum.div (ofInt 2 z.digits)

def tan (z : Complex) : Except Error Complex := do
  (← z.sin).div (← z.cos)

/-- The inverse tangent, `(i / 2) ln ((i + z) / (i - z))`. -/
def atan (z : Complex) : Except Error Complex := do
  let i := i z.digits
  let quotient ← (← i.add z).div (← i.sub z)
  let half ← i.div (ofInt 2 z.digits)
  half.mul (← quotient.ln)

/-- The power `e^{w ln z}`. Zero to any power but zero is zero. -/
def pow (z w : Complex) : Except Error Complex := do
  if z.isZero then return if w.isZero then ofInt 1 z.digits else z
  (← w.mul (← z.ln)).exp

end Complex
end StackCalc
