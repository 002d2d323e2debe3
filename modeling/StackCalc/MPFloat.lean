import StackCalc.Error
import StackCalc.ExtDyadic.Elementary
import StackCalc.ExtDyadic.Text

/-!
Floats of any precision. A float remembers how many decimal digits it is good for; its binary
width follows from that number and holds guard bits, so that decimal numbers of that many digits
are found again in it. A binary operation works at the larger precision of its operands. Every
operation rounds its exact result once, and one without a numerical result is a domain error.
-/

namespace StackCalc

/-- A number with a precision in decimal digits. -/
structure MPFloat where
  digits : Nat
  value : ExtDyadic
deriving DecidableEq

namespace MPFloat

/-- The precision of numbers for which none is given. -/
def defaultDigits : Nat := 32

/-- The bits for a number of decimal digits: as many as they need, and 64 guard bits. Both the
factor, the binary logarithm of ten, and the product are taken to 53 bits. -/
def bitsFor (digits : Nat) : Nat :=
  let n := max digits 1 * 7480317065143153
  let s := n.log2 - 52
  let product := Rounding.halfEven n (Nat.pow 2 s) * Nat.pow 2 s
  (product + 2251799813685247) / 2251799813685248 + 64

/-- The binary width for a number of decimal digits, in whole words of 64 bits. -/
def width (digits : Nat) : Nat :=
  (bitsFor digits + 63) / 64 * 64

/-- A result, unless it is not a number. -/
def checked (digits : Nat) : Option ExtDyadic → Except Error MPFloat
  | some x => .ok ⟨digits, x⟩
  | none => .error (.domain .notANumber)

def parse (text : String) (digits : Nat) : Except Error MPFloat :=
  match ExtDyadic.parse (width digits) text with
  | some x => .ok ⟨digits, x⟩
  | none => .error (.invalidArgument (.notANumeral text))

def zero (digits : Nat) : MPFloat := ⟨digits, .finite 0⟩

def ofInt (n : Int) (digits : Nat) : MPFloat :=
  ⟨digits, .ofInt (width digits) n⟩

def isZero (x : MPFloat) : Bool := x.value.isZero

def isNegative (x : MPFloat) : Bool := x.value.isNegative

def isFinite (x : MPFloat) : Bool := x.value.isFinite

/-- Whether two floats are the same number, whatever their precisions. -/
def same (x y : MPFloat) : Bool := x.value = y.value

def compareWith (x y : MPFloat) : Ordering := x.value.compareWith y.value

/-- A number rounded to another precision. -/
def withDigits (x : MPFloat) (digits : Nat) : MPFloat :=
  ⟨digits, x.value.round (width digits)⟩

def binary (f : Nat → ExtDyadic → ExtDyadic → Option ExtDyadic) (x y : MPFloat) :
    Except Error MPFloat :=
  let d := max x.digits y.digits
  checked d (f (width d) x.value y.value)

/-- Applies an operation at the precision of its operand. -/
def unary (f : Nat → ExtDyadic → Option ExtDyadic) (x : MPFloat) : Except Error MPFloat :=
  checked x.digits (f (width x.digits) x.value)

def add (x y : MPFloat) : Except Error MPFloat := binary ExtDyadic.add x y

def sub (x y : MPFloat) : Except Error MPFloat := binary ExtDyadic.sub x y

def mul (x y : MPFloat) : Except Error MPFloat := binary ExtDyadic.mul x y

def div (x y : MPFloat) : Except Error MPFloat :=
  if y.isZero then .error .divisionByZero else binary ExtDyadic.div x y

def neg (x : MPFloat) : MPFloat := { x with value := x.value.neg }

def abs (x : MPFloat) : MPFloat := { x with value := x.value.abs }

/-- A fraction. Numerator and denominator are rounded before they are divided. -/
def ofRat (q : Rat) (digits : Nat) : Except Error MPFloat :=
  (ofInt q.num digits).div (ofInt q.den digits)

def sqrt (x : MPFloat) : Except Error MPFloat :=
  if x.isNegative then .error (.domain .rootOfNegative) else unary ExtDyadic.sqrt x

/-- A power. The first power is the number itself, in the bits that its digits need; every other
power is rounded to the whole width. -/
def pow (x y : MPFloat) : Except Error MPFloat :=
  if x.isZero && y.isNegative then .error .divisionByZero
  else if y.value = .finite 1 then
    let d := max x.digits y.digits
    .ok ⟨d, x.value.round (bitsFor d)⟩
  else binary ExtDyadic.pow x y

def exp (x : MPFloat) : Except Error MPFloat := unary (fun w a => some (.exp w a)) x

def ln (x : MPFloat) : Except Error MPFloat :=
  if x.isZero || x.isNegative then .error (.domain .logOfNonPositive) else unary ExtDyadic.ln x

def sin (x : MPFloat) : Except Error MPFloat := unary ExtDyadic.sin x

def cos (x : MPFloat) : Except Error MPFloat := unary ExtDyadic.cos x

def tan (x : MPFloat) : Except Error MPFloat := unary ExtDyadic.tan x

def atan (x : MPFloat) : Except Error MPFloat := unary (fun w a => some (.atan w a)) x

def pi (digits : Nat) : MPFloat := ⟨digits, .pi (width digits)⟩

/-- The angle of the point `(x, y)`, from `-π` to `π`. -/
def atan2 (y x : MPFloat) : Except Error MPFloat := do
  let d := max y.digits x.digits
  if x.isZero then
    if y.isZero then return zero d
    let quarter ← (pi d).div (ofInt 2 d)
    return if y.isNegative then quarter.neg else quarter
  let base ← (← y.div x).atan
  if !x.isNegative then return base
  if y.isNegative then base.sub (pi d) else base.add (pi d)

/-- The decimal digits of a float. Infinities have none. No text is written and read in between: the
text of these digits is read as they are (`Regular.inWords`). -/
def toDecimal (x : MPFloat) : Option Decimal :=
  x.value.toDecimal (width x.digits)

/-- The fraction that the digits of the float's own precision denote. Exponents of floats are too
small for the words of decimal numbers to overflow, here and below, so nothing checks for that. -/
def toRat? (x : MPFloat) : Option Rat :=
  x.toDecimal.bind fun d => (d.nearestSig x.digits).toRat?

/-- Whether the digits of the float's own precision denote an integer. -/
def isIntegral (x : MPFloat) : Bool :=
  match x.toDecimal with
  | some d => (d.nearestSig x.digits).isWhole
  | none => false

def format (x : MPFloat) (digits : Nat) : String :=
  match x.toDecimal with
  | some d => (d.nearestSig digits).text digits
  | none => if x.isNegative then "-inf" else "inf"

def text (x : MPFloat) : String := x.format x.digits

end MPFloat
end StackCalc
