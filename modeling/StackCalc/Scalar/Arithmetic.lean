import StackCalc.Scalar

/-!
Arithmetic of scalars. Operands are promoted to one kind, the operation is done in that kind, and
a whole fraction becomes an integer. Exact operands give exact results. `digits` is the precision
of floats that are made from exact numbers on the way.
-/

namespace StackCalc.Scalar

def add (digits : Nat) (x y : Scalar) : Except Error Scalar := do
  match ← promote digits x y with
  | .integers a b => return integer (a + b)
  | .rationals a b => return reduce (rational (a + b))
  | .floats a b => return float (← a.add b)
  | .complexes a b => return complex (← a.add b)

def sub (digits : Nat) (x y : Scalar) : Except Error Scalar := do
  match ← promote digits x y with
  | .integers a b => return integer (a - b)
  | .rationals a b => return reduce (rational (a - b))
  | .floats a b => return float (← a.sub b)
  | .complexes a b => return complex (← a.sub b)

def mul (digits : Nat) (x y : Scalar) : Except Error Scalar := do
  match ← promote digits x y with
  | .integers a b => return integer (a * b)
  | .rationals a b => return reduce (rational (a * b))
  | .floats a b => return float (← a.mul b)
  | .complexes a b => return complex (← a.mul b)

/-- The quotient. Integers that do not divide give a fraction. -/
def div (digits : Nat) (x y : Scalar) : Except Error Scalar := do
  match ← promote digits x y with
  | .integers a b =>
    if b = 0 then throw .divisionByZero
    return reduce (rational (Rat.divInt a b))
  | .rationals a b =>
    if b = 0 then throw .divisionByZero
    return reduce (rational (a / b))
  | .floats a b => return float (← a.div b)
  | .complexes a b => return complex (← a.div b)

def neg : Scalar → Scalar
  | integer n => integer (-n)
  | rational q => rational (-q)
  | float x => float x.neg
  | complex z => complex z.neg

def inv (digits : Nat) (x : Scalar) : Except Error Scalar := div digits (integer 1) x

/-- The absolute value, for complex numbers the magnitude. -/
def abs : Scalar → Except Error Scalar
  | integer n => .ok (integer n.natAbs)
  | rational q => .ok (rational q.abs)
  | float x => .ok (float x.abs)
  | complex z => z.abs.map float

def order (digits : Nat) (x y : Scalar) : Except Error Ordering := do
  let pair ← promote digits x y
  match pair.first.compareSame pair.second with
  | some o => return o
  | none => throw (mismatch "compare" x.kind y.kind)

def equals (digits : Nat) (x y : Scalar) : Except Error Bool := do
  let pair ← promote digits x y
  return pair.first.same pair.second

/-- The bits of an exact result that an integer power may take. -/
def maxPowBits : Nat := 16777216

/-- The bits of a natural number, none for zero. -/
def natBits (n : Nat) : Nat := if n = 0 then 0 else n.log2 + 1

/-- The bits of the longer part of an exact scalar. -/
def exactBits? : Scalar → Option Nat
  | integer n => some (natBits n.natAbs)
  | rational q => some (max (natBits q.num.natAbs) (natBits q.den))
  | _ => none

/-- Requires that `exp` factors of so many bits stay within `maxPowBits`. -/
def checkPowSize (op : String) (bits exp : Nat) : Except Error Unit :=
  if maxPowBits < bits * exp then .error (.domain (.powerTooLong op maxPowBits)) else .ok ()

/-- The product of `acc` and `square ^ e` by repeated squaring, for any product. -/
def powLoop {α : Type} (mul : α → α → Except Error α) (acc square : α) (e : Nat) :
    Except Error α := do
  if e = 0 then return acc
  let acc ← if e % 2 = 1 then mul acc square else pure acc
  if e / 2 = 0 then return acc
  let square ← mul square square
  powLoop mul acc square (e / 2)
termination_by e

/-- Exponents from here on are refused, except for bases whose powers stay small. -/
def exponentBound : Nat := 18446744073709551616

def powNat (digits : Nat) (x : Scalar) (e : Nat) : Except Error Scalar := do
  if exponentBound ≤ e then throw (.domain .exponentTooLarge)
  if let some bits := x.exactBits? then checkPowSize "^" bits e
  powLoop (mul digits) (integer 1) x e

/-- The power of zero, one or minus one to any integer. -/
def powUnit (n e : Int) : Except Error Scalar :=
  if e < 0 ∧ n = 0 then .error .divisionByZero
  else if e = 0 ∨ (n < 0 ∧ e % 2 = 0) then .ok (integer 1)
  else .ok (integer n)

/-- The power to an integer. Negative exponents invert the positive power. -/
def powInt (digits : Nat) (x : Scalar) (e : Int) : Except Error Scalar :=
  let general :=
    if e < 0 then do (← powNat digits x e.natAbs).inv digits else powNat digits x e.natAbs
  match x with
  | integer n => if n.natAbs ≤ 1 then powUnit n e else general
  | _ => general

/-- The power. Integer exponents stay exact; other ones go through floats, or through complex
numbers for negative bases. -/
def pow (digits : Nat) (x y : Scalar) : Except Error Scalar :=
  match x, y with
  | x, integer e => powInt digits x e
  | complex b, y => do return complex (← b.pow (← y.toComplex digits))
  | x, complex e => do return complex (← (← x.toComplex digits).pow e)
  | x, y => do
    let b ← x.toFloat digits
    let e ← y.toFloat digits
    if b.isNegative then return complex (← (Complex.ofReal b).pow (Complex.ofReal e))
    return float (← b.pow e)

def exactSqrt? (n : Int) : Option Nat :=
  if n < 0 then none else Rounding.exactSqrt? n.toNat

/-- The square root of an exact scalar that has an exact one. -/
def perfectRoot? : Scalar → Option Scalar
  | integer n => (exactSqrt? n).map fun r => integer r
  | rational q =>
    match exactSqrt? q.num, exactSqrt? q.den with
    | some a, some b => some (reduce (rational (mkRat a b)))
    | _, _ => none
  | _ => none

/-- The square root, exact where there is an exact one and complex for negative numbers. -/
def sqrt (digits : Nat) (x : Scalar) : Except Error Scalar :=
  match x.perfectRoot?, x with
  | some r, _ => .ok r
  | none, complex z => do return complex (← z.sqrt)
  | none, x => do
    let f ← x.toFloat digits
    if f.isNegative then return complex (← (Complex.ofReal f).sqrt)
    return float (← f.sqrt)

/-- What is left of `a` after whole multiples of `b`, with the sign of `b`. -/
def remainder (a b : Rat) : Rat := a - b * ((a / b).floor : Rat)

def modulo (digits : Nat) (x y : Scalar) : Except Error Scalar := do
  if y.isZero then throw .divisionByZero
  match ← promote digits x y with
  | .integers a b => return integer (a.fmod b)
  | .rationals a b => return reduce (rational (remainder a b))
  | .floats a b =>
    match a.toRat?, b.toRat? with
    | some p, some q => return float (← MPFloat.ofRat (remainder p q) (max a.digits b.digits))
    | _, _ => throw (.domain .modInexact)
  | .complexes .. => throw (mismatch "mod" x.kind y.kind)

def floorDiv (a b : Int) : Except Error Int :=
  if b = 0 then .error .divisionByZero else .ok (a.fdiv b)

/-- The one of a scalar's kind and precision, an integer for exact scalars. -/
def oneLike : Scalar → Scalar
  | float x => float (.ofInt 1 x.digits)
  | complex z => complex (.ofInt 1 z.digits)
  | _ => integer 1

end StackCalc.Scalar
