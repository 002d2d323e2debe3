import StackCalc.Value.Lattice

/-!
Scalar arithmetic on values. Scalars are added, multiplied and so on as scalars, and any other
kind of operand is refused by a message that names the kinds.
-/

namespace StackCalc.Value

def onScalars (op : String) (f : Scalar → Scalar → Except Error Scalar) :
    Value → Value → Except Error Value
  | scalar x, scalar y => (f x y).map scalar
  | x, y => .error (Scalar.mismatch op x.kind y.kind)

def add (digits : Nat) (x y : Value) : Except Error Value := onScalars "+" (Scalar.add digits) x y

def sub (digits : Nat) (x y : Value) : Except Error Value := onScalars "-" (Scalar.sub digits) x y

def mul (digits : Nat) (x y : Value) : Except Error Value := onScalars "*" (Scalar.mul digits) x y

def div (digits : Nat) (x y : Value) : Except Error Value := onScalars "/" (Scalar.div digits) x y

def neg : Value → Except Error Value
  | scalar x => .ok (scalar x.neg)
  | v => .error (.typeMismatch "neg" v.kind.name)

def inv (digits : Nat) (v : Value) : Except Error Value := div digits (integer 1) v

/-- The absolute value, which for a complex number is its magnitude. -/
def abs : Value → Except Error Value
  | scalar x => x.abs.map scalar
  | v => .error (.typeMismatch "abs" v.kind.name)

def sqrt (digits : Nat) : Value → Except Error Value
  | scalar x => (x.sqrt digits).map scalar
  | v => .error (.typeMismatch "sqrt" v.kind.name)

def order (digits : Nat) : Value → Value → Except Error Ordering
  | scalar x, scalar y => Scalar.order digits x y
  | x, y => .error (Scalar.mismatch "compare" x.kind y.kind)

/-- Equality, between scalars after promotion. -/
def equals (digits : Nat) : Value → Value → Except Error Bool
  | scalar x, scalar y => Scalar.equals digits x y
  | x, y => .ok (same x y)

def modulo (digits : Nat) (x y : Value) : Except Error Value :=
  if y.isZero then .error .divisionByZero else onScalars "mod" (Scalar.modulo digits) x y

/-- The power of a value that is no scalar. The zeroth power is one for every value; other powers
fail at the first product, which has the integer one on its left for odd exponents. -/
def powIntOther (k : Kind) (e : Int) : Except Error Value :=
  if Scalar.exponentBound ≤ e.natAbs then .error (.domain .exponentTooLarge)
  else if e = 0 then .ok (integer 1)
  else .error (Scalar.mismatch "*" (if e % 2 = 0 then k else .integer) k)

def powInt (digits : Nat) (v : Value) (e : Int) : Except Error Value :=
  match v with
  | scalar x => (x.powInt digits e).map scalar
  | v => powIntOther v.kind e

def pow (digits : Nat) : Value → Value → Except Error Value
  | v, integer e => powInt digits v e
  | scalar x, scalar y => (x.pow digits y).map scalar
  | complex _, y => .error (Scalar.mismatch "^" .complex y.kind)
  | x, complex _ => .error (Scalar.mismatch "^" x.kind .complex)
  | x, y => do
    let _ ← x.toFloat digits
    let _ ← y.toFloat digits
    .error (Scalar.mismatch "^" x.kind y.kind)

/-- Multiplies every cell of a matrix by a value on the left. -/
def scaleMatrix (digits : Nat) (v : Value) (m : Matrix) : Except Error Matrix :=
  match v with
  | scalar x => m.scale digits x
  | v => .error (Scalar.mismatch "*" v.kind m.firstKind)

def divideMatrix (digits : Nat) (m : Matrix) (v : Value) : Except Error Matrix :=
  match v with
  | scalar x => m.divScalar digits x
  | v => .error (Scalar.mismatch "/" m.firstKind v.kind)

/-- The one of a value's kind and precision, an integer where the kind is exact or no number. -/
def oneLike : Value → Value
  | scalar x => scalar x.oneLike
  | _ => integer 1

end StackCalc.Value
