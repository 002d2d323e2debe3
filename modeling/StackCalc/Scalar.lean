import StackCalc.Complex
import StackCalc.Kind

/-!
Scalars: integers, fractions, floats and complex numbers, each of which is contained in the next.
`promote` brings two of them to the narrower kind that holds both, as a pair of one kind, so that
an operation has four cases. A fraction may be whole while it is being computed; `reduce` makes it
an integer.
-/

namespace StackCalc

inductive Scalar where
  | integer (n : Int)
  | rational (q : Rat)
  | float (x : MPFloat)
  | complex (z : Complex)
deriving DecidableEq

/-- Two scalars of one kind. -/
inductive ScalarPair where
  | integers (a b : Int)
  | rationals (a b : Rat)
  | floats (a b : MPFloat)
  | complexes (a b : Complex)

namespace Scalar

def kind : Scalar → Kind
  | integer _ => .integer
  | rational _ => .rational
  | float _ => .float
  | complex _ => .complex

def isZero : Scalar → Bool
  | integer n => n = 0
  | rational q => q.num = 0
  | float x => x.isZero
  | complex z => z.isZero

/-- Whether a scalar is below zero. A complex number never is. -/
def isNegative : Scalar → Bool
  | integer n => n < 0
  | rational q => q.num < 0
  | float x => x.isNegative
  | complex _ => false

/-- Whether two scalars are of one kind and the same number, whatever their precisions. -/
def same : Scalar → Scalar → Bool
  | integer a, integer b => a = b
  | rational a, rational b => a = b
  | float a, float b => a.same b
  | complex a, complex b => a.same b
  | _, _ => false

/-- The integer for a whole fraction, any other scalar as it is. -/
def reduce : Scalar → Scalar
  | rational q => if q.den = 1 then integer q.num else rational q
  | x => x

/-- The exact fraction that a real scalar denotes. Floats are taken at their own precision. -/
def toRat? : Scalar → Option Rat
  | integer n => some n
  | rational q => some q
  | float x => x.toRat?
  | complex _ => none

def notReal (k : Kind) : Error := .typeMismatch "convert" (k.name ++ " is not a real number")

/-- A real scalar as a float. Floats keep their precision. -/
def toFloat (digits : Nat) : Scalar → Except Error MPFloat
  | integer n => .ok (.ofInt n digits)
  | rational q => MPFloat.ofRat q digits
  | float x => .ok x
  | complex _ => .error (notReal .complex)

def toComplex (digits : Nat) : Scalar → Except Error Complex
  | complex z => .ok z
  | x => (x.toFloat digits).map Complex.ofReal

def rank (x : Scalar) : Nat := x.kind.scalarRank.getD 0

/-- Brings two scalars to the narrower kind that holds both. -/
def promote (digits : Nat) (x y : Scalar) : Except Error ScalarPair :=
  match x, y with
  | integer a, integer b => .ok (.integers a b)
  | integer a, rational b => .ok (.rationals a b)
  | rational a, integer b => .ok (.rationals a b)
  | rational a, rational b => .ok (.rationals a b)
  | complex a, y => do return .complexes a (← y.toComplex digits)
  | x, complex b => do return .complexes (← x.toComplex digits) b
  | x, y => do return .floats (← x.toFloat digits) (← y.toFloat digits)

/-- The failure of an operation on the kinds of its operands. -/
def mismatch (op : String) (x y : Kind) : Error :=
  .typeMismatch op (x.name ++ " and " ++ y.name)

/-- The order of two scalars of one kind. Complex numbers have none. -/
def compareSame : Scalar → Scalar → Option Ordering
  | integer a, integer b => some (compare a b)
  | rational a, rational b => some (if a < b then .lt else if a = b then .eq else .gt)
  | float a, float b => some (a.compareWith b)
  | _, _ => none

end Scalar

namespace ScalarPair

def first : ScalarPair → Scalar
  | integers a _ => .integer a
  | rationals a _ => .rational a
  | floats a _ => .float a
  | complexes a _ => .complex a

def second : ScalarPair → Scalar
  | integers _ b => .integer b
  | rationals _ b => .rational b
  | floats _ b => .float b
  | complexes _ b => .complex b

end ScalarPair
end StackCalc
