import StackCalc.Value

/-!
Rounding of real values to integers. An exact value becomes an integer; a float stays a float of
its precision, and one whose digits are whole already stays as it is.
-/

namespace StackCalc

/-- Which integer a number is rounded to. -/
inductive RoundingMode where
  | towardZero
  | down
  | up
  | nearest
deriving DecidableEq, Repr

def RoundingMode.apply (mode : RoundingMode) (q : Rat) : Int :=
  match mode with
  | towardZero => Rounding.truncate q
  | down => q.floor
  | up => q.ceil
  | nearest => Rounding.nearest q

namespace Value

/-- The fraction that a float stands for, as an operation needs it. -/
def exactFraction (op : String) (x : MPFloat) : Except Error Rat :=
  match x.toRat? with
  | some q => .ok q
  | none => .error (.domain (.inexact op x.text))

def roundFloat (op : String) (mode : RoundingMode) (x : MPFloat) : Except Error MPFloat :=
  if x.isIntegral then .ok x
  else (exactFraction op x).map fun q => .ofInt (mode.apply q) x.digits

def round (op : String) (mode : RoundingMode) : Value → Except Error Value
  | integer n => .ok (integer n)
  | rational q => .ok (integer (mode.apply q))
  | float x => (roundFloat op mode x).map float
  | v => .error (.typeMismatch op v.kind.name)

/-- What a real value has beyond its integer part. -/
def fractionPart (op : String) : Value → Except Error Value
  | integer _ => .ok (integer 0)
  | rational q => .ok (rational (q - (Rounding.truncate q : Rat)))
  | float x => do return float (← x.sub (← roundFloat op .towardZero x))
  | v => .error (.typeMismatch op v.kind.name)

end Value
end StackCalc
