import StackCalc.MPFloat

/-!
How values are shown. A `NumberStyle` belongs to an entry of the stack, which keeps it as long as
it lives; `DisplayModes` belong to the whole calculator.
-/

namespace StackCalc

/-- The unit in which angles are given and shown. -/
inductive AngleUnit where
  | radians
  | degrees
  | gradians
deriving DecidableEq, Repr

namespace AngleUnit

def halfTurn : AngleUnit → Option Int
  | radians => none
  | degrees => some 180
  | gradians => some 200

def toRadians (u : AngleUnit) (angle : MPFloat) : Except Error MPFloat :=
  match u.halfTurn with
  | none => .ok angle
  | some half => do
    (← angle.mul (.pi angle.digits)).div (.ofInt half angle.digits)

def ofRadians (u : AngleUnit) (angle : MPFloat) : Except Error MPFloat :=
  match u.halfTurn with
  | none => .ok angle
  | some half => do
    (← angle.mul (.ofInt half angle.digits)).div (.pi angle.digits)

def name : AngleUnit → String
  | radians => "radians"
  | degrees => "degrees"
  | gradians => "gradians"

end AngleUnit

/-- Whether fractions above one are shown with their whole part. -/
inductive FractionStyle where
  | improper
  | mixed
deriving DecidableEq, Repr

def FractionStyle.name : FractionStyle → String
  | improper => "improper"
  | mixed => "mixed"

/-- Whether complex numbers are shown by parts or by magnitude and angle. -/
inductive ComplexStyle where
  | rectangular
  | polar
deriving DecidableEq, Repr

def ComplexStyle.name : ComplexStyle → String
  | rectangular => "rectangular"
  | polar => "polar"

/-- The display modes of a calculator. -/
structure DisplayModes where
  angle : AngleUnit := .radians
  fraction : FractionStyle := .improper
  complex : ComplexStyle := .rectangular
deriving DecidableEq, Repr

/-- The display of one entry: the base of its integers, the width of their words, the digits of
its floats, and whether its words are signed. -/
structure NumberStyle where
  base : Nat := 10
  wordBits : Nat := 0
  precision : Nat := MPFloat.defaultDigits
  signed : Bool := true
deriving DecidableEq, Repr

namespace NumberStyle

/-- Requires a base that has digits and a precision other than zero. -/
def validate (s : NumberStyle) : Except Error Unit :=
  if s.base < 2 ∨ 36 < s.base then .error (.invalidArgument (.baseOutOfRange s.base))
  else if s.precision = 0 then .error (.invalidArgument .zeroPrecision)
  else .ok ()

end NumberStyle
end StackCalc
