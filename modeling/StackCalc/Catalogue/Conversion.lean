import StackCalc.Operand.Arithmetic
import StackCalc.Operation
import StackCalc.Value.Rounding

/-!
Conversions between scalar kinds, rounding, and the parts of complex numbers. A real number counts
as a complex one without imaginary part.
-/

namespace StackCalc.Catalogue

def floats : Signature where
  accepted := [[.of .float]]
  limited := some .real
  conversions := [⟨.real, .float⟩]

def complexes : Signature where
  accepted := [[.of .complex]]
  conversions := [⟨.scalar, .complex⟩]

def floatPairs : Signature where
  accepted := Signature.pairs [.float]
  limited := some .real
  conversions := [⟨.real, .float⟩]
  deferred := false

/-- An operation on the value of one operand, which keeps its unit. -/
def onValue (op : String) (signature : Signature) (f : Settings → Value → Except Error Value) :
    Calc Unit :=
  Calc.unary op signature fun s a => do
    return ⟨← f s a.value, a.unit⟩

/-- A float as a fraction, any other value as it is. -/
def exactValue : Value → Except Error Value
  | .float x => (Value.exactFraction "->q" x).map Value.rational
  | v => .ok v

def floatValue (s : Settings) : Value → Except Error Value
  | .float x => .ok (.float (x.withDigits s.style.precision))
  | v => .error (.typeMismatch "->f" v.kind.name)

def joinParts (_ : Settings) (re im : Operand) : Except Error Operand := do
  let unit ← re.unit.requireSame im.unit
  match re.value, im.value with
  | .float x, .float y => return ⟨.complex ⟨x, y⟩, unit⟩
  | _, _ => throw (Scalar.mismatch "r->c" re.kind im.kind)

def splitParts (_ : Settings) (os : List Operand) : Except Error (List Operand) :=
  match os with
  | [⟨.complex z, unit⟩] => .ok [⟨.float z.re, unit⟩, ⟨.float z.im, unit⟩]
  | _ => .error (.typeMismatch "c->r" (Operand.kindsText os))

def rounding (op : String) (mode : RoundingMode) : Calc Unit :=
  onValue op .unaryReal fun _ v => v.round op mode

def realPart : Value → Value
  | .complex z => .float z.re
  | v => v

def imaginaryPart : Value → Value
  | .complex z => .float z.im
  | _ => .integer 0

def conjugate : Value → Value
  | .complex z => .complex z.conj
  | v => v

/-- The angle of a complex number in the unit of the settings. The angle of a real number is zero
or half a turn. -/
def angleOf (s : Settings) : Value → Except Error Value
  | .complex z => do return .float (← s.modes.angle.ofRadians (← z.arg))
  | v =>
    .ok (if !v.isNegative then .integer 0
      else match s.modes.angle.halfTurn with
        | some half => .integer half
        | none => .float (.pi s.style.precision))

def toFraction : Operation where
  name := "->q"
  aliases := ["→q"]
  arity := 1
  results := 1
  help := ⟨"Convert a real to an exact fraction", "( x -- a/b )", "0.75 ->q", ["->f"]⟩
  action := .primitive (onValue "->q" .unaryReal fun _ v => exactValue v)

def toFloat : Operation where
  name := "->f"
  aliases := ["→f", "->num"]
  arity := 1
  results := 1
  help := ⟨"Convert a real to a float at the current precision",
    "( x -- float )", "1 3 / ->f", ["->q", "prec"]⟩
  action := .primitive (onValue "->f" floats floatValue)

def toComplex : Operation where
  name := "->c"
  aliases := ["→c"]
  arity := 1
  results := 1
  help := ⟨"Convert a scalar to a complex number", "( x -- (x, 0) )", "2 ->c", ["r->c", "c->r"]⟩
  action := .primitive (onValue "->c" complexes fun _ v => .ok v)

def joinComplex : Operation where
  name := "r->c"
  aliases := ["r→c"]
  arity := 2
  results := 1
  help := ⟨"Build a complex number from real and imaginary parts",
    "( re im -- (re, im) )", "3 4 r->c", ["c->r"]⟩
  action := .primitive (Calc.binary "r->c" floatPairs joinParts)

def splitComplex : Operation where
  name := "c->r"
  aliases := ["c→r"]
  arity := 1
  results := 2
  help := ⟨"Split a complex number into real and imaginary parts",
    "( (re, im) -- re im )", "3 4 r->c c->r", ["r->c", "re", "im"]⟩
  action := .primitive (Calc.applyTopMany "c->r" 1 complexes.strict splitParts)

def integerPart : Operation where
  name := "ip"
  arity := 1
  results := 1
  help := ⟨"Integer part, truncating toward zero", "( x -- ip )", "-7 2 / ip", ["fp", "floor"]⟩
  action := .primitive (rounding "ip" .towardZero)

def fractionalPart : Operation where
  name := "fp"
  arity := 1
  results := 1
  help := ⟨"Fractional part, with the sign of the argument", "( x -- x-ip )", "7 2 / fp", ["ip"]⟩
  action := .primitive (onValue "fp" .unaryReal fun _ v => v.fractionPart "fp")

def floor : Operation where
  name := "floor"
  arity := 1
  results := 1
  help := ⟨"Largest integer not above", "( x -- floor )", "-7 2 / floor", ["ceil", "ip"]⟩
  action := .primitive (rounding "floor" .down)

def ceil : Operation where
  name := "ceil"
  arity := 1
  results := 1
  help := ⟨"Smallest integer not below", "( x -- ceil )", "7 2 / ceil", ["floor"]⟩
  action := .primitive (rounding "ceil" .up)

def roundNearest : Operation where
  name := "round"
  arity := 1
  results := 1
  help := ⟨"Nearest integer, halves away from zero",
    "( x -- round )", "5 2 / round", ["floor", "ceil"]⟩
  action := .primitive (rounding "round" .nearest)

def re : Operation where
  name := "re"
  arity := 1
  results := 1
  help := ⟨"Real part", "( z -- re )", "3 4 r->c re", ["im", "c->r"]⟩
  action := .primitive (onValue "re" .unaryScalar fun _ v => .ok (realPart v))

def im : Operation where
  name := "im"
  arity := 1
  results := 1
  help := ⟨"Imaginary part", "( z -- im )", "3 4 r->c im", ["re", "c->r"]⟩
  action := .primitive (onValue "im" .unaryScalar fun _ v => .ok (imaginaryPart v))

def conj : Operation where
  name := "conj"
  arity := 1
  results := 1
  help := ⟨"Complex conjugate", "( z -- z̄ )", "3 4 r->c conj", ["neg", "arg"]⟩
  action := .primitive (onValue "conj" .unaryScalar fun _ v => .ok (conjugate v))

def arg : Operation where
  name := "arg"
  arity := 1
  results := 1
  help := ⟨"Argument (phase angle) in the current angle mode",
    "( z -- θ )", "0 1 r->c arg", ["abs", "deg", "rad"]⟩
  action := .primitive (Calc.unary "arg" .unaryScalar fun s a => do
    return .plain (← angleOf s a.value))

def conversions : List Operation :=
  [toFraction, toFloat, toComplex, joinComplex, splitComplex, integerPart, fractionalPart, floor,
   ceil, roundNearest, re, im, conj, arg]

end StackCalc.Catalogue
