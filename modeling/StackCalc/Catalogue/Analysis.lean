import StackCalc.Operation

/-!
Transcendental functions. Exact arguments become floats of the current precision. Real angles are
in the unit of the settings and complex ones in radians.
-/

namespace StackCalc.Catalogue

/-- A real scalar as a float, or a complex number. -/
def transcendental : Signature where
  accepted := [[.of .float], [.of .complex]]
  conversions := [⟨.real, .float⟩]

/-- A function with a real and a complex form, of an operand without unit. -/
def function (op : String) (real : Settings → MPFloat → Except Error Scalar)
    (complex : Complex → Except Error Complex) : Calc Unit :=
  Calc.unary op transcendental fun s a => do
    a.unit.requireNone op
    match a.value with
    | .float x => return .plain (.scalar (← real s x))
    | .complex z => return .plain (.complex (← complex z))
    | v => throw (.typeMismatch op v.kind.name)

def ofAngle (f : MPFloat → Except Error MPFloat) (s : Settings) (x : MPFloat) :
    Except Error Scalar := do
  return .float (← f (← s.modes.angle.toRadians x))

/-- The logarithm of a real number, which is complex for negative ones. -/
def realLog (x : MPFloat) : Except Error Scalar :=
  if x.isZero then .error (.domain .lnOfZero)
  else if x.isNegative then (Complex.ofReal x).ln.map Scalar.complex
  else x.ln.map Scalar.float

def complexLog (z : Complex) : Except Error Complex :=
  if z.isZero then .error (.domain .lnOfZero) else z.ln

def realAtan (s : Settings) (x : MPFloat) : Except Error Scalar := do
  return .float (← s.modes.angle.ofRadians (← x.atan))

def exponential : Operation where
  name := "exp"
  arity := 1
  results := 1
  help := ⟨"Natural exponential", "( x -- eˣ )", "1 exp", ["ln"]⟩
  action := .primitive (function "exp" (fun _ x => x.exp.map Scalar.float) Complex.exp)

def logarithm : Operation where
  name := "ln"
  arity := 1
  results := 1
  help := ⟨"Natural logarithm; negative reals give complex results",
    "( x -- ln x )", "10 ln", ["exp"]⟩
  action := .primitive (function "ln" (fun _ x => realLog x) complexLog)

def sine : Operation where
  name := "sin"
  arity := 1
  results := 1
  help := ⟨"Sine", "( θ -- sin θ )", "deg 30 sin", ["cos", "tan"]⟩
  action := .primitive (function "sin" (ofAngle MPFloat.sin) Complex.sin)

def cosine : Operation where
  name := "cos"
  arity := 1
  results := 1
  help := ⟨"Cosine", "( θ -- cos θ )", "deg 60 cos", ["sin", "tan"]⟩
  action := .primitive (function "cos" (ofAngle MPFloat.cos) Complex.cos)

def tangent : Operation where
  name := "tan"
  arity := 1
  results := 1
  help := ⟨"Tangent", "( θ -- tan θ )", "deg 45 tan", ["sin", "cos", "atan"]⟩
  action := .primitive (function "tan" (ofAngle MPFloat.tan) Complex.tan)

def arcTangent : Operation where
  name := "atan"
  arity := 1
  results := 1
  help := ⟨"Arc tangent in the current angle mode", "( x -- atan x )", "1 atan", ["tan", "arg"]⟩
  action := .primitive (function "atan" realAtan Complex.atan)

def pi : Operation where
  name := "pi"
  aliases := ["π"]
  arity := 0
  results := 1
  help := ⟨"π at the current precision", "( -- π )", "pi", ["deg", "rad"]⟩
  action := .primitive (do
    Calc.replaceTop 0 [.plain (.float (.pi (← get).settings.style.precision))])

def analysis : List Operation :=
  [exponential, logarithm, sine, cosine, tangent, arcTangent, pi]

end StackCalc.Catalogue
