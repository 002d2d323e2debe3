import StackCalc.Style
import StackCalc.Value

/-!
The texts of values and expressions. A value is shown in the style of its entry; a constant inside
an expression is shown in decimal, a number at its own precision. Expressions are written with the
usual infix operators, and parentheses stand only where the tree asks for them.
-/

namespace StackCalc

def basePrefix (base : Nat) : String :=
  if base = 10 then ""
  else if base = 2 then "0b"
  else if base = 8 then "0o"
  else if base = 16 then "0x"
  else Numeral.ofNat base ++ "#"

def integerText (n : Int) (base : Nat) : String :=
  (if n < 0 then "-" else "") ++ basePrefix base ++ Numeral.render base n.natAbs

/-- A fraction, as a quotient or as a whole part and a remainder. -/
def fractionText (q : Rat) (style : FractionStyle) : String :=
  let n := q.num.natAbs
  if style = .mixed ∧ q.den < n then
    (if q.num < 0 then "-" else "") ++ Numeral.ofNat (n / q.den)
      ++ (if n % q.den = 0 then ""
        else " " ++ Numeral.ofNat (n % q.den) ++ "/" ++ Numeral.ofNat q.den)
  else Numeral.ofInt q.num ++ "/" ++ Numeral.ofNat q.den

/-- The magnitude of a complex number, and its angle in a unit. -/
def polarParts (z : Complex) (unit : AngleUnit) : Except Error (MPFloat × MPFloat) := do
  let magnitude ← z.abs
  return (magnitude, ← unit.ofRadians (← z.arg))

def rectangularText (z : Complex) (precision : Nat) : String :=
  "(" ++ z.re.format precision ++ ", " ++ z.im.format precision ++ ")"

/-- A complex number, by its parts if it has no polar form. -/
def complexText (z : Complex) (precision : Nat) (modes : DisplayModes) : String :=
  match modes.complex with
  | .rectangular => rectangularText z precision
  | .polar =>
    match polarParts z modes.angle with
    | .ok (r, a) =>
      "(" ++ r.format precision ++ "∠" ++ a.format precision
        ++ (if modes.angle = .degrees then "°" else "") ++ ")"
    | .error _ => rectangularText z precision

def Scalar.render (style : NumberStyle) (modes : DisplayModes) : Scalar → String
  | integer n => integerText n style.base
  | rational q => fractionText q modes.fraction
  | float x => x.format style.precision
  | complex z => complexText z style.precision modes

/-- The text of a matrix, row after row. -/
def Matrix.render (style : NumberStyle) (modes : DisplayModes) (m : Matrix) : String :=
  let row := fun (r : List Scalar) =>
    "[" ++ " ".intercalate (r.map (Scalar.render style modes)) ++ "]"
  "[" ++ " ".intercalate (m.rows.map row) ++ "]"

/-- The text of a list with the given texts of its elements. -/
def listText (items : List String) : String :=
  if items.isEmpty then "\x7b \x7d" else "\x7b " ++ " ".intercalate items ++ " \x7d"

/-- The decimal style, with a number's own precision. -/
def Value.ownStyle : Value → NumberStyle
  | float x => { precision := x.digits }
  | complex z => { precision := z.digits }
  | _ => {}

namespace Expr

def precedence? (name : String) : Option Nat :=
  if name = "+" ∨ name = "-" then some 1
  else if name = "*" ∨ name = "/" then some 2
  else if name = "^" then some 3
  else none

/-- How tightly the outermost operator of an expression binds, if it is written infix. -/
def outerPrecedence : Expr → Option Nat
  | apply name [_, _] => precedence? name
  | _ => none

/-- An operand with the precedence of its outermost operator, in parentheses if needed. Operators
group to the left, powers to the right: an operand on the other side needs parentheses also at
equal precedence. -/
def operandText (outer : Nat) (groups : Bool) : Option Nat × String → String
  | (some p, text) =>
    if p < outer ∨ (p = outer ∧ !groups) then "(" ++ text ++ ")" else text
  | (none, text) => text

/-- The text of an operation on operands of known texts. -/
def applyText (name : String) (args : List (Option Nat × String)) : String :=
  match precedence? name, args with
  | some p, [l, r] => operandText p (p ≠ 3) l ++ name ++ operandText p (p = 3) r
  | _, [] => name
  | _, _ => name ++ "(" ++ ",".intercalate (args.map Prod.snd) ++ ")"

end Expr

mutual

def Value.render (style : NumberStyle) (modes : DisplayModes) : Value → String
  | .scalar x => x.render style modes
  | .matrix m => m.render style modes
  | .list _ items => listText (Value.renderItems style modes items)
  | .time t => t.text
  | .symbolic e => "'" ++ Expr.text e ++ "'"

def Value.renderItems (style : NumberStyle) (modes : DisplayModes) : List Value → List String
  | [] => []
  | v :: vs => Value.render style modes v :: Value.renderItems style modes vs

def Expr.text : Expr → String
  | .var name => name
  | .const (.symbolic e) => Expr.text e
  | .const v => Value.render v.ownStyle {} v
  | .apply name args => Expr.applyText name (Expr.operands args)

/-- The texts of some expressions, with the precedence of their outermost operators. -/
def Expr.operands : List Expr → List (Option Nat × String)
  | [] => []
  | e :: es => (e.outerPrecedence, Expr.text e) :: Expr.operands es

end

/-- The decimal text of a value at its own precision. -/
def Value.text : Value → String
  | .symbolic e => e.text
  | v => v.render v.ownStyle {}

end StackCalc
