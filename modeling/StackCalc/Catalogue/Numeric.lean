import StackCalc.Operand.Arithmetic
import StackCalc.Operation

/-!
Arithmetic and comparison. Operands of different scalar kinds are brought to one kind first, lists
are taken element by element, and symbolic operands defer the operation.
-/

namespace StackCalc.Catalogue

/-- Scalars of one kind, matrices or times. -/
def additive : Signature where
  accepted := Signature.pairs [.integer, .rational, .float, .complex, .matrix, .time]
  conversions := Signature.promotions

/-- Scalars of one kind, matrices, and what scales a matrix or a time. -/
def multiplicative : Signature where
  accepted := Signature.pairs [.integer, .rational, .float, .complex, .matrix] ++
    [[.of .matrix, .scalar], [.scalar, .of .matrix], [.of .time, .real], [.real, .of .time]]
  conversions := Signature.promotions

/-- Scalars of one kind, matrices, times, and a matrix or a time by a number. -/
def divisible : Signature where
  accepted := Signature.pairs [.integer, .rational, .float, .complex, .matrix, .time] ++
    [[.of .matrix, .scalar], [.of .time, .real]]
  conversions := Signature.promotions

/-- A scalar, a matrix or a time. -/
def negatable : Signature := { accepted := [[.scalar], [.of .matrix], [.of .time]] }

/-- A scalar or a matrix. -/
def scalarOrMatrix : Signature := { accepted := [[.scalar], [.of .matrix]] }

/-- Two scalars of any kind, or a matrix and an integer. -/
def powers : Signature := { accepted := [[.scalar, .scalar], [.of .matrix, .of .integer]] }

/-- Two real scalars or two times. -/
def ordered : Signature where
  accepted := Signature.pairs [.integer, .rational, .float, .time]
  limited := some .real
  conversions := Signature.promotions

/-- Two operands of any kind, deferred if one is symbolic. -/
def comparable : Signature := { Signature.any 2 with deferred := true }

def testEqual (op : String) (wanted : Bool) : Calc Unit :=
  Calc.binary op comparable fun s a b => do
    return Operand.truth ((← Operand.equals s a b) = wanted)

def testOrder (op : String) (test : Ordering → Bool) : Calc Unit :=
  Calc.binary op ordered fun _ a b => do
    return Operand.truth (test (← Operand.order op a b))

def add : Operation where
  name := "+"
  arity := 2
  results := 1
  help := ⟨"Add two values", "( a b -- a+b )", "1 2 +", ["-", "sum"]⟩
  action := .primitive (Calc.binary "+" additive Operand.add)

def sub : Operation where
  name := "-"
  arity := 2
  results := 1
  help := ⟨"Subtract top from second", "( a b -- a-b )", "5 3 -", ["+", "neg"]⟩
  action := .primitive (Calc.binary "-" additive Operand.sub)

def mul : Operation where
  name := "*"
  arity := 2
  results := 1
  help := ⟨"Multiply two values", "( a b -- a*b )", "3 4 *", ["/", "product"]⟩
  action := .primitive (Calc.binary "*" multiplicative Operand.mul)

def div : Operation where
  name := "/"
  arity := 2
  results := 1
  help := ⟨"Divide second by top, exactly when both are exact",
    "( a b -- a/b )", "1 3 /", ["*", "idiv", "mod"]⟩
  action := .primitive (Calc.binary "/" divisible Operand.div)

def neg : Operation where
  name := "neg"
  aliases := ["chs"]
  arity := 1
  results := 1
  help := ⟨"Negate", "( a -- -a )", "5 neg", ["abs"]⟩
  action := .primitive (Calc.unary "neg" negatable Operand.neg)

def inv : Operation where
  name := "inv"
  arity := 1
  results := 1
  help := ⟨"Reciprocal, or matrix inverse", "( a -- 1/a )", "4 inv", ["/"]⟩
  action := .primitive (Calc.unary "inv" scalarOrMatrix Operand.inv)

def abs : Operation where
  name := "abs"
  arity := 1
  results := 1
  help := ⟨"Absolute value, or magnitude of a complex number",
    "( a -- |a| )", "-5 abs", ["neg", "arg"]⟩
  action := .primitive (Calc.unary "abs" .unaryScalar Operand.abs)

def square : Operation where
  name := "sq"
  arity := 1
  results := 1
  help := ⟨"Square", "( a -- a*a )", "7 sq", ["sqrt", "^"]⟩
  action := .primitive (Calc.unary "sq" scalarOrMatrix Operand.square)

def sqrt : Operation where
  name := "sqrt"
  arity := 1
  results := 1
  help := ⟨"Square root, exact for perfect squares", "( a -- √a )", "16 sqrt", ["sq", "^"]⟩
  action := .primitive (Calc.unary "sqrt" .unaryScalar Operand.sqrt)

def pow : Operation where
  name := "^"
  aliases := ["pow"]
  arity := 2
  results := 1
  help := ⟨"Raise to a power, exactly for integer exponents",
    "( a b -- a^b )", "2 10 ^", ["sq", "modpow"]⟩
  action := .primitive (Calc.binary "^" powers Operand.pow)

def modulo : Operation where
  name := "mod"
  arity := 2
  results := 1
  help := ⟨"Floored modulo; the result has the sign of the divisor",
    "( a b -- a mod b )", "-7 3 mod", ["idiv"]⟩
  action := .primitive (Calc.binary "mod" .binaryReal Operand.modulo)

def floorDiv : Operation where
  name := "idiv"
  arity := 2
  results := 1
  help := ⟨"Floored integer division", "( a b -- floor(a/b) )", "7 2 idiv", ["mod", "/"]⟩
  action := .primitive (Calc.binary "idiv" .binaryInteger Operand.floorDiv)

def least : Operation where
  name := "min"
  arity := 2
  results := 1
  help := ⟨"Smaller of two reals", "( a b -- min )", "3 5 min", ["max"]⟩
  action := .primitive (Calc.binary "min" .binaryReal (Operand.extreme .lt))

def greatest : Operation where
  name := "max"
  arity := 2
  results := 1
  help := ⟨"Larger of two reals", "( a b -- max )", "3 5 max", ["min"]⟩
  action := .primitive (Calc.binary "max" .binaryReal (Operand.extreme .gt))

def equal : Operation where
  name := "=="
  aliases := ["same"]
  arity := 2
  results := 1
  help := ⟨"Test equality; scalars compare after promotion", "( a b -- flag )", "1 1. ==", ["!="]⟩
  action := .primitive (testEqual "==" true)

def unequal : Operation where
  name := "!="
  aliases := ["≠"]
  arity := 2
  results := 1
  help := ⟨"Test inequality", "( a b -- flag )", "1 2 !=", ["=="]⟩
  action := .primitive (testEqual "!=" false)

def less : Operation where
  name := "<"
  arity := 2
  results := 1
  help := ⟨"Less than", "( a b -- flag )", "1 2 <", ["<=", ">"]⟩
  action := .primitive (testOrder "<" Ordering.isLT)

def lessOrEqual : Operation where
  name := "<="
  aliases := ["≤"]
  arity := 2
  results := 1
  help := ⟨"Less than or equal", "( a b -- flag )", "2 2 <=", ["<", ">="]⟩
  action := .primitive (testOrder "<=" Ordering.isLE)

def greater : Operation where
  name := ">"
  arity := 2
  results := 1
  help := ⟨"Greater than", "( a b -- flag )", "2 1 >", [">=", "<"]⟩
  action := .primitive (testOrder ">" Ordering.isGT)

def greaterOrEqual : Operation where
  name := ">="
  aliases := ["≥"]
  arity := 2
  results := 1
  help := ⟨"Greater than or equal", "( a b -- flag )", "2 2 >=", [">", "<="]⟩
  action := .primitive (testOrder ">=" Ordering.isGE)

def numeric : List Operation :=
  [add, sub, mul, div, neg, inv, abs, square, sqrt, pow, modulo, floorDiv, least, greatest, equal,
   unequal, less, lessOrEqual, greater, greaterOrEqual]

end StackCalc.Catalogue
