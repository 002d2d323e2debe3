import StackCalc.Matrix
import StackCalc.Time

/-!
Calculator values and symbolic expressions. A value is a scalar, a matrix of scalars, a list with a
declared element kind, a time, or an expression that is evaluated later. An expression is a
variable, a constant value, or an operation applied to expressions; applied to none it refers to
the operation itself.
-/

namespace StackCalc

mutual

inductive Value where
  | scalar (x : Scalar)
  | matrix (m : Matrix)
  | list (kind : Kind) (items : List Value)
  | time (t : Time)
  | symbolic (e : Expr)

inductive Expr where
  | var (name : String)
  | const (v : Value)
  | apply (name : String) (args : List Expr)

end

namespace Expr

/-- A value as an expression. An expression is taken as it is and not nested. -/
def ofValue : Value → Expr
  | .symbolic e => e
  | v => const v

/-- A reference to an operation or a program by its name. -/
def reference (name : String) : Expr := apply name []

def isReference : Expr → Bool
  | apply _ [] => true
  | _ => false

def varName? : Expr → Option String
  | var name => some name
  | _ => none

mutual

/-- The variables of an expression, from left to right. -/
def vars : Expr → List String
  | var name => [name]
  | const _ => []
  | apply _ args => varsAll args

/-- The variables of some expressions, from left to right. -/
def varsAll : List Expr → List String
  | [] => []
  | e :: es => vars e ++ varsAll es

end

/-- Puts a name into a list in rising order that does not hold it yet. -/
def insertName (name : String) : List String → List String
  | [] => [name]
  | n :: r =>
    if name < n then name :: n :: r
    else if name = n then n :: r
    else n :: insertName name r

/-- The variables of an expression in rising order, each once. -/
def freeVars (e : Expr) : List String :=
  e.vars.foldl (fun names n => insertName n names) []

end Expr

namespace Value

@[match_pattern]
def integer (n : Int) : Value := scalar (.integer n)

@[match_pattern]
def rational (q : Rat) : Value := scalar (.rational q)

@[match_pattern]
def float (x : MPFloat) : Value := scalar (.float x)

@[match_pattern]
def complex (z : Complex) : Value := scalar (.complex z)

def var (name : String) : Value := symbolic (.var name)

def kind : Value → Kind
  | scalar x => x.kind
  | matrix _ => .matrix
  | list .. => .list
  | time _ => .time
  | symbolic _ => .symbolic

/-- Whether a value is zero. A list and an expression never are. -/
def isZero : Value → Bool
  | scalar x => x.isZero
  | matrix m => m.isZero
  | time t => t.nanos = 0
  | list .. | symbolic _ => false

/-- Whether a value is below zero: a real scalar or a span of time. -/
def isNegative : Value → Bool
  | scalar x => x.isNegative
  | time t => !t.absolute && t.nanos < 0
  | _ => false

mutual

/-- Whether two values are of one kind and equal. The precision of floats does not count. -/
def same : Value → Value → Bool
  | scalar x, scalar y => x.same y
  | matrix m, matrix n => m.same n
  | list k xs, list j ys => k = j && sameItems xs ys
  | time s, time t => s = t
  | symbolic d, symbolic e => sameExpr d e
  | _, _ => false

def sameItems : List Value → List Value → Bool
  | [], [] => true
  | x :: xs, y :: ys => same x y && sameItems xs ys
  | _, _ => false

def sameExpr : Expr → Expr → Bool
  | .var m, .var n => m = n
  | .const x, .const y => same x y
  | .apply m ds, .apply n es => m = n && sameArgs ds es
  | _, _ => false

def sameArgs : List Expr → List Expr → Bool
  | [], [] => true
  | d :: ds, e :: es => sameExpr d e && sameArgs ds es
  | _, _ => false

end

mutual

def listDepth : Value → Nat
  | list _ items => listDepthAll items + 1
  | _ => 0

def listDepthAll : List Value → Nat
  | [] => 0
  | v :: vs => max (listDepth v) (listDepthAll vs)

end

/-- The order of two values of one ordered kind. Times are ordered if both are spans or both are
instants. -/
def order? : Value → Value → Option Ordering
  | scalar x, scalar y => x.compareSame y
  | time s, time t => if s.absolute = t.absolute then some (compare s.nanos t.nanos) else none
  | _, _ => none

def indexBound : Nat := 18446744073709551616

/-- A value as a count or an index. -/
def toIndex (what : String) : Value → Except Error Nat
  | integer n =>
    if 0 ≤ n ∧ n < indexBound then .ok n.toNat
    else .error (.invalidArgument (.indexOutOfRange what n))
  | _ => .error (.invalidArgument (.notAnInteger what))

/-- The exact fraction that a real scalar denotes. -/
def toRat? : Value → Option Rat
  | scalar x => x.toRat?
  | _ => none

/-- A matrix with the cells given as values, row after row. Every cell is a scalar. -/
def cellsOf (vs : List Value) : Except Error (List Scalar) :=
  vs.mapM fun
    | scalar x => .ok x
    | v => .error (.typeMismatch "matrix" (v.kind.name ++ " cell"))

/-- The matrix of the given shape with the given values, row after row. -/
def matrixOfCells (rows cols : Nat) (vs : List Value) : Except Error Matrix := do
  if rows = 0 ∨ cols = 0 then throw (.invalidArgument .emptyMatrix)
  let _ ← Word.nat64.hold (rows * cols)
  if vs.length ≠ rows * cols then throw (.invalidArgument (.cellCount rows cols vs.length))
  Matrix.ofCells rows cols (← cellsOf vs)

def matrixOfRows (rows : List (List Value)) : Except Error Matrix :=
  let cols := (rows.head?.map List.length).getD 0
  if rows.any fun r => r.length ≠ cols then .error (.invalidArgument .raggedRows)
  else matrixOfCells rows.length cols rows.flatten

end Value
end StackCalc
