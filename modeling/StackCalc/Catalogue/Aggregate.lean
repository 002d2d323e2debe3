import StackCalc.Catalogue.Numeric

/-!
Matrices and lists as wholes. The operations on many entries take their number from the top of the
stack.
-/

namespace StackCalc.Catalogue

def matrices : Signature := { accepted := [[.of .matrix]], broadcast := false, deferred := false }

def lists : Signature := { accepted := [[.of .list]], broadcast := false, deferred := false }

def matrixOf (op : String) (a : Operand) : Except Error Matrix :=
  match a.value with
  | .matrix m => .ok m
  | v => .error (.typeMismatch op v.kind.name)

/-- The largest identity matrix. -/
def maxDimension : Nat := 1024

/-- The identity matrix of a size that an operand holds. -/
def identityOf (a : Operand) : Except Error Operand := do
  Operand.requirePlain "idn" [a]
  let n ← a.value.toIndex "dimension"
  if n = 0 ∨ maxDimension < n then throw (.invalidArgument (.dimension n maxDimension))
  return .plain (.matrix (← Matrix.identity n))

/-- The number of elements of a list, the shape of a matrix, and one for everything else. -/
def sizeOf : Value → Value
  | .list _ items => .integer items.length
  | .matrix m => .list .integer [.integer m.height, .integer m.cols]
  | _ => .integer 1

/-- Collects the counted entries in a list. They have one unit, which the list takes over. -/
def collect : Calc Unit := do
  let os ← Calc.countedOperands "->list"
  let unit := (os.head?.map Operand.unit).getD .none
  for o in os do
    let _ ← Calc.lift (o.unit.requireSame unit)
  let list ← Calc.lift (Value.ofItems (← get).settings.style.precision (os.map Operand.value))
  Calc.replaceTop (os.length + 1) [⟨list, unit⟩]

def explode (_ : Settings) (os : List Operand) : Except Error (List Operand) :=
  match os with
  | [⟨.list _ items, unit⟩] =>
    .ok (items.map (⟨·, unit⟩) ++ [.plain (.integer items.length)])
  | _ => .error (.typeMismatch "list->" (Operand.kindsText os))

def determinant : Operation where
  name := "det"
  arity := 1
  results := 1
  help := ⟨"Determinant of a square matrix",
    "( [[a b] [c d]] -- ad-bc )", "[[1 2] [3 4]] det", ["inv", "trn"]⟩
  action := .primitive (Calc.unary "det" matrices fun s a => do
    Operand.requirePlain "det" [a]
    return .plain (.scalar (← (← matrixOf "det" a).det s.style.precision)))

def transpose : Operation where
  name := "trn"
  aliases := ["transpose"]
  arity := 1
  results := 1
  help := ⟨"Transpose", "( m -- mᵀ )", "[[1 2] [3 4]] trn", ["det"]⟩
  action := .primitive (Calc.unary "trn" matrices fun _ a => do
    return ⟨.matrix (← matrixOf "trn" a).transpose, a.unit⟩)

def identity : Operation where
  name := "idn"
  arity := 1
  results := 1
  help := ⟨"n×n identity matrix", "( n -- I )", "3 idn", ["det"]⟩
  action := .primitive (Calc.unary "idn" (Signature.strict .unaryInteger) fun _ a => identityOf a)

def sum : Operation where
  name := "sum"
  aliases := ["Σ"]
  arity := -1
  results := 1
  help := ⟨"Sum of n entries (n on top)", "( x1 ... xn n -- Σ )", "1 2 3 3 sum", ["product", "+"]⟩
  action := .primitive (Calc.foldCounted "sum" additive (.integer 0) Operand.add)

def product : Operation where
  name := "product"
  aliases := ["Π"]
  arity := -1
  results := 1
  help := ⟨"Product of n entries (n on top)",
    "( x1 ... xn n -- Π )", "1 2 3 3 product", ["sum", "*"]⟩
  action := .primitive (Calc.foldCounted "product" multiplicative (.integer 1) Operand.mul)

def toList : Operation where
  name := "->list"
  aliases := ["→list"]
  arity := -1
  results := 1
  help := ⟨"Collect n entries into a list (n on top)",
    "( x1 ... xn n -- \x7b x1 ... xn \x7d )", "1 2 3 3 ->list", ["list->", "size"]⟩
  action := .primitive collect

def fromList : Operation where
  name := "list->"
  aliases := ["list→", "obj->"]
  arity := 1
  results := -1
  help := ⟨"Explode a list onto the stack followed by its size",
    "( \x7b x1 ... xn \x7d -- x1 ... xn n )", "\x7b 1 2 3 \x7d list->", ["->list"]⟩
  action := .primitive (Calc.applyTopMany "list->" 1 lists explode)

def size : Operation where
  name := "size"
  arity := 1
  results := 1
  help := ⟨"Number of list elements, or \x7brows cols\x7d of a matrix",
    "( obj -- n )", "\x7b 1 2 3 \x7d size", ["->list"]⟩
  action := .primitive (Calc.unary "size" (.any 1) fun _ a => .ok (.plain (sizeOf a.value)))

def aggregates : List Operation :=
  [determinant, transpose, identity, sum, product, toList, fromList, size]

end StackCalc.Catalogue
