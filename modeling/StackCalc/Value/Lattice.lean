import StackCalc.Value

/-!
Conversions between kinds of values. The scalar kinds are ordered by promotion, every kind goes
into expressions, and the other kinds only meet their own. `widen` is exact except into floats and
complex numbers, where an exact number is rounded to a given precision. `narrow` undoes it where
that is exact, and `reduce` brings whole fractions back to integers wherever they occur in a value.
-/

namespace StackCalc

def Kind.join (a b : Kind) : Option Kind :=
  if a = b then some a
  else if a = .symbolic ∨ b = .symbolic then some .symbolic
  else
    match a.scalarRank, b.scalarRank with
    | some i, some j => some (if j ≤ i then a else b)
    | _, _ => none

namespace Value

def toFloat (digits : Nat) : Value → Except Error MPFloat
  | scalar x => x.toFloat digits
  | v => .error (Scalar.notReal v.kind)

def toComplex (digits : Nat) : Value → Except Error Complex
  | scalar x => x.toComplex digits
  | v => .error (Scalar.notReal v.kind)

/-- The failure of a conversion to another kind. -/
def cannotWiden (source target : Kind) : Error :=
  .typeMismatch "convert" ("cannot widen " ++ source.name ++ " to " ++ target.name)

def widen (digits : Nat) (v : Value) (target : Kind) : Except Error Value :=
  if v.kind = target then .ok v
  else
    match v, target with
    | v, .symbolic => .ok (symbolic (.ofValue v))
    | integer n, .rational => .ok (rational n)
    | integer n, .float => .ok (float (.ofInt n digits))
    | rational q, .float => (MPFloat.ofRat q digits).map float
    | integer n, .complex => .ok (complex (.ofReal (.ofInt n digits)))
    | rational q, .complex => (MPFloat.ofRat q digits).map fun x => complex (.ofReal x)
    | float x, .complex => .ok (complex (.ofReal x))
    | v, target => .error (cannotWiden v.kind target)

def narrowReal? (x : Scalar) (target : Kind) : Option Scalar :=
  if x.kind = target then some x
  else
    match x, target with
    | .rational q, .integer => if q.den = 1 then some (.integer q.num) else none
    | .float x, .rational => x.toRat?.map .rational
    | .float x, .integer =>
      x.toRat?.bind fun q => if q.den = 1 then some (.integer q.num) else none
    | _, _ => none

/-- A value as one of a narrower kind, if that is exact. A float stands for the fraction of its own
digits, and a complex number without imaginary part for its real part. -/
def narrow? (v : Value) (target : Kind) : Option Value :=
  if v.kind = target then some v
  else
    match v with
    | complex z => if z.isReal then (narrowReal? (.float z.re) target).map scalar else none
    | scalar x => (narrowReal? x target).map scalar
    | _ => none

/-- The element kind of a list after its elements are reduced. -/
def reducedKind (kind : Kind) (items : List Value) : Kind :=
  if kind = .rational ∧ items.all fun v => v.kind ≠ .rational then .integer else kind

mutual

/-- The canonical form: whole fractions are integers, also inside lists, matrices and the constants
of expressions. -/
def reduce : Value → Value
  | scalar x => scalar x.reduce
  | matrix m => matrix (m.map Scalar.reduce)
  | list k items => list (reducedKind k (reduceItems items)) (reduceItems items)
  | time t => time t
  | symbolic e => symbolic (reduceExpr e)

def reduceItems : List Value → List Value
  | [] => []
  | v :: vs => reduce v :: reduceItems vs

def reduceExpr : Expr → Expr
  | .var name => .var name
  | .const v => .const (reduce v)
  | .apply name args => .apply name (reduceArgs args)

def reduceArgs : List Expr → List Expr
  | [] => []
  | e :: es => reduceExpr e :: reduceArgs es

end

/-- Brings two scalars to their common kind for an operation. -/
def promotePair (op : String) (digits : Nat) : Value → Value → Except Error ScalarPair
  | scalar x, scalar y => Scalar.promote digits x y
  | x, y => .error (Scalar.mismatch op x.kind y.kind)

/-- The kind of a list of elements with one common kind. -/
def elementKind (first : Kind) (others : List Value) : Except Error Kind :=
  others.foldlM (fun k v =>
    match k.join v.kind with
    | some j => .ok j
    | none => .error (Scalar.mismatch "list" k v.kind)) first

/-- The list of some values, each as one of their widest kind. Integers stay integers in a list of
fractions, as a whole fraction always does. -/
def ofItems (digits : Nat) : List Value → Except Error Value
  | [] => .ok (list .integer [])
  | v :: vs => do
    let k ← elementKind v.kind vs
    let items ← (v :: vs).mapM fun x =>
      if k = .rational ∧ x.kind = .integer then .ok x else x.widen digits k
    return list k items

end Value
end StackCalc
