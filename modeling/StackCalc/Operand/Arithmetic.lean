import StackCalc.Signature
import StackCalc.Value.Arithmetic

/-!
Arithmetic of operands. Sums, remainders and extremes need equal units, products and quotients
combine them, and powers raise them. Matrices and times are computed with where that has a meaning.
-/

namespace StackCalc.Operand

/-- The precision of floats under the settings. -/
def digits (s : Settings) : Nat := s.style.precision

def add (s : Settings) (a b : Operand) : Except Error Operand := do
  let unit ← a.unit.requireSame b.unit
  let value ← match a.value, b.value with
    | .matrix m, .matrix n => (m.add (digits s) n).map Value.matrix
    | .time t, .time u => (t.add u).map Value.time
    | x, y => x.add (digits s) y
  return ⟨value, unit⟩

def sub (s : Settings) (a b : Operand) : Except Error Operand := do
  let unit ← a.unit.requireSame b.unit
  let value ← match a.value, b.value with
    | .matrix m, .matrix n => (m.sub (digits s) n).map Value.matrix
    | .time t, .time u => (t.sub u).map Value.time
    | x, y => x.sub (digits s) y
  return ⟨value, unit⟩

def realFactor (op : String) (v : Value) : Except Error Rat :=
  match v.toRat? with
  | some q => .ok q
  | none => .error (.typeMismatch op v.kind.name)

def scaleTime (t : Time) (v : Value) : Except Error Value := do
  return .time (← t.scale (← realFactor "*" v))

def mul (s : Settings) (a b : Operand) : Except Error Operand := do
  let unit ← a.unit.mul b.unit
  let value ← match a.value, b.value with
    | .matrix m, .matrix n => (m.mul (digits s) n).map Value.matrix
    | .matrix m, x => (x.scaleMatrix (digits s) m).map Value.matrix
    | x, .matrix m => (x.scaleMatrix (digits s) m).map Value.matrix
    | .time t, x => scaleTime t x
    | x, .time t => scaleTime t x
    | x, y => x.mul (digits s) y
  return ⟨value, unit⟩

def divideTime (t : Time) (v : Value) : Except Error Value := do
  let q ← realFactor "/" v
  if q = 0 then throw .divisionByZero
  return .time (← t.scale q⁻¹)

def div (s : Settings) (a b : Operand) : Except Error Operand := do
  let unit ← a.unit.div b.unit
  let value ← match a.value, b.value with
    | .matrix m, .matrix n => ((n.inverse (digits s)).bind (m.mul (digits s))).map Value.matrix
    | .matrix m, x => (Value.divideMatrix (digits s) m x).map Value.matrix
    | .time t, .time u => (t.ratio u).map Value.rational
    | .time t, x => divideTime t x
    | x, y => x.div (digits s) y
  return ⟨value, unit⟩

def neg (_ : Settings) (a : Operand) : Except Error Operand := do
  let value ← match a.value with
    | .matrix m => .ok (.matrix m.neg)
    | .time t => t.neg.map Value.time
    | x => x.neg
  return ⟨value, a.unit⟩

/-- The reciprocal of a number or the inverse of a matrix. -/
def inv (s : Settings) (a : Operand) : Except Error Operand := do
  let value ← match a.value with
    | .matrix m => (m.inverse (digits s)).map Value.matrix
    | x => x.inv (digits s)
  return ⟨value, ← a.unit.inv⟩

def abs (_ : Settings) (a : Operand) : Except Error Operand := do
  return ⟨← a.value.abs, a.unit⟩

def square (s : Settings) (a : Operand) : Except Error Operand := mul s a a

/-- The square root. The unit needs one too. -/
def sqrt (s : Settings) (a : Operand) : Except Error Operand := do
  match ← a.unit.root? 2 with
  | none => throw (.unitsProhibited "sqrt")
  | some unit => return ⟨← a.value.sqrt (digits s), unit⟩

/-- The power of a unit. Only an integer of 32 bits raises a unit other than none. -/
def unitPower (unit : UnitProduct) (e : Value) : Except Error UnitProduct :=
  if unit.isDimensionless then .ok .none
  else
    match e with
    | .integer n =>
      if Word.int32.inRange n then unit.pow n else .error (.unitsProhibited "^")
    | _ => .error (.unitsProhibited "^")

def pow (s : Settings) (a b : Operand) : Except Error Operand := do
  b.unit.requireNone "^"
  let unit ← unitPower a.unit b.value
  let value ← match a.value, b.value with
    | .matrix m, .integer n => (m.pow (digits s) n).map Value.matrix
    | x, y => x.pow (digits s) y
  return ⟨value, unit⟩

def modulo (s : Settings) (a b : Operand) : Except Error Operand := do
  let unit ← a.unit.requireSame b.unit
  return ⟨← a.value.modulo (digits s) b.value, unit⟩

def integer (op : String) (a : Operand) : Except Error Int :=
  match a.value with
  | .integer n => .ok n
  | v => .error (.typeMismatch op v.kind.name)

def floorDiv (_ : Settings) (a b : Operand) : Except Error Operand := do
  let q ← Scalar.floorDiv (← integer "idiv" a) (← integer "idiv" b)
  return ⟨.integer q, ← a.unit.div b.unit⟩

/-- The first of two operands if their order is the wanted one or they are equal, or else the
second. -/
def extreme (wanted : Ordering) (_ : Settings) (a b : Operand) : Except Error Operand := do
  let unit ← a.unit.requireSame b.unit
  match a.value.order? b.value with
  | none => throw (.domain .unordered)
  | some o => return ⟨if o = wanted ∨ o = .eq then a.value else b.value, unit⟩

def requirePlain (op : String) (os : List Operand) : Except Error Unit :=
  os.forM fun o => o.unit.requireNone op

/-- The integer one or zero. -/
def truth (b : Bool) : Operand := plain (.integer (if b then 1 else 0))

/-- The order of two operands of one ordered kind and one unit. -/
def order (op : String) (a b : Operand) : Except Error Ordering := do
  let _ ← a.unit.requireSame b.unit
  match a.value.order? b.value with
  | some o => return o
  | none =>
    throw (.typeMismatch op (a.kind.name ++ " and " ++ b.kind.name ++ " are not ordered"))

def equals (s : Settings) (a b : Operand) : Except Error Bool := do
  let _ ← a.unit.requireSame b.unit
  a.value.equals (digits s) b.value

end StackCalc.Operand
