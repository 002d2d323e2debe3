import StackCalc.Settings
import StackCalc.UnitProduct
import StackCalc.Value.Lattice

/-!
What operands an operation takes. A signature lists the tuples of kinds that are accepted as they
are, and conversions that are tried in order if none fits. Besides, an operation may be applied to
the elements of lists one by one, and deferred as an expression when an operand is symbolic.
-/

namespace StackCalc

/-- A value and its unit. -/
structure Operand where
  value : Value
  unit : UnitProduct

namespace Operand

/-- An operand without unit. -/
def plain (v : Value) : Operand := ⟨v, .none⟩

def kind (o : Operand) : Kind := o.value.kind

def kindsText (os : List Operand) : String :=
  " and ".intercalate (os.map fun o => o.kind.name)

/-- The elements of a list operand, which share its unit, or as many copies of another one. -/
def spread (n : Nat) (o : Operand) : List Operand :=
  match o.value with
  | .list _ items => items.map fun v => ⟨v, o.unit⟩
  | _ => List.replicate n o

def listSize? (o : Operand) : Option Nat :=
  match o.value with
  | .list _ items => some items.length
  | _ => none

end Operand

/-- Converts every operand to `target` if all their kinds are in `source`. -/
structure Conversion where
  source : KindSet
  target : Kind

structure Signature where
  accepted : List (List KindSet)
  limited : Option KindSet := none
  conversions : List Conversion := []
  broadcast : Bool := true
  deferred : Bool := true

namespace Signature

/-- The scalar promotions, the narrowest target first. -/
def promotions : List Conversion :=
  [⟨.exact, .rational⟩, ⟨.real, .float⟩, ⟨.scalar, .complex⟩]

/-- Pairs of one kind, for some kinds. -/
def pairs (ks : List Kind) : List (List KindSet) := ks.map fun k => [.of k, .of k]

def unaryScalar : Signature := { accepted := [[.scalar]] }

def unaryReal : Signature := { accepted := [[.real]] }

def unaryInteger : Signature := { accepted := [[.of .integer]], deferred := false }

def binaryScalar : Signature where
  accepted := pairs [.integer, .rational, .float, .complex]
  conversions := promotions

def binaryReal : Signature where
  accepted := pairs [.integer, .rational, .float]
  limited := some .real
  conversions := promotions

/-- Two integers. Whole fractions count as integers, floats never. -/
def binaryInteger : Signature where
  accepted := pairs [.integer]
  limited := some .exact
  conversions := [⟨.exact, .integer⟩]
  deferred := false

def any (arity : Nat) : Signature where
  accepted := [List.replicate arity .any]
  broadcast := false
  deferred := false

/-- The same operands, without broadcast and deferral. -/
def strict (s : Signature) : Signature := { s with broadcast := false, deferred := false }

/-- Whether operands have the kinds of a tuple. -/
def fits (os : List Operand) (kinds : List KindSet) : Bool :=
  kinds.length = os.length && (kinds.zip os).all fun p => p.1.contains p.2.kind

/-- A value as one of another kind, narrowed only if that is exact. -/
def convert (digits : Nat) (v : Value) (target : Kind) : Except Error Value :=
  match v.kind.scalarRank, target.scalarRank with
  | some i, some j =>
    if j < i then
      match v.narrow? target with
      | some w => .ok w
      | none => .error (.typeMismatch "convert" (v.kind.name ++ " is not an exact " ++ target.name))
    else v.widen digits target
  | _, _ => v.widen digits target

/-- The operands after a conversion, if it applies to all of them. -/
def tryConversion (digits : Nat) (os : List Operand) (c : Conversion) : Option (List Operand) :=
  if os.all fun o => c.source.contains o.kind then
    (os.mapM fun (o : Operand) =>
      (convert digits o.value c.target).map fun v => (⟨v, o.unit⟩ : Operand)).toOption
  else none

/-- The operands as the operation takes them: as they are, or after the first conversion that
works. -/
def resolve (s : Signature) (op : String) (digits : Nat) (os : List Operand) :
    Except Error (List Operand) :=
  if s.accepted.any (fits os) then .ok os
  else
    let allowed := s.limited.all fun limited => os.all fun o => limited.contains o.kind
    let converted := if allowed then s.conversions.findSome? (tryConversion digits os) else none
    match converted with
    | some os => .ok os
    | none => .error (.typeMismatch op (Operand.kindsText os))

/-- What an operation computes from operands of the accepted kinds. -/
abbrev Transform := Settings → List Operand → Except Error Operand

def defer (op : String) (os : List Operand) : Except Error Operand := do
  for o in os do
    o.unit.requireNone op
  return .plain (.symbolic (.apply op (os.map fun o => Expr.ofValue o.value)))

/-- Rows of columns of `n` elements each. -/
def rows (n : Nat) (columns : List (List Operand)) : List (List Operand) :=
  columns.foldr (fun column rows => List.zipWith List.cons column rows) (List.replicate n [])

/-- Applies a function to the elements of lists of one size, and collects the results in a list
with the unit of the first one. -/
def overElements (op : String) (digits : Nat) (f : List Operand → Except Error Operand)
    (os : List Operand) : Except Error Operand := do
  match os.filterMap Operand.listSize? with
  | [] => throw (.typeMismatch op (Operand.kindsText os))
  | n :: sizes =>
    if let some m := sizes.find? fun m => m ≠ n then
      throw (.invalidArgument (.listSizesDiffer op n m))
    let results ← (rows n (os.map (Operand.spread n))).mapM f
    let list ← Value.ofItems digits (results.map Operand.value)
    let listUnit := ((os.find? fun o => o.kind = .list).map Operand.unit).getD .none
    return ⟨list, (results.head?.map Operand.unit).getD listUnit⟩

/-- Applies an operation through its signature, for operands whose lists are nested at most
`depth` levels deep. -/
def applyWithin (s : Signature) (op : String) (f : Transform) (settings : Settings) :
    Nat → List Operand → Except Error Operand
  | depth, os =>
    if s.deferred && os.any fun o => o.kind = .symbolic then defer op os
    else if s.broadcast && os.any fun o => o.kind = .list then
      match depth with
      | 0 => .error (.typeMismatch op (Operand.kindsText os))
      | d + 1 => overElements op settings.style.precision (applyWithin s op f settings d) os
    else do f settings (← s.resolve op settings.style.precision os)

def apply (s : Signature) (op : String) (f : Transform) (settings : Settings)
    (os : List Operand) : Except Error Operand :=
  s.applyWithin op f settings (os.foldl (fun d o => max d o.value.listDepth) 0) os

end Signature
end StackCalc
