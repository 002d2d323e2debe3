/-!
The kinds of calculator values, and sets of them. A scalar kind has a rank in the promotion order
integer, rational, float, complex; the other kinds have none.
-/

namespace StackCalc

/-- What a value is. -/
inductive Kind where
  | integer
  | rational
  | float
  | complex
  | matrix
  | list
  | time
  | symbolic
deriving DecidableEq, Repr, Inhabited

namespace Kind

/-- Every kind, in the order in which sets list their members. -/
def all : List Kind :=
  [integer, rational, float, complex, matrix, list, time, symbolic]

def scalarRank : Kind → Option Nat
  | integer => some 0
  | rational => some 1
  | float => some 2
  | complex => some 3
  | _ => none

def isScalar (k : Kind) : Bool :=
  k.scalarRank.isSome

/-- Whether values of the kind are exact numbers. -/
def isExact (k : Kind) : Bool :=
  k = integer || k = rational

def name : Kind → String
  | integer => "integer"
  | rational => "rational"
  | float => "float"
  | complex => "complex"
  | matrix => "matrix"
  | list => "list"
  | time => "time"
  | symbolic => "symbolic"

/-- The name as a proper noun, used when a set is shown. -/
def title : Kind → String
  | integer => "Integer"
  | rational => "Rational"
  | float => "Float"
  | complex => "Complex"
  | matrix => "Matrix"
  | list => "List"
  | time => "Time"
  | symbolic => "Symbolic"

def ofName? (s : String) : Option Kind :=
  all.find? (fun k => k.name = s)

end Kind

/-- A set of kinds, as its membership test. -/
structure KindSet where
  contains : Kind → Bool

namespace KindSet

def of (k : Kind) : KindSet := ⟨fun j => j = k⟩

def union (a b : KindSet) : KindSet := ⟨fun k => a.contains k || b.contains k⟩

def empty : KindSet := ⟨fun _ => false⟩

def any : KindSet := ⟨fun _ => true⟩

def exact : KindSet := ⟨Kind.isExact⟩

/-- The ordered scalars: integers, rationals and floats. -/
def real : KindSet := exact.union (of .float)

def scalar : KindSet := ⟨Kind.isScalar⟩

/-- The members, in the order of `Kind.all`. -/
def members (s : KindSet) : List Kind :=
  Kind.all.filter s.contains

def isEmpty (s : KindSet) : Bool :=
  s.members.isEmpty

/-- The set as text, its members between braces. -/
def text (s : KindSet) : String :=
  "\x7b" ++ ", ".intercalate (s.members.map Kind.title) ++ "\x7d"

end KindSet
end StackCalc
