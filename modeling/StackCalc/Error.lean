import StackCalc.Numeral

/-!
What can go wrong. An error names its cause; `Error.message` is the one place that words it and
`Error.category` the one that classifies it. The instruction that raised an error is undone and the
machine goes on. An overflow of a machine word stops the whole program instead. It is an error like
the others here, so that what holds of all runs holds of those that it stops.
-/

namespace StackCalc

/-- Arguments for which the mathematics gives no result. -/
inductive DomainFault where
  | notANumber
  | rootOfNegative
  | logOfNonPositive
  | logOfZero
  | lnOfZero
  | addInstants
  | subtractInstant
  | negateInstant
  | scaleInstant
  | divideInstants
  | timeOutOfRange
  | singularMatrix
  | exponentTooLarge
  | powerTooLong (op : String) (limit : Nat)
  | modInexact
  | inexact (op shown : String)
  | unordered
  | noInverse (a m g : Int)
  | negativeArgument (op : String) (n : Int)
  | chooseTooMany (op : String) (k n : Nat)
deriving DecidableEq, Repr

/-- Arguments that an operation does not take. -/
inductive ArgumentFault where
  | notANumeral (text : String)
  | baseOutOfRange (base : Nat)
  | zeroPrecision
  | emptyMatrix
  | cellCount (rows cols given : Nat)
  | raggedRows
  | shapesDiffer (rows₁ cols₁ rows₂ cols₂ : Nat)
  | shapesDoNotChain (rows₁ cols₁ rows₂ cols₂ : Nat)
  | notSquare (op : String) (rows cols : Nat)
  | notAnInteger (what : String)
  | indexOutOfRange (what : String) (n : Int)
  | listSizesDiffer (op : String) (first other : Nat)
  | stackAboveLimit (size limit : Nat)
  | setting (field : String) (reason : String)
  | countTooLarge (op : String) (count limit : Nat)
  | nestedTooDeep (limit : Nat)
  | manyResults (op : String) (count : Nat)
  | argumentTooLarge (op : String) (n : Int) (limit : Nat)
  | shiftTooLarge (op : String) (n limit : Nat)
  | dimension (n limit : Nat)
  | settingTooLarge (what : String) (n : Nat)
  | namesOperation (name : String)
  | undefinedVariable (name : String)
deriving DecidableEq, Repr

/-- Misuse of the stack or of its history. -/
inductive StackFault where
  | underflow
  | noSuchLevel (n : Nat)
  | overflow (limit : Nat)
  | nothingToUndo
  | levelZero (op : String)
deriving DecidableEq, Repr

/-- Why an instruction failed. -/
inductive Error where
  | insufficientArguments (op : String) (needed available : Nat)
  | typeMismatch (op detail : String)
  | unitsProhibited (op : String)
  | unitsMismatch (left right : String)
  | domain (fault : DomainFault)
  | divisionByZero
  | invalidArgument (fault : ArgumentFault)
  | notImplemented (what : String)
  | unknownOperation (name : String)
  | stack (fault : StackFault)
  | overflow
deriving DecidableEq, Repr

/-- The broad class of an error. -/
inductive Error.Category where
  | insufficientArguments
  | typeMismatch
  | units
  | domain
  | notImplemented
  | other
deriving DecidableEq, Repr

open Numeral (ofNat ofInt)

def shapeText (rows cols : Nat) : String :=
  ofNat rows ++ "x" ++ ofNat cols

def DomainFault.message : DomainFault → String
  | notANumber => "result is not a number"
  | rootOfNegative => "square root of a negative float"
  | logOfNonPositive => "logarithm of a non-positive float"
  | logOfZero => "logarithm of zero"
  | lnOfZero => "ln(0)"
  | addInstants => "cannot add two absolute times"
  | subtractInstant => "cannot subtract an absolute time from a duration"
  | negateInstant => "cannot negate an absolute time"
  | scaleInstant => "cannot scale an absolute time"
  | divideInstants => "cannot divide absolute times"
  | timeOutOfRange => "time out of range"
  | singularMatrix => "matrix is singular"
  | exponentTooLarge => "exponent too large"
  | powerTooLong op limit => op ++ ": result would exceed " ++ ofNat limit ++ " bits"
  | modInexact => "mod: float has no exact fraction in range"
  | inexact op shown => op ++ ": " ++ shown ++ " has no exact fraction in range"
  | unordered => "values are not ordered"
  | noInverse a m g =>
    "modinv: gcd(" ++ ofInt a ++ ", " ++ ofInt m ++ ") = " ++ ofInt g ++ ", no inverse"
  | negativeArgument op n => op ++ ": negative argument " ++ ofInt n
  | chooseTooMany op k n => op ++ ": " ++ ofNat k ++ " > " ++ ofNat n

def ArgumentFault.message : ArgumentFault → String
  | notANumeral text => "not a number: '" ++ text ++ "'"
  | baseOutOfRange base => "base must be 2..36, got " ++ ofNat base
  | zeroPrecision => "precision must be at least 1"
  | emptyMatrix => "matrix must not be empty"
  | cellCount rows cols given =>
    "expected " ++ ofNat (rows * cols) ++ " cells for a " ++ shapeText rows cols ++ " matrix, got "
      ++ ofNat given
  | raggedRows => "matrix rows differ in length"
  | shapesDiffer r₁ c₁ r₂ c₂ =>
    "dimension mismatch: " ++ shapeText r₁ c₁ ++ " vs " ++ shapeText r₂ c₂
  | shapesDoNotChain r₁ c₁ r₂ c₂ =>
    "cannot multiply " ++ shapeText r₁ c₁ ++ " by " ++ shapeText r₂ c₂
  | notSquare op rows cols => op ++ ": matrix must be square, got " ++ shapeText rows cols
  | notAnInteger what => what ++ " must be an integer"
  | indexOutOfRange what n => what ++ " out of range: " ++ ofInt n
  | listSizesDiffer op first other =>
    op ++ ": list sizes differ (" ++ ofNat first ++ " and " ++ ofNat other ++ ")"
  | stackAboveLimit size limit =>
    "stack holds " ++ ofNat size ++ " entries, more than max_stack " ++ ofNat limit
  | setting field reason => "invalid value for '" ++ field ++ "': " ++ reason
  | countTooLarge op count limit => op ++ ": count " ++ ofNat count ++ " exceeds " ++ ofNat limit
  | nestedTooDeep limit => "nesting deeper than " ++ ofNat limit
  | manyResults op count => op ++ " left " ++ ofNat count ++ " results in an expression"
  | argumentTooLarge op n limit => op ++ ": " ++ ofInt n ++ " is larger than " ++ ofNat limit
  | shiftTooLarge op n limit => op ++ ": shift " ++ ofNat n ++ " exceeds " ++ ofNat limit
  | dimension n limit => "idn: dimension " ++ ofNat n ++ " outside 1..=" ++ ofNat limit
  | settingTooLarge what n => what ++ ": " ++ ofNat n ++ " is too large"
  | namesOperation name => "sto: '" ++ name ++ "' names an operation"
  | undefinedVariable name => "undefined variable '" ++ name ++ "'"

def StackFault.message : StackFault → String
  | underflow => "stack underflow"
  | noSuchLevel n => "invalid stack index: " ++ ofNat n
  | overflow limit => "stack overflow: limit is " ++ ofNat limit ++ " entries"
  | nothingToUndo => "no undo history"
  | levelZero op => op ++ ": level must be at least 1"

namespace Error

def message : Error → String
  | insufficientArguments op needed available =>
    op ++ ": insufficient arguments (needs " ++ ofNat needed ++ ", stack has " ++ ofNat available
      ++ ")"
  | typeMismatch op detail => op ++ ": type mismatch (" ++ detail ++ ")"
  | unitsProhibited op => op ++ ": units prohibited"
  | unitsMismatch left right => "units mismatch: '" ++ left ++ "' vs '" ++ right ++ "'"
  | domain fault => "domain error: " ++ fault.message
  | divisionByZero => "division by zero"
  | invalidArgument fault => "invalid argument: " ++ fault.message
  | notImplemented what => "not implemented: " ++ what
  | unknownOperation name => "unknown operation: " ++ name
  | stack fault => fault.message
  | overflow => "arithmetic overflow"

/-- The class of an error. Division by zero is a matter of the domain. -/
def category : Error → Category
  | insufficientArguments .. => .insufficientArguments
  | typeMismatch .. => .typeMismatch
  | unitsProhibited .. | unitsMismatch .. => .units
  | domain .. | divisionByZero => .domain
  | notImplemented .. => .notImplemented
  | invalidArgument .. | unknownOperation .. | stack .. | overflow => .other

end Error
end StackCalc
