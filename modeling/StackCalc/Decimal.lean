import StackCalc.MachineWord
import StackCalc.Rounding
import StackCalc.Text

/-!
Finite decimal numbers `± mantissa · 10 ^ exponent`. A number in normal form has a mantissa that
ten does not divide, or is the one zero, so equal numbers in normal form are equal as data. Texts
are read by `parse` and written by `render`, and `roundSig` keeps a number of leading digits.
Exponents are kept in signed words of 64 bits, and these three overflow where a sum of exponents
does not fit one. `nearestSig` and `text` are the number and the text without that limit.
-/

namespace StackCalc

/-- A sign, a mantissa and a power of ten. -/
structure Decimal where
  negative : Bool
  mantissa : Nat
  exponent : Int
deriving DecidableEq, Repr

namespace Decimal

def zero : Decimal := ⟨false, 0, 0⟩

/-- Moves the factors ten of a mantissa into the exponent. -/
def stripZeros (m : Nat) (e : Int) : Nat × Int :=
  if h : 0 < m ∧ m % 10 = 0 then stripZeros (m / 10) (e + 1) else (m, e)
termination_by m
decreasing_by omega

def normalize (d : Decimal) : Decimal :=
  if d.mantissa = 0 then zero
  else
    let (m, e) := stripZeros d.mantissa d.exponent
    ⟨d.negative, m, e⟩

/-- A number that has been computed, if its exponent fits its word. -/
def hold (d : Decimal) : Except Error Decimal :=
  (Word.int64.hold d.exponent).map fun _ => d

/-- The integer that an optional sign and decimal digits denote, if it fits a signed word of
64 bits. -/
def parseExponent (cs : List Char) : Option Int :=
  let (negative, digits) := match cs with
    | '-' :: r => (true, r)
    | '+' :: r => (false, r)
    | r => (false, r)
  if digits.isEmpty || !digits.all Numeral.isDigit then none
  else
    let n : Int := Numeral.value digits
    let v := if negative then -n else n
    if Word.int64.inRange v then some v else none

/-- Reads the digits of a number, with at most one point, times a power of ten. -/
def parseMantissa (negative : Bool) (cs : List Char) (exponent : Int) :
    Except Error (Option Decimal) :=
  let whole := cs.takeWhile (· != '.')
  let fraction := (cs.dropWhile (· != '.')).drop 1
  let digits := whole ++ fraction
  if digits.isEmpty || !digits.all Numeral.isDigit then .ok none
  else do
    let d ← hold ⟨negative, Numeral.value digits, exponent - fraction.length⟩
    return some (← d.normalize.hold)

/-- Reads the text after the sign: digits, and a power of ten after the letter e. -/
def parseUnsigned (negative : Bool) (cs : List Char) : Except Error (Option Decimal) :=
  let isMark := fun (c : Char) => c == 'e' || c == 'E'
  let number := cs.takeWhile (fun c => !isMark c)
  match cs.dropWhile (fun c => !isMark c) with
  | [] => parseMantissa negative number 0
  | _ :: exp =>
    match parseExponent exp with
    | some exponent => parseMantissa negative number exponent
    | none => .ok none

/-- Reads a decimal number between blanks: an optional sign, digits with at most one point, and
optionally the letter e with a signed power of ten. -/
def parse (text : String) : Except Error (Option Decimal) :=
  match Text.trim text.toList with
  | '-' :: r => parseUnsigned true r
  | '+' :: r => parseUnsigned false r
  | r => parseUnsigned false r

def digitCount (d : Decimal) : Nat :=
  (Numeral.digits 10 d.mantissa).length

/-- The nearest number with at most `sig` leading digits, a tie going away from zero. At least one
digit is kept. -/
def nearestSig (d : Decimal) (sig : Nat) : Decimal :=
  let drop := d.digitCount - max sig 1
  if drop = 0 then d
  else normalize ⟨d.negative, Rounding.halfUp d.mantissa (Nat.pow 10 drop), d.exponent + drop⟩

/-- The nearest number with at most `sig` leading digits, if its exponent fits its word. -/
def roundSig (d : Decimal) (sig : Nat) : Except Error Decimal :=
  (d.nearestSig sig).hold

/-- The largest power of ten that is written out as an exact fraction. -/
def maxExponent : Nat := 100000

/-- The number as a fraction, unless its power of ten is out of reach. -/
def toRat? (d : Decimal) : Option Rat :=
  let m : Int := if d.negative then -d.mantissa else d.mantissa
  if maxExponent < d.exponent.natAbs then none
  else if 0 ≤ d.exponent then some ((m * Nat.pow 10 d.exponent.natAbs : Int) : Rat)
  else some (mkRat m (Nat.pow 10 d.exponent.natAbs))

/-- Whether the number has no digits after the point. -/
def isWhole (d : Decimal) : Bool :=
  0 ≤ d.exponent

/-- The text of a number. The point is written where it stands if the power of ten of the leading
digit is at least -5 and below the precision, and after the leading digit otherwise. Whole numbers
keep a point at the end, which tells them from integers. -/
def text (d : Decimal) (precision : Nat) : String :=
  if d.mantissa = 0 then "0."
  else
    let digits := Numeral.digits 10 d.mantissa
    let lead := d.exponent + digits.length - 1
    let sign := if d.negative then ['-'] else []
    let body :=
      if -5 ≤ lead ∧ lead < max precision 1 then
        if 0 ≤ d.exponent then digits ++ List.replicate d.exponent.toNat '0' ++ ['.']
        else if 0 ≤ lead then
          digits.take (lead + 1).toNat ++ ['.'] ++ digits.drop (lead + 1).toNat
        else ['0', '.'] ++ List.replicate (-lead - 1).toNat '0' ++ digits
      else
        let tail := digits.drop 1
        digits.take 1 ++ (if tail.isEmpty then [] else '.' :: tail) ++ ['e']
          ++ (Numeral.ofInt lead).toList
    String.ofList (sign ++ body)

/-- The text of a number. The power of ten of the leading digit is found from that of the first
place above it, which has to fit a word. -/
def render (d : Decimal) (precision : Nat) : Except Error String :=
  if d.mantissa = 0 then .ok (d.text precision)
  else (Word.int64.hold (d.exponent + d.digitCount)).map fun _ => d.text precision

/-- The decimal number with `sig` leading digits nearest to the quotient `n / d` of positive
naturals, a tie going to the even digit. -/
def ofQuotient (negative : Bool) (sig n d : Nat) : Decimal :=
  if n = 0 then zero
  else
    let s : Int := (sig : Int) - 1 - Rounding.floorLog10 n d
    normalize
      ⟨negative, Rounding.halfEven (n * Nat.pow 10 s.toNat) (d * Nat.pow 10 (-s).toNat), -s⟩

end Decimal
end StackCalc
