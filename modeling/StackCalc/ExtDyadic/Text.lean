import StackCalc.Decimal
import StackCalc.ExtDyadic

/-!
Decimal texts of extended dyadic rationals. Reading rounds a decimal number to a width in bits and
`toDecimal` rounds a dyadic one to as many decimal digits as its width holds, both to the nearest
number with ties to even.

Moderate powers of ten and two are written out. The others are enclosed between two naturals times
a power of two, with growing care until both ends round alike. They cannot tie: half a unit of the
last place would need a power of five that does not fit the other side. Where the ends still differ
after all, the power is written out.
-/

namespace StackCalc

/-- The numbers between `lo · 2 ^ exp` and `hi · 2 ^ exp`. -/
structure Span where
  lo : Nat
  hi : Nat
  exp : Int

namespace Span

def ofNat (n : Nat) : Span := ⟨n, n, 0⟩

/-- Drops low bits, outwards, until about `p` bits are left. -/
def trim (p : Nat) (a : Span) : Span :=
  let s := a.hi.log2 - p
  ⟨a.lo >>> s, if s = 0 then a.hi else (a.hi >>> s) + 1, a.exp + s⟩

def mul (a b : Span) : Span := ⟨a.lo * b.lo, a.hi * b.hi, a.exp + b.exp⟩

/-- The quotient by positive numbers, with `p` bits more. -/
def div (p : Nat) (a b : Span) : Span :=
  ⟨(a.lo <<< p) / b.hi, (a.hi <<< p) / b.lo + 1, a.exp - b.exp - p⟩

/-- The power `n ^ k` with `p` bits kept at each step. -/
def pow (p n k : Nat) : Span :=
  if k = 0 then ofNat 1
  else
    let h := pow p n (k / 2)
    let s := (h.mul h).trim p
    if k % 2 = 1 then (s.mul (ofNat n)).trim p else s
termination_by k

/-- `a · 10 ^ k`. -/
def scaleTen (p : Nat) (a : Span) (k : Int) : Span :=
  let five := pow p 5 k.natAbs
  let b := if 0 ≤ k then a.mul five else a.div (p + five.hi.log2) five
  ⟨b.lo, b.hi, b.exp + k⟩

end Span

namespace ExtDyadic

/-- The largest power that is written out for numbers of `w` bits. -/
def plainLimit (w : Nat) : Nat := 65536 + 16 * w

/-- The number of `w` bits nearest to `± m · 10 ^ k` for a power of ten that is enclosed. -/
def settleDecimal (w : Nat) (negative : Bool) (m : Nat) (k : Int) : Nat → Nat → ExtDyadic
  | 0, _ => nearest w negative (m * Nat.pow 10 k.toNat) (Nat.pow 10 (-k).toNat) 0
  | fuel + 1, p =>
    let a := Span.scaleTen p (Span.ofNat m) k
    let l := nearest w negative a.lo 1 a.exp
    if l = nearest w negative a.hi 1 a.exp then l
    else settleDecimal w negative m k fuel (2 * p)

/-- The number of `w` bits nearest to `± m · 10 ^ k`. -/
def ofDecimal (w : Nat) (negative : Bool) (m : Nat) (k : Int) : ExtDyadic :=
  if m = 0 then finite 0
  else if k.natAbs ≤ plainLimit w + 8 * m.log2 then
    nearest w negative (m * Nat.pow 10 k.toNat) (Nat.pow 10 (-k).toNat) 0
  else if 2147483648 < k.natAbs then if k < 0 then finite 0 else infinite negative
  else settleDecimal w negative m k 8 (w + 128)

/-- The written power of ten after the mark `e`: an optional sign and digits, of which none is
none at all. The rest of the text is ignored. -/
def writtenExponent : List Char → Int
  | 'e' :: r | 'E' :: r =>
    let (negative, ds) := match r with
      | '-' :: t => (true, t)
      | '+' :: t => (false, t)
      | t => (false, t)
    let n : Int := Numeral.value (ds.takeWhile Numeral.isDigit)
    if negative then -n else n
  | _ => 0

/-- The largest written power of ten. A number with a larger one is infinite, and a number whose
power is as far below zero is zero. -/
def maxWrittenExponent : Int := 2147483647

/-- Reads the longest number at the start of a text without sign. A zero without digits after the
point is zero under every power of ten, and with such digits only under one that is in range. -/
def parseUnsigned (w : Nat) (negative : Bool) (cs : List Char) : Option ExtDyadic :=
  if (cs.take 3).map Char.toLower = ['i', 'n', 'f'] then some (infinite negative)
  else
    let whole := cs.takeWhile Numeral.isDigit
    let rest := cs.dropWhile Numeral.isDigit
    let (fraction, rest) := match rest with
      | '.' :: t => (t.takeWhile Numeral.isDigit, t.dropWhile Numeral.isDigit)
      | t => ([], t)
    if whole.isEmpty && fraction.isEmpty then none
    else if fraction.isEmpty && Numeral.value whole = 0 then some (finite 0)
    else
      let k := writtenExponent rest
      if maxWrittenExponent < k then some (infinite negative)
      else if k < -maxWrittenExponent then some (finite 0)
      else some (ofDecimal w negative (Numeral.value (whole ++ fraction)) (k - fraction.length))

/-- Reads a number of `w` bits: an optional sign, digits with at most one point, and an optional
power of ten, or a word that starts with inf. What follows is ignored. -/
def parse (w : Nat) (text : String) : Option ExtDyadic :=
  match text.toList with
  | '-' :: r => parseUnsigned w true r
  | '+' :: r => parseUnsigned w false r
  | r => parseUnsigned w false r

/-- How many decimal digits a number of `w` bits is shown with. -/
def shownDigits (w : Nat) : Nat :=
  w * 301029996 / 1000000000 + 1

/-- An enclosed positive number as a decimal number of `sig` digits. -/
def spanDecimal (negative : Bool) (sig : Nat) (lo : Nat) (exp : Int) : Decimal :=
  Decimal.ofQuotient negative sig (lo <<< exp.toNat) (1 <<< (-exp).toNat)

/-- The decimal number of `sig` digits nearest to `± m · 2 ^ e`, over a power of ten that is
enclosed. -/
def settleDigits (sig : Nat) (negative : Bool) (m : Nat) (e t : Int) : Nat → Nat → Decimal
  | 0, _ => Decimal.ofQuotient negative sig (m <<< e.toNat) (1 <<< (-e).toNat)
  | fuel + 1, p =>
    let a := Span.scaleTen p ⟨m, m, e⟩ t
    let d := spanDecimal negative sig a.lo a.exp
    if d = spanDecimal negative sig a.hi a.exp then { d with exponent := d.exponent - t }
    else settleDigits sig negative m e t fuel (2 * p)

/-- The decimal number of `sig` digits nearest to a dyadic rational, a tie going to the even
digit. -/
def roundDecimal (sig : Nat) (x : Dyadic) : Decimal :=
  let negative : Bool := numerator x < 0
  let m := (numerator x).natAbs
  let e := scale x
  if m = 0 then Decimal.zero
  else if e.natAbs ≤ plainLimit (4 * sig) + 8 * m.log2 then
    Decimal.ofQuotient negative sig (m <<< e.toNat) (1 <<< (-e).toNat)
  else
    let k := lead x * 301029995663981195 / 1000000000000000000
    settleDigits sig negative m e (sig - k) 8 (4 * sig + 128)

/-- The decimal digits of a number of `w` bits. Infinities have none. -/
def toDecimal (w : Nat) : ExtDyadic → Option Decimal
  | finite x => some (roundDecimal (shownDigits w) x)
  | infinite _ => none

end ExtDyadic
end StackCalc
