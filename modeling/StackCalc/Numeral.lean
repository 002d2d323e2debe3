/-!
Numerals of naturals in a base from 2 to 36, with upper case letters for the digits above nine.
Long numerals are cut in halves at powers of the base, so that the cost is that of a few divisions
of long numbers and not of one division per digit.
-/

namespace StackCalc.Numeral

/-- The character of a digit below 36. -/
def digitChar (d : Nat) : Char :=
  if d < 10 then Char.ofNat (48 + d) else Char.ofNat (55 + d)

/-- The powers `p`, `p ^ 2`, `p ^ 4`, … that are at most `n`, the largest first, before `acc`. -/
def cuts (n : Nat) : Nat → Nat → List Nat → List Nat
  | 0, _, acc => acc
  | fuel + 1, p, acc => if n < p then acc else cuts n fuel (p * p) (p :: acc)

/-- The digits of `n` before `acc`, cut at the given powers. Each cut doubles the number of
digits written, so leading zeros appear. -/
def spread : List Nat → Nat → List Char → List Char
  | [], n, acc => digitChar n :: acc
  | p :: ps, n, acc => spread ps (n / p) (spread ps (n % p) acc)

/-- The digits of `n` in `base`, without leading zeros except for zero itself. -/
def digits (base n : Nat) : List Char :=
  match (spread (cuts n (n.log2 + 1) base []) n []).dropWhile (· == '0') with
  | [] => ['0']
  | cs => cs

/-- The numeral of `n` in `base`. -/
def render (base n : Nat) : String :=
  String.ofList (digits base n)

def ofNat (n : Nat) : String :=
  render 10 n

/-- The decimal numeral of an integer, with a minus sign for negative ones. -/
def ofInt (n : Int) : String :=
  if n < 0 then "-" ++ ofNat n.natAbs else ofNat n.natAbs

/-- Whether a character is one of the ten ASCII digits. -/
def isDigit (c : Char) : Bool :=
  '0' ≤ c && c ≤ '9'

/-- The number that a string of decimal digits denotes. -/
def value (cs : List Char) : Nat :=
  cs.foldl (fun n c => n * 10 + (c.toNat - 48)) 0

end StackCalc.Numeral
