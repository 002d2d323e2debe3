import StackCalc.NumberTheory
import StackCalc.Operand.Arithmetic
import StackCalc.Operation
import StackCalc.Word

/-!
Integer functions and bitwise operations. None of them takes units, and floats never count as
integers. Under a word width, operands are taken as their bit patterns and the pattern of the
result is read back as a word; without one, negative integers have infinitely many leading ones.
-/

namespace StackCalc.Catalogue

def ternaryInteger : Signature :=
  { Signature.binaryInteger.strict with accepted := [[.of .integer, .of .integer, .of .integer]] }

/-- An exact scalar. A float counts as the fraction of its digits. -/
def exactParts : Signature where
  accepted := [[.exact]]
  limited := some .real
  conversions := [⟨.real, .rational⟩]
  deferred := false

def onInteger (op : String) (f : Settings → Int → Except Error Int) : Calc Unit :=
  Calc.unary op .unaryInteger fun s a => do
    Operand.requirePlain op [a]
    return .plain (.integer (← f s (← Operand.integer op a)))

def onIntegers (op : String) (f : Settings → Int → Int → Except Error Int) : Calc Unit :=
  Calc.binary op .binaryInteger fun s a b => do
    Operand.requirePlain op [a, b]
    return .plain (.integer (← f s (← Operand.integer op a) (← Operand.integer op b)))

/-- Numerator and denominator of an exact value. -/
def numeratorAndDenominator : Value → Except Error (Int × Int)
  | .integer n => .ok (n, 1)
  | .rational q => .ok (q.num, q.den)
  | v => .error (.typeMismatch "num" v.kind.name)

/-- A part of an exact value. -/
def exactPart (op : String) (part : Int × Int → Int) : Calc Unit :=
  Calc.unary op exactParts fun _ a => do
    return .plain (.integer (part (← numeratorAndDenominator a.value)))

/-- The word of the settings, if they have one. -/
def word? (s : Settings) : Option Word :=
  if s.style.wordBits = 0 then none else some ⟨s.style.wordBits, s.style.signed⟩

def bitwise (op : String) (f : Int → Int → Int) : Calc Unit :=
  onIntegers op fun s a b =>
    .ok (match word? s with
      | some w => w.ofPattern (f (w.pattern a) (w.pattern b))
      | none => f a b)

def complement (s : Settings) (a : Int) : Int :=
  match word? s with
  | some w => w.ofPattern (Bits.xor w.mask (w.pattern a))
  | none => -a - 1

/-- The largest distance of a shift. -/
def maxShift : Nat := 1048576

def shiftDistance (op : String) (n : Int) : Except Error Nat := do
  let n ← (Value.integer n).toIndex "shift"
  if maxShift < n then throw (.invalidArgument (.shiftTooLarge op n maxShift))
  return n

/-- A shift to the right. The patterns of unsigned words get leading zeros. -/
def shiftedRight (s : Settings) (a : Int) (n : Nat) : Int :=
  match word? s with
  | some w => (if w.signed then a else w.pattern a) >>> n
  | none => a >>> n

def greatestCommonDivisor : Operation where
  name := "gcd"
  arity := 2
  results := 1
  help := ⟨"Greatest common divisor", "( a b -- gcd )", "12 18 gcd", ["lcm"]⟩
  action := .primitive (onIntegers "gcd" fun _ a b => .ok (Int.gcd a b))

def leastCommonMultiple : Operation where
  name := "lcm"
  arity := 2
  results := 1
  help := ⟨"Least common multiple", "( a b -- lcm )", "4 6 lcm", ["gcd"]⟩
  action := .primitive (onIntegers "lcm" fun _ a b => .ok (Int.lcm a b))

def modInverse : Operation where
  name := "modinv"
  arity := 2
  results := 1
  help := ⟨"Modular inverse; fails unless gcd(a, m) = 1",
    "( a m -- a⁻¹ mod m )", "3 11 modinv", ["modpow", "gcd"]⟩
  action := .primitive (onIntegers "modinv" fun _ a m => NumberTheory.modInverse a m)

def modPower : Operation where
  name := "modpow"
  arity := 3
  results := 1
  help := ⟨"Modular exponentiation",
    "( base exp m -- base^exp mod m )", "4 13 497 modpow", ["modinv", "^"]⟩
  action := .primitive (Calc.ternary "modpow" ternaryInteger fun _ b e m => do
    Operand.requirePlain "modpow" [b, e, m]
    return .plain (.integer (← NumberTheory.modPower (← Operand.integer "modpow" b)
      (← Operand.integer "modpow" e) (← Operand.integer "modpow" m))))

def factorial : Operation where
  name := "fact"
  aliases := ["!"]
  arity := 1
  results := 1
  help := ⟨"Factorial", "( n -- n! )", "5 fact", ["comb", "perm"]⟩
  action := .primitive (onInteger "fact" fun _ n => do
    return NumberTheory.factorial (← NumberTheory.argument "fact" n))

def combinations : Operation where
  name := "comb"
  arity := 2
  results := 1
  help := ⟨"Combinations of k out of n", "( n k -- C(n,k) )", "5 2 comb", ["perm", "fact"]⟩
  action := .primitive (onIntegers "comb" fun _ n k => do
    return ← NumberTheory.combinations (← NumberTheory.argument "comb" n)
      (← NumberTheory.argument "comb" k))

def permutations : Operation where
  name := "perm"
  arity := 2
  results := 1
  help := ⟨"Ordered arrangements of k out of n", "( n k -- P(n,k) )", "5 2 perm", ["comb", "fact"]⟩
  action := .primitive (onIntegers "perm" fun _ n k => do
    return ← NumberTheory.permutations (← NumberTheory.argument "perm" n)
      (← NumberTheory.argument "perm" k))

def numerator : Operation where
  name := "num"
  arity := 1
  results := 1
  help := ⟨"Numerator of an exact value", "( a/b -- a )", "3 4 / num", ["den", "->q"]⟩
  action := .primitive (exactPart "num" Prod.fst)

def denominator : Operation where
  name := "den"
  arity := 1
  results := 1
  help := ⟨"Denominator of an exact value", "( a/b -- b )", "3 4 / den", ["num", "->q"]⟩
  action := .primitive (exactPart "den" Prod.snd)

def bitAnd : Operation where
  name := "and"
  arity := 2
  results := 1
  help := ⟨"Bitwise AND", "( a b -- a&b )", "#FF #0F and", ["or", "xor"]⟩
  action := .primitive (bitwise "and" Bits.land)

def bitOr : Operation where
  name := "or"
  arity := 2
  results := 1
  help := ⟨"Bitwise OR", "( a b -- a|b )", "#F0 #0F or", ["and", "xor"]⟩
  action := .primitive (bitwise "or" Bits.lor)

def bitXor : Operation where
  name := "xor"
  arity := 2
  results := 1
  help := ⟨"Bitwise exclusive OR", "( a b -- a^b )", "#FF #F0 xor", ["and", "or"]⟩
  action := .primitive (bitwise "xor" Bits.xor)

def bitNot : Operation where
  name := "not"
  arity := 1
  results := 1
  help := ⟨"Bitwise NOT (respects word size)", "( a -- ~a )", "#FF not", ["and", "bits"]⟩
  action := .primitive (onInteger "not" fun s a => .ok (complement s a))

def shiftLeft : Operation where
  name := "shl"
  aliases := ["sl"]
  arity := 2
  results := 1
  help := ⟨"Shift left; bits leaving the word set carry or overflow",
    "( a n -- a<<n )", "1 4 shl", ["shr"]⟩
  action := .primitive (onIntegers "shl" fun _ a n =>
    (shiftDistance "shl" n).map fun (k : Nat) => a <<< k)

def shiftRight : Operation where
  name := "shr"
  aliases := ["sr"]
  arity := 2
  results := 1
  help := ⟨"Shift right; arithmetic for signed words", "( a n -- a>>n )", "16 4 shr", ["shl"]⟩
  action := .primitive (onIntegers "shr" fun s a n =>
    (shiftDistance "shr" n).map (shiftedRight s a))

def integers : List Operation :=
  [greatestCommonDivisor, leastCommonMultiple, modInverse, modPower, factorial, combinations,
   permutations, numerator, denominator, bitAnd, bitOr, bitXor, bitNot, shiftLeft, shiftRight]

end StackCalc.Catalogue
