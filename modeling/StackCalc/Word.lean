/-!
Integers in words of a fixed width. `Word.wrap` brings an integer into the range of a word and
tells, like the status register of a processor, whether that changed it.
-/

namespace StackCalc

/-- The status of a stored value. -/
structure Flags where
  zero : Bool
  carry : Bool
  overflow : Bool
  sign : Bool
deriving DecidableEq, Repr

namespace Flags

def clear : Flags := ⟨false, false, false, false⟩

def ofSign (zero negative : Bool) : Flags := ⟨zero, false, false, negative⟩

end Flags

/-- The width in bits and the reading of the patterns: two's complement or unsigned. -/
structure Word where
  bits : Nat
  signed : Bool
deriving DecidableEq, Repr

namespace Word

/-- How many patterns there are. -/
def modulus (w : Word) : Int := Nat.pow 2 w.bits

/-- Half as many. -/
def half (w : Word) : Int := Nat.pow 2 (w.bits - 1)

def mask (w : Word) : Int := w.modulus - 1

def least (w : Word) : Int := if w.signed then -w.half else 0

def greatest (w : Word) : Int := if w.signed then w.half - 1 else w.mask

def inRange (w : Word) (v : Int) : Bool := w.least ≤ v && v ≤ w.greatest

/-- The low bits of an integer. -/
def pattern (w : Word) (v : Int) : Int := v % w.modulus

/-- The value of a pattern: the upper half of the patterns is negative in a signed word. -/
def ofPattern (w : Word) (v : Int) : Int :=
  let p := w.pattern v
  if w.signed && w.half ≤ p then p - w.modulus else p

/-- The value with the same pattern, and its flags. A value out of range sets the overflow of a
signed word or the carry of an unsigned one. -/
def wrap (w : Word) (v : Int) : Int × Flags :=
  let out := !w.inRange v
  let r := if out then w.ofPattern v else v
  (r, ⟨r = 0, out && !w.signed, out && w.signed, r < 0⟩)

/-- Wraps an integer into a word of `bits` bits. No bits mean no bound. -/
def emulate (v : Int) (bits : Nat) (signed : Bool) : Int × Flags :=
  if bits = 0 then (v, Flags.ofSign (v = 0) (v < 0)) else wrap ⟨bits, signed⟩ v

end Word

/-! Bitwise operations read integers as infinite two's complement: the negative integer `-n - 1` is
the complement of the natural `n`, so each pair of signs comes down to operations on naturals. -/

namespace Bits

/-- The bitwise and. -/
def land (a b : Int) : Int :=
  match a, b with
  | .ofNat m, .ofNat n => (m &&& n : Nat)
  | .ofNat m, .negSucc n => (m - (m &&& n) : Nat)
  | .negSucc m, .ofNat n => (n - (n &&& m) : Nat)
  | .negSucc m, .negSucc n => .negSucc (m ||| n)

/-- The bitwise or. -/
def lor (a b : Int) : Int :=
  match a, b with
  | .ofNat m, .ofNat n => (m ||| n : Nat)
  | .ofNat m, .negSucc n => .negSucc (n - (n &&& m))
  | .negSucc m, .ofNat n => .negSucc (m - (m &&& n))
  | .negSucc m, .negSucc n => .negSucc (m &&& n)

/-- The bitwise exclusive or. -/
def xor (a b : Int) : Int :=
  match a, b with
  | .ofNat m, .ofNat n => (m ^^^ n : Nat)
  | .ofNat m, .negSucc n => .negSucc (m ^^^ n)
  | .negSucc m, .ofNat n => .negSucc (m ^^^ n)
  | .negSucc m, .negSucc n => (m ^^^ n : Nat)

end Bits
end StackCalc
