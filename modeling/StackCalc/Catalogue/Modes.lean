import StackCalc.Operation
import StackCalc.Operand.Arithmetic

/-!
Display modes, word size and precision, and queries of the flags. A changed mode shows in entries
that are made from then on. Undo brings a setting that was taken from the stack back to it, and
leaves the mode as it is.
-/

namespace StackCalc.Catalogue

def restyle (f : NumberStyle → NumberStyle) : Calc Unit :=
  Calc.changeSettings fun s => { s with style := f s.style }

def remode (f : DisplayModes → DisplayModes) : Calc Unit :=
  Calc.changeSettings fun s => { s with modes := f s.modes }

/-- The largest number that a setting takes. -/
def maxSetting : Nat := 4294967295

/-- Changes the style by the number on top of the stack, which is taken off once it is accepted. -/
def restyleByTop (op : String) (f : NumberStyle → Nat → NumberStyle) : Calc Unit := do
  let e ← Calc.top
  Calc.lift (e.unit.requireNone op)
  let n ← Calc.lift (e.value.toIndex op)
  if maxSetting < n then throw (.invalidArgument (.settingTooLarge op n))
  restyle fun style => f style n
  Calc.rearrange Stack.drop

def pushFlag (flag : Flags → Bool) : Calc Unit := do
  Calc.pushOperand (Operand.truth (flag (← get).flags))

def binary : Operation where
  name := "bin"
  arity := 0
  results := 0
  help := ⟨"Display integers in base 2", "( -- )", "bin 10", ["oct", "dec", "hex", "base"]⟩
  recorded := false
  action := .primitive (restyle fun s => { s with base := 2 })

def octal : Operation where
  name := "oct"
  arity := 0
  results := 0
  help := ⟨"Display integers in base 8", "( -- )", "oct 64", ["bin", "dec", "hex", "base"]⟩
  recorded := false
  action := .primitive (restyle fun s => { s with base := 8 })

def decimal : Operation where
  name := "dec"
  arity := 0
  results := 0
  help := ⟨"Display integers in base 10", "( -- )", "dec 255", ["bin", "oct", "hex", "base"]⟩
  recorded := false
  action := .primitive (restyle fun s => { s with base := 10 })

def hexadecimal : Operation where
  name := "hex"
  arity := 0
  results := 0
  help := ⟨"Display integers in base 16", "( -- )", "hex 255", ["bin", "oct", "dec", "base"]⟩
  recorded := false
  action := .primitive (restyle fun s => { s with base := 16 })

def base : Operation where
  name := "base"
  arity := 1
  results := 0
  help := ⟨"Display integers in base n (2 to 36); undo returns n, not the old base",
    "( n -- )", "36 base", ["hex", "dec"]⟩
  action := .primitive (restyleByTop "base" fun s n => { s with base := n })

def wordSize : Operation where
  name := "bits"
  aliases := ["stws"]
  arity := 1
  results := 0
  help := ⟨"Set the word size for integers, 0 for unbounded; undo returns n, not the old size",
    "( n -- )", "8 bits", ["signed", "unsigned"]⟩
  action := .primitive (restyleByTop "bits" fun s n => { s with wordBits := n })

def signed : Operation where
  name := "signed"
  arity := 0
  results := 0
  help := ⟨"Treat fixed-width words as two's complement",
    "( -- )", "8 bits signed 200", ["unsigned", "bits"]⟩
  recorded := false
  action := .primitive (restyle fun s => { s with signed := true })

def unsigned : Operation where
  name := "unsigned"
  arity := 0
  results := 0
  help := ⟨"Treat fixed-width words as unsigned",
    "( -- )", "8 bits unsigned -1", ["signed", "bits"]⟩
  recorded := false
  action := .primitive (restyle fun s => { s with signed := false })

def precision : Operation where
  name := "prec"
  arity := 1
  results := 0
  help := ⟨"Set the significant digits for floats; undo returns n, not the old precision",
    "( n -- )", "50 prec", ["->f"]⟩
  action := .primitive (restyleByTop "prec" fun s n => { s with precision := n })

def degrees : Operation where
  name := "deg"
  arity := 0
  results := 0
  help := ⟨"Angles in degrees", "( -- )", "deg 90 sin", ["rad", "grad"]⟩
  recorded := false
  action := .primitive (remode fun m => { m with angle := .degrees })

def radians : Operation where
  name := "rad"
  arity := 0
  results := 0
  help := ⟨"Angles in radians", "( -- )", "rad pi sin", ["deg", "grad"]⟩
  recorded := false
  action := .primitive (remode fun m => { m with angle := .radians })

def gradians : Operation where
  name := "grad"
  arity := 0
  results := 0
  help := ⟨"Angles in gradians", "( -- )", "grad 100 sin", ["deg", "rad"]⟩
  recorded := false
  action := .primitive (remode fun m => { m with angle := .gradians })

def rectangular : Operation where
  name := "rect"
  arity := 0
  results := 0
  help := ⟨"Show complex numbers as (re, im)", "( -- )", "rect", ["polar"]⟩
  recorded := false
  action := .primitive (remode fun m => { m with complex := .rectangular })

def polar : Operation where
  name := "polar"
  arity := 0
  results := 0
  help := ⟨"Show complex numbers as magnitude and angle", "( -- )", "polar", ["rect", "arg"]⟩
  recorded := false
  action := .primitive (remode fun m => { m with complex := .polar })

def mixed : Operation where
  name := "mixed"
  arity := 0
  results := 0
  help := ⟨"Show fractions as mixed numbers (3 1/2)", "( -- )", "mixed 7 2 /", ["improper"]⟩
  recorded := false
  action := .primitive (remode fun m => { m with fraction := .mixed })

def improper : Operation where
  name := "improper"
  arity := 0
  results := 0
  help := ⟨"Show fractions as improper fractions (7/2)", "( -- )", "improper 7 2 /", ["mixed"]⟩
  recorded := false
  action := .primitive (remode fun m => { m with fraction := .improper })

def zeroFlag : Operation where
  name := "zf"
  arity := 0
  results := 1
  help := ⟨"Push 1 if the last stored value was zero",
    "( -- flag )", "1 1 - zf", ["cf", "of", "sf"]⟩
  action := .primitive (pushFlag Flags.zero)

def carryFlag : Operation where
  name := "cf"
  arity := 0
  results := 1
  help := ⟨"Push 1 if the last stored value wrapped as unsigned",
    "( -- flag )", "8 bits unsigned 255 1 + cf", ["zf", "of", "sf"]⟩
  action := .primitive (pushFlag Flags.carry)

def overflowFlag : Operation where
  name := "of"
  arity := 0
  results := 1
  help := ⟨"Push 1 if the last stored value overflowed as signed",
    "( -- flag )", "8 bits signed 127 1 + of", ["zf", "cf", "sf"]⟩
  action := .primitive (pushFlag Flags.overflow)

def signFlag : Operation where
  name := "sf"
  arity := 0
  results := 1
  help := ⟨"Push 1 if the last stored value was negative",
    "( -- flag )", "1 2 - sf", ["zf", "cf", "of"]⟩
  action := .primitive (pushFlag Flags.sign)

def modes : List Operation :=
  [binary, octal, decimal, hexadecimal, base, wordSize, signed, unsigned, precision, degrees,
   radians, gradians, rectangular, polar, mixed, improper, zeroFlag, carryFlag, overflowFlag,
   signFlag]

end StackCalc.Catalogue
