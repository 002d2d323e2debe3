import StackCalc.Error
import StackCalc.Style

/-!
The settings of a calculator: how new entries are shown and stored, the display modes, and the
bounds of the undo history and of the stack.
-/

namespace StackCalc

structure Settings where
  style : NumberStyle := {}
  modes : DisplayModes := {}
  undoDepth : Nat := 100
  stackLimit : Option Nat := none
deriving DecidableEq, Repr

namespace Settings

/-- The largest precision in decimal digits. -/
def maxPrecision : Nat := 10000

/-- The largest width of a word. -/
def maxWordBits : Nat := 4096

/-- Why settings are refused, the first reason in the order base, precision, word width and stack
limit. -/
def fault? (s : Settings) : Option ArgumentFault :=
  let shown := Numeral.ofNat
  if s.style.base < 2 ∨ 36 < s.style.base then
    some (.setting "base" (shown s.style.base ++ " is not in 2..=36"))
  else if s.style.precision = 0 ∨ maxPrecision < s.style.precision then
    some (.setting "precision"
      (shown s.style.precision ++ " is not in 1..=" ++ shown maxPrecision))
  else if maxWordBits < s.style.wordBits then
    some (.setting "fixed_bits" (shown s.style.wordBits ++ " exceeds " ++ shown maxWordBits))
  else if s.stackLimit = some 0 then some (.setting "max_stack" "must be at least 1")
  else none

/-- Settings that a calculator takes. -/
def Valid (s : Settings) : Prop := s.fault? = none

instance (s : Settings) : Decidable s.Valid := inferInstanceAs (Decidable (s.fault? = none))

end Settings
end StackCalc
