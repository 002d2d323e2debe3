import StackCalc.UnitProduct
import StackCalc.Value.Lattice
import StackCalc.Value.Printer
import StackCalc.Word

/-!
Entries of the stack. An entry is made by `store`, which brings its value to canonical form, wraps
an integer into the word of the entry's style, and derives the flags from the result.
-/

namespace StackCalc

/-- A value with its unit, its display style and the flags of its storing. -/
structure Entry where
  value : Value
  unit : UnitProduct
  style : NumberStyle
  flags : Flags

namespace Entry

/-- The stored form of a value in a style, and its flags. -/
def stored (style : NumberStyle) (v : Value) : Value × Flags :=
  match v.reduce with
  | .integer n =>
    let (r, flags) := Word.emulate n style.wordBits style.signed
    (.integer r, flags)
  | w => (w, Flags.ofSign w.isZero w.isNegative)

/-- The entry of a value. -/
def store (v : Value) (unit : UnitProduct) (style : NumberStyle) : Entry :=
  let (w, flags) := stored style v
  ⟨w, unit, style, flags⟩

/-- The entry of a value without unit, in the default style. -/
def plain (v : Value) : Entry := store v .none {}

/-- The entry with another value. -/
def withValue (e : Entry) (v : Value) : Entry := store v e.unit e.style

/-- The text of an entry. A unit follows the value after an underscore. -/
def display (modes : DisplayModes) (e : Entry) : String :=
  let text := e.value.render e.style modes
  if e.unit.isDimensionless then text else text ++ "_" ++ e.unit.text

end Entry
end StackCalc
