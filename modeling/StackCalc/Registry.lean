import StackCalc.Catalogue.Aggregate
import StackCalc.Catalogue.Analysis
import StackCalc.Catalogue.Conversion
import StackCalc.Catalogue.Instant
import StackCalc.Catalogue.Integer
import StackCalc.Catalogue.Modes
import StackCalc.Catalogue.Numeric
import StackCalc.Catalogue.Rearrangement
import StackCalc.Catalogue.Reference
import StackCalc.Text

/-!
All operations, and how they are found by name. Names and aliases are found whatever their case.
Of two operations with one name the later one counts.
-/

namespace StackCalc.Registry

/-- All operations. The place of an operation is its number. -/
def operations : List Operation :=
  open Catalogue in
  numeric ++ integers ++ conversions ++ aggregates ++ rearrangements ++ modes ++ references
    ++ analysis ++ instants

/-- The names of an operation with the case forgotten, and its number. -/
def namesOf (entry : Operation × Nat) : List (String × Nat) :=
  (entry.1.name :: entry.1.aliases).map fun name => (Text.foldCase name, entry.2)

/-- The numbers of all operations by their names, the last operation first. -/
def numbers : List (String × Nat) :=
  (operations.zipIdx.flatMap namesOf).reverse

def number? (name : String) : Option Nat := numbers.lookup (Text.foldCase name)

def find? (name : String) : Option Operation := (number? name).bind fun n => operations[n]?

def contains (name : String) : Bool := (number? name).isSome

def names : List String := operations.map Operation.name

/-- The help for a name, on one line. -/
def help? (name : String) : Option String := (find? name).map Operation.helpLine

end StackCalc.Registry
