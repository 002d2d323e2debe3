import StackCalc.Settings
import StackCalc.Toml

/-!
Settings as a document. Every key may be missing and then keeps its default; unknown keys are
ignored, but a known key with a value of another type or out of range makes the document
unreadable.
-/

namespace StackCalc.Settings

/-- Why a document gives no settings. -/
inductive DocumentFault where
  | unreadable
  | invalid (fault : ArgumentFault)
deriving DecidableEq, Repr

open Toml (Item Entries)

def natural? (bound : Nat) : Item → Option Nat
  | .integer n => if 0 ≤ n ∧ n ≤ bound then some n.toNat else none
  | _ => none

def boolean? : Item → Option Bool
  | .boolean b => some b
  | _ => none

/-- One of the words of a choice. It may also be the only key of a table, with nothing in it. -/
def choice? {α : Type} (words : List (String × α)) : Item → Option α
  | .text s => words.lookup s
  | .table _ [(s, .array [])] => words.lookup s
  | .table _ [(s, .table _ [])] => words.lookup s
  | _ => none

/-- The item of a key, read in its way, or else the default. -/
def read {α : Type} (es : Entries) (key : String) (f : Item → Option α) (absent : α) : Option α :=
  match es.lookup key with
  | some v => f v
  | none => some absent

/-- The largest number of 32 bits. -/
def maxCount : Nat := 4294967295

/-- The largest number of 64 bits. -/
def maxSize : Nat := 18446744073709551615

/-- The settings that the entries of a document give. -/
def ofEntries? (es : Entries) : Option Settings := do
  let d : Settings := {}
  let base ← read es "base" (natural? maxCount) d.style.base
  let wordBits ← read es "fixed_bits" (natural? maxCount) d.style.wordBits
  let signed ← read es "is_signed" boolean? d.style.signed
  let precision ← read es "precision" (natural? maxCount) d.style.precision
  let angle ← read es "angle_mode"
    (choice? ([.radians, .degrees, .gradians].map fun u => (u.name, u))) d.modes.angle
  let fraction ← read es "rational_mode"
    (choice? ([.improper, .mixed].map fun u => (u.name, u))) d.modes.fraction
  let complex ← read es "complex_mode"
    (choice? ([.rectangular, .polar].map fun u => (u.name, u))) d.modes.complex
  let undoDepth ← read es "undo_depth" (natural? maxSize) d.undoDepth
  let stackLimit ← read es "max_stack" (fun v => (natural? maxSize v).map some) d.stackLimit
  return ⟨⟨base, wordBits, precision, signed⟩, ⟨angle, fraction, complex⟩, undoDepth, stackLimit⟩

def parse (text : String) : Except DocumentFault Settings :=
  match (Toml.parse? text).bind ofEntries? with
  | none => .error .unreadable
  | some s =>
    match s.fault? with
    | none => .ok s
    | some fault => .error (.invalid fault)

end StackCalc.Settings
