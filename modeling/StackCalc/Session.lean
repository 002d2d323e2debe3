import StackCalc.Evaluator
import StackCalc.Settings.Document

/-!
A session: instructions that are run one after the other at top level. An instruction that fails
gives the stack and the flags back as they were; one that succeeds and may have changed the stack
leaves a snapshot of the stack before it in the undo history.
-/

namespace StackCalc

/-- A calculator between two instructions. -/
abbrev Session := Machine

namespace Session

def ofDocument (text : String) (clock : Int) :
    Except Settings.DocumentFault Session :=
  (Settings.parse text).map fun settings => Machine.start settings clock

/-- Whether an instruction leaves a snapshot, as names stand after it. -/
def leavesSnapshot (m : Machine) : Instruction → Bool
  | .noop => false
  | .keyword name =>
    (m.scopes.get? name).isSome || (Registry.find? name).any Operation.recorded
  | _ => true

def runOne (i : Instruction) (m : Session) : Except Error Unit × Session :=
  match (Evaluator.runInstruction (Evaluator.levelsLeft m) i).run.run m with
  | (.ok (), n) =>
    (.ok (),
      if leavesSnapshot n i then { n with history := n.history.push m.stack.entries } else n)
  | (.error e, n) =>
    (.error e, { n with stack := n.stack.withEntries m.stack.entries, flags := m.flags })

/-- Runs instructions and skips the ones that fail. The errors are in order. -/
def run : List Instruction → Session → List Error × Session
  | [], m => ([], m)
  | i :: is, m =>
    match runOne i m with
    | (.ok (), n) => run is n
    | (.error e, n) =>
      let (errors, n) := run is n
      (e :: errors, n)

/-- The values on the stack, bottom first. -/
def values (m : Session) : List Value := m.stack.entries.reverse.map Entry.value

/-- Runs instructions up to the first failure, and gives the values on the stack. -/
def eval : List Instruction → Session → Except Error (List Value) × Session
  | [], m => (.ok m.values, m)
  | i :: is, m =>
    match runOne i m with
    | (.ok (), n) => eval is n
    | (.error e, n) => (.error e, n)

/-- Brings the latest snapshot back. -/
def undo (m : Session) : Except Error Unit × Session := Calc.undo.run.run m

def changeSettings (f : Settings → Settings) (m : Session) : Except Error Unit × Session :=
  (Calc.changeSettings f).run.run m

end Session
end StackCalc
