import StackCalc.History
import StackCalc.Scopes
import StackCalc.Signature
import StackCalc.Stack

/-!
The calculator's state and the steps that operations are made of. A step fails with an error or
gives a result, and keeps the state that it has reached in both cases. The `applyTop` family does
all its checks before it changes anything, so that a failure there leaves the state as it was.
-/

namespace StackCalc

/-- The state of a calculator. `nesting` counts the programs and expressions that are being run
inside each other, and `clock` is the current time in nanoseconds. -/
structure Machine where
  stack : Stack
  settings : Settings
  flags : Flags
  scopes : Scopes
  history : History
  nesting : Nat
  clock : Int

/-- A step of a calculator. -/
abbrev Calc := ExceptT Error (StateM Machine)

namespace Machine

def start (settings : Settings) (clock : Int) : Machine where
  stack := { limit := settings.stackLimit }
  settings := settings
  flags := .clear
  scopes := {}
  history := { depth := settings.undoDepth }
  nesting := 0
  clock := clock

/-- The flags of the top entry, all clear for an empty stack. -/
def topFlags (m : Machine) : Flags :=
  match m.stack.entries with
  | e :: _ => e.flags
  | [] => .clear

/-- The state with other entries on the stack, and the flags of the new top entry. -/
def withStack (m : Machine) (stack : Stack) : Machine :=
  let m := { m with stack }
  { m with flags := m.topFlags }

/-- The entry of an operand under the current settings. -/
def entryOf (m : Machine) (o : Operand) : Entry := .store o.value o.unit m.settings.style

/-- The texts of the entries, bottom first. -/
def display (m : Machine) : List String :=
  m.stack.entries.reverse.map (Entry.display m.settings.modes)

end Machine

namespace Calc

/-- The outcome of a function that does not depend on the state. -/
def lift {α : Type} (r : Except Error α) : Calc α := liftExcept r
where
  liftExcept : Except Error α → Calc α
    | .ok a => pure a
    | .error e => throw e

def liftStack {α : Type} (r : Except StackFault α) : Calc α := lift (r.mapError .stack)

/-- Pushes an entry as it is, and takes over its flags. -/
def pushEntry (e : Entry) : Calc Unit := do
  let stack ← liftStack ((← get).stack.push e)
  modify fun m => { m with stack, flags := e.flags }

def pushOperand (o : Operand) : Calc Unit := do
  pushEntry ((← get).entryOf o)

/-- Pushes a value without unit. -/
def pushValue (v : Value) : Calc Unit := pushOperand (.plain v)

def top : Calc Entry := do liftStack ((← get).stack.peek 0)

/-- Rearranges the stack. The flags follow the new top entry. -/
def rearrange (f : Stack → Except StackFault Stack) : Calc Unit := do
  let stack ← liftStack (f (← get).stack)
  modify fun m => m.withStack stack

/-- Requires that many entries on the stack for an operation. -/
def requireArgs (op : String) (needed : Nat) : Calc Unit := do
  let available := (← get).stack.size
  if available < needed then throw (.insufficientArguments op needed available)

/-- The top entries as operands, the lowest one first. -/
def operands (op : String) (count : Nat) : Calc (List Operand) := do
  requireArgs op count
  let entries := (← get).stack.entries.take count
  return entries.reverse.map fun e => ⟨e.value, e.unit⟩

/-- Replaces the top `consumed` entries by the results, the first one lowest. -/
def replaceTop (consumed : Nat) (results : List Operand) : Calc Unit := do
  let m ← get
  let entries := results.map m.entryOf
  liftStack (m.stack.requireRoom consumed entries.length)
  let (_, stack) ← liftStack (m.stack.popMany consumed)
  modify fun m => { m with stack }
  for e in entries do
    pushEntry e

/-- Applies an operation with one result to the top entries. -/
def applyTop (op : String) (arity : Nat) (s : Signature) (f : Signature.Transform) : Calc Unit := do
  let os ← operands op arity
  let result ← lift (s.apply op f (← get).settings os)
  replaceTop arity [result]

def unary (op : String) (s : Signature) (f : Settings → Operand → Except Error Operand) :
    Calc Unit :=
  applyTop op 1 s fun settings os =>
    match os with
    | [a] => f settings a
    | _ => .error (.typeMismatch op (Operand.kindsText os))

def binary (op : String) (s : Signature) (f : Settings → Operand → Operand → Except Error Operand) :
    Calc Unit :=
  applyTop op 2 s fun settings os =>
    match os with
    | [a, b] => f settings a b
    | _ => .error (.typeMismatch op (Operand.kindsText os))

/-- Applies an operation to the top three entries. -/
def ternary (op : String) (s : Signature)
    (f : Settings → Operand → Operand → Operand → Except Error Operand) : Calc Unit :=
  applyTop op 3 s fun settings os =>
    match os with
    | [a, b, c] => f settings a b c
    | _ => .error (.typeMismatch op (Operand.kindsText os))

/-- Applies an operation with any number of results to the top entries, without broadcast and
deferral. -/
def applyTopMany (op : String) (arity : Nat) (s : Signature)
    (f : Settings → List Operand → Except Error (List Operand)) : Calc Unit := do
  let os ← operands op arity
  let settings := (← get).settings
  let results ← lift (do f settings (← s.resolve op settings.style.precision os))
  replaceTop arity results

/-- The largest count that an operation takes. -/
def maxCount : Nat := 1000000000

/-- The count on top of the stack, with that many entries below it. -/
def count (op : String) : Calc Nat := do
  requireArgs op 1
  let n ← lift ((← top).value.toIndex "count")
  if maxCount < n then throw (.invalidArgument (.countTooLarge op n maxCount))
  requireArgs op (n + 1)
  return n

/-- The operands below the count on top of the stack, the lowest one first. -/
def countedOperands (op : String) : Calc (List Operand) := do
  let n ← count op
  return (← operands op (n + 1)).dropLast

/-- Combines the operands below the count on top of the stack from the left. No operands give the
neutral value. -/
def foldCounted (op : String) (s : Signature) (neutral : Value)
    (f : Settings → Operand → Operand → Except Error Operand) : Calc Unit := do
  let os ← countedOperands op
  let settings := (← get).settings
  let step := s.apply op (fun settings os =>
    match os with
    | [a, b] => f settings a b
    | _ => .error (.typeMismatch op (Operand.kindsText os))) settings
  let result ← lift (match os with
    | [] => .ok (.plain neutral)
    | o :: os => os.foldlM (fun acc next => step [acc, next]) o)
  replaceTop (os.length + 1) [result]

/-- Changes the settings. Invalid ones, and a limit that the stack exceeds, are refused. -/
def changeSettings (f : Settings → Settings) : Calc Unit := do
  let m ← get
  let settings := f m.settings
  if let some fault := settings.fault? then throw (.invalidArgument fault)
  if let some limit := settings.stackLimit then
    if limit < m.stack.size then
      throw (.invalidArgument (.stackAboveLimit m.stack.size limit))
  set { m with
    settings
    stack := { m.stack with limit := settings.stackLimit }
    history := m.history.withDepth settings.undoDepth }

/-- Brings the latest snapshot back. -/
def undo : Calc Unit := do
  let m ← get
  match m.history.pop? with
  | none => throw (.stack .nothingToUndo)
  | some (entries, history) =>
    set ({ m with history }.withStack (m.stack.withEntries entries))

end Calc
end StackCalc
