import StackCalc.Operation

/-!
Variables, evaluation and calls by name. A name is given as a symbolic variable. A stored entry
keeps its unit and its display, and its bare name pushes it again.
-/

namespace StackCalc.Catalogue

def variableName (op : String) (e : Entry) : Except Error String :=
  match e.value with
  | .symbolic (.var name) => .ok name
  | v => .error (.typeMismatch op (v.kind.name ++ " is not a name"))

def boundEntry (name : String) : Calc Entry := do
  match (← get).scopes.get? name with
  | some e => return e
  | none => throw (.invalidArgument (.undefinedVariable name))

/-- Replaces the name on top of the stack by the entry that it is bound to. -/
def recallTop : Calc Unit := do
  let name ← Calc.lift (variableName "rcl" (← Calc.top))
  let e ← boundEntry name
  let (_, stack) ← Calc.liftStack (← get).stack.pop
  modify fun m => { m with stack }
  Calc.pushEntry e

/-- Takes a name off the stack and removes its innermost binding. -/
def purgeTop : Calc Unit := do
  let name ← Calc.lift (variableName "purge" (← Calc.top))
  let _ ← boundEntry name
  Calc.rearrange Stack.drop
  modify fun m => { m with scopes := m.scopes.unset name }

def store : Operation where
  name := "sto"
  aliases := ["store"]
  arity := 2
  results := 0
  help := ⟨"Store a value under a name", "( value 'name' -- )", "42 'x' sto", ["rcl", "purge"]⟩
  action := .assign

def recallVariable : Operation where
  name := "rcl"
  aliases := ["recall"]
  arity := 1
  results := 1
  help := ⟨"Push the value stored under a name", "( 'name' -- value )", "'x' rcl", ["sto"]⟩
  action := .primitive recallTop

def purge : Operation where
  name := "purge"
  arity := 1
  results := 0
  help := ⟨"Remove a stored variable", "( 'name' -- )", "'x' purge", ["sto"]⟩
  action := .primitive purgeTop

def evaluate : Operation where
  name := "eval"
  arity := 1
  results := 1
  help := ⟨"Evaluate a symbolic expression with the current variables",
    "( 'expr' -- value )", "'X+1' eval", ["execute", "sto"]⟩
  action := .evaluate

def execute : Operation where
  name := "execute"
  aliases := ["exec", "call"]
  arity := 1
  results := -1
  help := ⟨"Invoke a function reference on the stack below it",
    "( ... 'F' -- ... )", "1 2 '+' execute", ["eval"]⟩
  action := .call

def references : List Operation :=
  [store, recallVariable, purge, evaluate, execute]

end StackCalc.Catalogue
