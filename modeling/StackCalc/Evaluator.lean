import StackCalc.Registry

/-!
The evaluator: expressions, calls by name, and instructions. Programs and expressions may be nested
in each other up to a number of levels. The machine counts the levels that are in use, and the
recursion runs on those that are left.

An expression is evaluated from the leaves. An operation inside it runs on a stack of its own that
holds its arguments, and has to leave one result there. A variable without value, and every
operation on one, stays symbolic.
-/

namespace StackCalc

/-- One step of a program. -/
inductive Instruction where
  | noop
  | truth (b : Bool)
  | number (v : Value) (unit : UnitProduct)
  | list (items : List Value)
  | matrix (rows : List (List Value))
  | time (t : Time)
  | reference (name : String)
  | symbolic (e : Expr)
  | keyword (name : String)
  | program (body : List Instruction)

namespace Evaluator

/-- How deep programs and expressions may be nested. -/
def maxNesting : Nat := 64

def tooDeep : Error := .invalidArgument (.nestedTooDeep maxNesting)

/-- How many levels are left. -/
def levelsLeft (m : Machine) : Nat := maxNesting - m.nesting

/-- What a name on the stack calls: a variable, or an operation other than a call itself. -/
inductive Callee where
  | variable (e : Entry)
  | operation (op : Operation)

/-- The name that an entry calls: a reference, or a bare variable. -/
def calledName (e : Entry) : Except Error String :=
  match e.value with
  | .symbolic (.var name) => .ok name
  | .symbolic (.apply name []) => .ok name
  | v => .error (.typeMismatch "execute" (v.kind.name ++ " is not a function reference"))

/-- What a name stands for: a variable, or else an operation. -/
def resolveName (scopes : Scopes) (name : String) : Except Error Callee :=
  match scopes.get? name with
  | some e => .ok (.variable e)
  | none =>
    match Registry.find? name with
    | some op => .ok (.operation op)
    | none => .error (.unknownOperation name)

/-- Takes names off a stack as long as they call the next name, and gives the last callee and the
stack below it. -/
def followCalls (scopes : Scopes) : List Entry → Except Error (Callee × List Entry)
  | [] => .error (.stack (.noSuchLevel 0))
  | e :: below => do
    match ← resolveName scopes (← calledName e) with
    | .variable bound => return (.variable bound, below)
    | .operation op =>
      match op.action with
      | .call =>
        if below.length < op.minArgs then
          throw (.insufficientArguments op.name op.minArgs below.length)
        followCalls scopes below
      | _ => return (.operation op, below)

/-- Stores the second entry under the name on top of the stack. -/
def assignTop : Calc Unit := do
  let name ← Calc.lift (Catalogue.variableName "sto" (← Calc.top))
  if Registry.contains name then throw (.invalidArgument (.namesOperation name))
  let m ← get
  let e ← Calc.liftStack (m.stack.peek 1)
  let (_, stack) ← Calc.liftStack (m.stack.popMany 2)
  set ({ m with scopes := m.scopes.set name e }.withStack stack)

/-- Replaces the expression on top of the stack by its result. Other values are their own. -/
def evaluateTop (evaluate : Expr → Calc Operand) : Calc Unit := do
  match (← Calc.top).value with
  | .symbolic e => Calc.replaceTop 1 [← evaluate e]
  | _ => pure ()

/-- Carries out an action other than a call. -/
def runDirect (evaluate : Expr → Calc Operand) : Action → Calc Unit
  | .primitive run => run
  | .evaluate => evaluateTop evaluate
  | .assign => assignTop
  | .call => pure ()

/-- Runs what a name stands for: pushes a variable or carries out an operation. -/
def runCallee (evaluate : Expr → Calc Operand) : Callee → Calc Unit
  | .variable e => Calc.pushEntry e
  | .operation op => do
    Calc.requireArgs op.name op.minArgs
    runDirect evaluate op.action

def callTop (evaluate : Expr → Calc Operand) : Calc Unit := do
  let m ← get
  let (callee, below) ← Calc.lift (followCalls m.scopes m.stack.entries)
  modify fun m => { m with stack := m.stack.withEntries below }
  runCallee evaluate callee

def runAction (evaluate : Expr → Calc Operand) : Action → Calc Unit
  | .call => callTop evaluate
  | action => runDirect evaluate action

def runName (evaluate : Expr → Calc Operand) (name : String) : Calc Unit := do
  match ← Calc.lift (resolveName (← get).scopes name) with
  | .variable e => Calc.pushEntry e
  | .operation op =>
    Calc.requireArgs op.name op.minArgs
    runAction evaluate op.action

/-- Runs a step and changes the state before and after it, whether the step fails or not. -/
def between {α : Type} (enter leave : Machine → Machine) (step : Calc α) : Calc α := do
  modify enter
  let result ← tryCatch (step.map Except.ok) fun e => pure (.error e)
  modify leave
  Calc.lift result

/-- Runs a step one level deeper. -/
def deeper {α : Type} (step : Calc α) : Calc α :=
  between (fun m => { m with nesting := m.nesting + 1 })
    (fun m => { m with nesting := m.nesting - 1 }) step

/-- Runs a step in a variable scope of its own. -/
def inScope (step : Calc Unit) : Calc Unit :=
  between (fun m => { m with scopes := m.scopes.enter })
    (fun m => { m with scopes := m.scopes.leave }) step

/-- Runs a step on a stack of its own and brings the old stack back, whether the step fails or
not. The result comes with the stack that the step has left. -/
def onScratch {α : Type} (entries : List Entry) (step : Calc α) : Calc (α × Stack) := do
  let saved := (← get).stack
  modify fun m => { m with stack := { entries } }
  let result ← tryCatch (step.map Except.ok) fun e => pure (.error e)
  let scratch := (← get).stack
  modify fun m => { m with stack := saved }
  return (← Calc.lift result, scratch)

/-- The result of an operation on arguments, the first one lowest. -/
def applyOperation (evaluate : Expr → Calc Operand) (name : String) (args : List Operand) :
    Calc Operand := do
  match Registry.find? name with
  | none => throw (.unknownOperation name)
  | some op =>
    let m ← get
    let ((), scratch) ← onScratch (args.map m.entryOf).reverse do
      Calc.requireArgs op.name op.minArgs
      runAction evaluate op.action
    match scratch.entries with
    | [e] => return ⟨e.value, e.unit⟩
    | es => throw (.invalidArgument (.manyResults name es.length))

/-- The value of a bound entry. An expression is evaluated in turn. -/
def evaluateBound (evaluate : Expr → Calc Operand) (e : Entry) : Calc Operand :=
  match e.value with
  | .symbolic inner => evaluate inner
  | v => pure ⟨v, e.unit⟩

/-- The value of an expression, given how the expressions below it are evaluated. -/
def evaluateNode (evaluate : Expr → Calc Operand) (e : Expr) : Calc Operand := do
  match e with
  | .var name =>
    match (← get).scopes.get? name with
    | some bound => evaluateBound evaluate bound
    | none => return .plain (.symbolic e)
  | .const v => return .plain v
  | .apply name [] =>
    match (← get).scopes.get? name with
    | some bound => evaluateBound evaluate bound
    | none =>
      if (Registry.find? name).any fun op => op.arity = 0 then applyOperation evaluate name []
      else return .plain (.symbolic e)
  | .apply name args =>
    let os ← args.mapM evaluate
    if os.any fun o => o.kind = .symbolic then
      return .plain (.symbolic (.apply name (os.map fun o => Expr.ofValue o.value)))
    applyOperation evaluate name os

/-- The value of an expression, with so many levels left. -/
def evaluateExpr : Nat → Expr → Calc Operand
  | 0, _ => throw tooDeep
  | levels + 1, e => deeper (evaluateNode (evaluateExpr levels) e)

/-- Runs an instruction, with so many levels left. -/
def runInstruction (levels : Nat) (i : Instruction) : Calc Unit := do
  match i with
  | .noop => pure ()
  | .truth b => Calc.pushOperand (Operand.truth b)
  | .number v unit => Calc.pushOperand ⟨v, unit⟩
  | .list items =>
    Calc.pushValue (← Calc.lift (Value.ofItems (← get).settings.style.precision items))
  | .matrix rows => Calc.pushValue (.matrix (← Calc.lift (Value.matrixOfRows rows)))
  | .time t => Calc.pushValue (.time t)
  | .reference name => Calc.pushValue (.symbolic (.reference name))
  | .symbolic e => Calc.pushValue (.symbolic e)
  | .keyword name => runName (evaluateExpr levels) name
  | .program body =>
    match levels with
    | 0 => throw tooDeep
    | levels + 1 => deeper (inScope (body.forM (runInstruction levels)))

end Evaluator
end StackCalc
