import StackCalc.Machine

/-!
Operations that can be called by name. Most of them are steps of the machine; the ones that call
others by name are told apart by their action, and the evaluator carries them out.
-/

namespace StackCalc

/-- The help texts of an operation: what it does, its effect on the stack, a sample of its use, and
related operations. -/
structure Help where
  brief : String
  effect : String
  sample : String
  seeAlso : List String
deriving DecidableEq, Repr

/-- What an operation does. -/
inductive Action where
  /-- A step of the machine. -/
  | primitive (run : Calc Unit)
  /-- Evaluate the expression on top of the stack. -/
  | evaluate
  /-- Store an entry under a name that no operation has. -/
  | assign
  /-- Call the name on top of the stack. -/
  | call

/-- A named operation. A negative arity or number of results means that it varies; the absolute
arity is the least number of operands. An operation that is not recorded leaves no snapshot in the
undo history. -/
structure Operation where
  name : String
  aliases : List String := []
  arity : Int
  results : Int
  help : Help
  recorded : Bool := true
  action : Action

namespace Operation

def minArgs (op : Operation) : Nat := op.arity.natAbs

def helpLine (op : Operation) : String :=
  op.name ++ " " ++ op.help.effect ++ "  " ++ op.help.brief

end Operation
end StackCalc
