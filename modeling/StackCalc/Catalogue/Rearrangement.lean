import StackCalc.Operation

/-!
Rearrangement of the stack. Entries move with their units and their display, and the flags follow
the new top entry.
-/

namespace StackCalc.Catalogue

/-- The level on top of the stack. As many entries lie below it. -/
def level (op : String) : Calc Nat := do
  let n ← Calc.lift ((← Calc.top).value.toIndex "level")
  if n = 0 then throw (.stack (.levelZero op))
  let needed ← Calc.lift (Word.nat64.hold (n + 1))
  Calc.requireArgs op needed.toNat
  return n

/-- Takes a level off the stack and rearranges the rest by it. -/
def byLevel (op : String) (f : Nat → Stack → Except StackFault Stack) : Calc Unit := do
  let n ← level op
  Calc.rearrange fun s => do f n (← s.drop)

def duplicate : Operation where
  name := "dup"
  arity := 1
  results := 2
  help := ⟨"Duplicate top of stack", "( a -- a a )", "1 dup", ["drop", "over"]⟩
  action := .primitive (Calc.rearrange Stack.dup)

def dropTop : Operation where
  name := "drop"
  arity := 1
  results := 0
  help := ⟨"Remove top of stack", "( a -- )", "1 2 drop", ["dup", "clear"]⟩
  action := .primitive (Calc.rearrange Stack.drop)

def swapTop : Operation where
  name := "swap"
  arity := 2
  results := 2
  help := ⟨"Exchange the top two entries", "( a b -- b a )", "1 2 swap", ["rot", "roll"]⟩
  action := .primitive (Calc.rearrange Stack.swap)

def copySecond : Operation where
  name := "over"
  arity := 2
  results := 3
  help := ⟨"Copy the second entry to the top", "( a b -- a b a )", "1 2 over", ["dup", "pick"]⟩
  action := .primitive (Calc.rearrange Stack.copySecond)

def rotateThree : Operation where
  name := "rot"
  arity := 3
  results := 3
  help := ⟨"Move the third entry to the top", "( a b c -- b c a )", "1 2 3 rot", ["swap", "roll"]⟩
  action := .primitive (Calc.rearrange Stack.rot)

def pick : Operation where
  name := "pick"
  arity := -2
  results := -1
  help := ⟨"Copy the entry at level n to the top (1 pick = dup)",
    "( xn ... x1 n -- xn ... x1 xn )", "10 20 30 3 pick", ["over", "roll"]⟩
  action := .primitive (byLevel "pick" Stack.pick)

def roll : Operation where
  name := "roll"
  arity := -2
  results := -1
  help := ⟨"Move the entry at level n to the top",
    "( xn ... x1 n -- xn-1 ... x1 xn )", "10 20 30 3 roll", ["rot", "pick"]⟩
  action := .primitive (byLevel "roll" Stack.roll)

def depth : Operation where
  name := "depth"
  arity := 0
  results := 1
  help := ⟨"Number of entries on the stack", "( -- n )", "1 2 depth", ["clear"]⟩
  action := .primitive (do Calc.pushValue (.integer (← get).stack.size))

def clearAll : Operation where
  name := "clear"
  arity := 0
  results := 0
  help := ⟨"Remove every entry", "( ... -- )", "1 2 3 clear", ["drop", "undo"]⟩
  action := .primitive (Calc.rearrange fun s => .ok s.clear)

def undo : Operation where
  name := "undo"
  arity := 0
  results := 0
  help := ⟨"Restore the stack as it was before the last change", "( -- )", "1 2 + undo", ["clear"]⟩
  recorded := false
  action := .primitive (Calc.undo)

def rearrangements : List Operation :=
  [duplicate, dropTop, swapTop, copySecond, rotateThree, pick, roll, depth, clearAll, undo]

end StackCalc.Catalogue
