import StackCalc.Entry

/-!
The evaluation stack: entries with the top at the head, and a limit on their number. Levels count
from the top. An operation that fails has no result, so there is nothing to undo.
-/

namespace StackCalc

structure Stack where
  entries : List Entry := []
  limit : Option Nat := none

namespace Stack

def size (s : Stack) : Nat := s.entries.length

/-- The stack with other entries and the same limit. -/
def withEntries (s : Stack) (entries : List Entry) : Stack := { s with entries }

/-- Requires that the limit holds after `remove` entries are replaced by `add` others. -/
def requireRoom (s : Stack) (remove add : Nat) : Except StackFault Unit :=
  match s.limit with
  | some limit => if limit < s.size - remove + add then .error (.overflow limit) else .ok ()
  | none => .ok ()

def push (e : Entry) (s : Stack) : Except StackFault Stack := do
  s.requireRoom 0 1
  return s.withEntries (e :: s.entries)

def pop (s : Stack) : Except StackFault (Entry × Stack) :=
  match s.entries with
  | e :: es => .ok (e, s.withEntries es)
  | [] => .error .underflow

/-- Takes the top `n` entries off, the top one first. -/
def popMany (n : Nat) (s : Stack) : Except StackFault (List Entry × Stack) :=
  if s.size < n then .error .underflow
  else .ok (s.entries.take n, s.withEntries (s.entries.drop n))

/-- The entry below `depth` others. -/
def peek (depth : Nat) (s : Stack) : Except StackFault Entry :=
  match s.entries[depth]? with
  | some e => .ok e
  | none => .error (.noSuchLevel depth)

def clear (s : Stack) : Stack := s.withEntries []

def dup (s : Stack) : Except StackFault Stack :=
  match s.entries with
  | e :: _ => s.push e
  | [] => .error .underflow

def drop (s : Stack) : Except StackFault Stack :=
  match s.entries with
  | _ :: es => .ok (s.withEntries es)
  | [] => .error .underflow

def swap (s : Stack) : Except StackFault Stack :=
  match s.entries with
  | a :: b :: es => .ok (s.withEntries (b :: a :: es))
  | _ => .error .underflow

def rot (s : Stack) : Except StackFault Stack :=
  match s.entries with
  | a :: b :: c :: es => .ok (s.withEntries (c :: a :: b :: es))
  | _ => .error .underflow

def copySecond (s : Stack) : Except StackFault Stack :=
  match s.entries with
  | _ :: b :: _ => s.push b
  | _ => .error .underflow

/-- The entry at a level, which counts from one. -/
def level? (n : Nat) (s : Stack) : Option Entry :=
  if n = 0 then none else s.entries[n - 1]?

def pick (n : Nat) (s : Stack) : Except StackFault Stack :=
  match s.level? n with
  | some e => s.push e
  | none => .error (.noSuchLevel n)

def roll (n : Nat) (s : Stack) : Except StackFault Stack :=
  match s.level? n with
  | some e => .ok (s.withEntries (e :: s.entries.eraseIdx (n - 1)))
  | none => .error (.noSuchLevel n)

end Stack
end StackCalc
