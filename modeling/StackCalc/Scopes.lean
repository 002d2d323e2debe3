import StackCalc.Entry

/-!
Variable scopes: a global frame and above it the frames of the programs that are running. A name
is looked up from the innermost frame outwards, and an assignment goes to the frame that already
binds it, or else to the innermost one.
-/

namespace StackCalc

/-- The bindings of one scope. A name occurs at most once. -/
structure Frame where
  bindings : List (String × Entry) := []

namespace Frame

def get? (name : String) (f : Frame) : Option Entry := f.bindings.lookup name

def binds (name : String) (f : Frame) : Bool := (f.get? name).isSome

def erase (name : String) (f : Frame) : Frame := ⟨f.bindings.filter fun b => b.1 ≠ name⟩

def bind (name : String) (e : Entry) (f : Frame) : Frame := ⟨(name, e) :: (f.erase name).bindings⟩

end Frame

/-- The frames of the running programs, innermost first, and the global frame. -/
structure Scopes where
  locals : List Frame := []
  globals : Frame := {}

namespace Scopes

def depth (s : Scopes) : Nat := s.locals.length + 1

def enter (s : Scopes) : Scopes := { s with locals := {} :: s.locals }

/-- Closes the innermost scope, unless that is the global one. -/
def exit? (s : Scopes) : Option Scopes :=
  match s.locals with
  | _ :: fs => some { s with locals := fs }
  | [] => none

/-- Closes the innermost scope and keeps the global one. -/
def leave (s : Scopes) : Scopes := s.exit?.getD s

def get? (name : String) (s : Scopes) : Option Entry :=
  (s.locals ++ [s.globals]).findSome? (Frame.get? name)

/-- Changes the first frame that binds a name, if one does. -/
def changeBinding (name : String) (f : Frame → Frame) : List Frame → Option (List Frame)
  | [] => none
  | g :: gs => if g.binds name then some (f g :: gs) else (changeBinding name f gs).map (g :: ·)

/-- Binds a name in the innermost frame. -/
def bindInnermost (name : String) (e : Entry) (s : Scopes) : Scopes :=
  match s.locals with
  | f :: fs => { s with locals := f.bind name e :: fs }
  | [] => { s with globals := s.globals.bind name e }

def set (name : String) (e : Entry) (s : Scopes) : Scopes :=
  match changeBinding name (Frame.bind name e) s.locals with
  | some fs => { s with locals := fs }
  | none =>
    if s.globals.binds name then { s with globals := s.globals.bind name e }
    else s.bindInnermost name e

/-- Removes the innermost binding of a name. -/
def unset (name : String) (s : Scopes) : Scopes :=
  match changeBinding name (Frame.erase name) s.locals with
  | some fs => { s with locals := fs }
  | none => { s with globals := s.globals.erase name }

end Scopes
end StackCalc
