import StackCalc.Entry

/-!
The undo history: snapshots of the whole stack, the latest first. A depth other than zero bounds
their number, and the oldest ones go first.
-/

namespace StackCalc

structure History where
  snapshots : List (List Entry) := []
  depth : Nat := 0

namespace History

def size (h : History) : Nat := h.snapshots.length

/-- Keeps as many of the latest snapshots as the depth allows. -/
def truncate (h : History) : History :=
  if h.depth = 0 then h else { h with snapshots := h.snapshots.take h.depth }

/-- The history with another depth. -/
def withDepth (depth : Nat) (h : History) : History := truncate { h with depth }

def push (snapshot : List Entry) (h : History) : History :=
  truncate { h with snapshots := snapshot :: h.snapshots }

/-- Takes the latest snapshot. -/
def pop? (h : History) : Option (List Entry × History) :=
  match h.snapshots with
  | s :: r => some (s, { h with snapshots := r })
  | [] => none

def clear (h : History) : History := { h with snapshots := [] }

end History
end StackCalc
