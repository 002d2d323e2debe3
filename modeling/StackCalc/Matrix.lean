import StackCalc.Scalar.Arithmetic

/-!
Rectangular matrices of scalars, by rows. A matrix has at least one row and one column and all its
rows are equally long; the type holds the proofs. Elimination works on the rows as lists: the
pivot of a step is the first row whose leading cell is not zero, it trades places with the first
of the remaining rows, and the leading column is dropped once it is cleared.
-/

namespace StackCalc

def Rectangular (cols : Nat) (rows : List (List Scalar)) : Prop :=
  rows ≠ [] ∧ 0 < cols ∧ ∀ r ∈ rows, r.length = cols

structure Matrix where
  cols : Nat
  rows : List (List Scalar)
  rectangular : Rectangular cols rows

namespace Matrix

instance {cols : Nat} {rows : List (List Scalar)} : Decidable (Rectangular cols rows) :=
  inferInstanceAs (Decidable (_ ∧ _ ∧ _))

def height (m : Matrix) : Nat := m.rows.length

/-- All cells, row after row. -/
def cells (m : Matrix) : List Scalar := m.rows.flatten

def firstKind (m : Matrix) : Kind := (m.cells.head?.map Scalar.kind).getD .integer

def isSquare (m : Matrix) : Bool := m.height = m.cols

/-- The matrix of the given rows, if they are some, not empty, and equally long. -/
def ofRows (rows : List (List Scalar)) : Except Error Matrix :=
  let cols := (rows.head?.map List.length).getD 0
  if h : Rectangular cols rows then .ok ⟨cols, rows, h⟩
  else if rows.any fun r => r.length ≠ cols then .error (.invalidArgument .raggedRows)
  else .error (.invalidArgument .emptyMatrix)

/-- Cuts a list into pieces of `n`. -/
def chunks (n : Nat) : Nat → List Scalar → List (List Scalar)
  | 0, _ => []
  | k + 1, cs => cs.take n :: chunks n k (cs.drop n)

/-- The matrix of the given shape with the given cells, row after row. -/
def ofCells (rows cols : Nat) (cells : List Scalar) : Except Error Matrix :=
  if rows = 0 ∨ cols = 0 then .error (.invalidArgument .emptyMatrix)
  else if cells.length ≠ rows * cols then
    .error (.invalidArgument (.cellCount rows cols cells.length))
  else ofRows (chunks cols rows cells)

def identityRows (n : Nat) : List (List Scalar) :=
  (List.range n).map fun i => (List.range n).map fun j => .integer (if i = j then 1 else 0)

def identity (n : Nat) : Except Error Matrix := ofRows (identityRows n)

def map (f : Scalar → Scalar) (m : Matrix) : Matrix :=
  ⟨m.cols, m.rows.map fun r => r.map f, by
    obtain ⟨hr, hc, hl⟩ := m.rectangular
    refine ⟨by simpa using hr, hc, fun r h => ?_⟩
    obtain ⟨s, hs, rfl⟩ := List.mem_map.mp h
    simpa using hl s hs⟩

/-- Whether every cell is zero. -/
def isZero (m : Matrix) : Bool := m.cells.all Scalar.isZero

/-- Whether two matrices have one shape and the same cells, whatever their precisions. -/
def same (m n : Matrix) : Bool :=
  m.cols = n.cols && m.height = n.height && (m.cells.zip n.cells).all fun p => p.1.same p.2

/-- Applies a function that may fail to every cell, row after row. -/
def mapM (f : Scalar → Except Error Scalar) (m : Matrix) : Except Error Matrix := do
  ofRows (← m.rows.mapM fun r => r.mapM f)

/-- The cell in column `j` of a row. -/
def cellAt (j : Nat) (r : List Scalar) : Scalar := r.getD j (.integer 0)

def transpose (m : Matrix) : Matrix :=
  ⟨m.height, (List.range m.cols).map fun j => m.rows.map (cellAt j), by
    obtain ⟨hr, hc, _⟩ := m.rectangular
    refine ⟨?_, List.length_pos_iff.mpr hr, fun r h => ?_⟩
    · intro h
      have := congrArg List.length h
      simp at this
      omega
    · obtain ⟨j, _, rfl⟩ := List.mem_map.mp h
      simp [height]⟩

def zipRow (f : Scalar → Scalar → Except Error Scalar) (r s : List Scalar) :
    Except Error (List Scalar) :=
  (r.zip s).mapM fun p => f p.1 p.2

/-- Combines the cells of two matrices of one shape. -/
def zipWith (f : Scalar → Scalar → Except Error Scalar) (m n : Matrix) : Except Error Matrix := do
  if m.height ≠ n.height ∨ m.cols ≠ n.cols then
    throw (.invalidArgument (.shapesDiffer m.height m.cols n.height n.cols))
  ofRows (← (m.rows.zip n.rows).mapM fun p => zipRow f p.1 p.2)

def add (digits : Nat) (m n : Matrix) : Except Error Matrix := zipWith (Scalar.add digits) m n

def sub (digits : Nat) (m n : Matrix) : Except Error Matrix := zipWith (Scalar.sub digits) m n

def neg (m : Matrix) : Matrix := m.map Scalar.neg

/-- The sum of the products of two rows, from the integer zero. -/
def dot (digits : Nat) (r s : List Scalar) : Except Error Scalar :=
  (r.zip s).foldlM (fun acc p => do acc.add digits (← p.1.mul digits p.2)) (.integer 0)

def mul (digits : Nat) (m n : Matrix) : Except Error Matrix := do
  if m.cols ≠ n.height then
    throw (.invalidArgument (.shapesDoNotChain m.height m.cols n.height n.cols))
  let columns := n.transpose.rows
  ofRows (← m.rows.mapM fun r => columns.mapM (dot digits r))

def scale (digits : Nat) (x : Scalar) (m : Matrix) : Except Error Matrix :=
  m.mapM (x.mul digits)

def divScalar (digits : Nat) (m : Matrix) (x : Scalar) : Except Error Matrix :=
  m.mapM fun c => c.div digits x

def requireSquare (op : String) (m : Matrix) : Except Error Unit :=
  if m.isSquare then .ok () else .error (.invalidArgument (.notSquare op m.height m.cols))

/-- Whether the leading cell of a row is zero. -/
def leadZero (r : List Scalar) : Bool := (cellAt 0 r).isZero

/-- The first row with a leading cell other than zero, and the rest in which it has traded places
with the first row. The flag tells whether it was the first itself. -/
def pivot? : List (List Scalar) → Option (Bool × List Scalar × List (List Scalar))
  | [] => none
  | r :: rows =>
    if !leadZero r then some (true, r, rows)
    else
      match rows.span leadZero with
      | (_, []) => none
      | (before, p :: after) => some (false, p, before ++ r :: after)

/-- Takes `factor` times the row `p` from the row `r`. -/
def cancel (digits : Nat) (factor : Scalar) (r p : List Scalar) : Except Error (List Scalar) :=
  zipRow (fun a b => do a.sub digits (← factor.mul digits b)) r p

/-- Clears the leading cell of a row by the pivot row `p`, and drops it. -/
def clearLead (digits : Nat) (p r : List Scalar) : Except Error (List Scalar) := do
  let factor ← (cellAt 0 r).div digits (cellAt 0 p)
  if factor.isZero then return r.tail
  return (← cancel digits factor r p).tail

/-- The determinant of the remaining `n` rows times `acc`. Each step turns the sign if rows traded
places and multiplies by the pivot. -/
def detRows (digits : Nat) : Nat → Scalar → List (List Scalar) → Except Error Scalar
  | 0, acc, _ => .ok acc
  | n + 1, acc, rows =>
    match pivot? rows with
    | none => .ok (.integer 0)
    | some (first, p, rest) => do
      let acc ← (if first then acc else acc.neg).mul digits (cellAt 0 p)
      detRows digits n acc (← rest.mapM (clearLead digits p))

def det (digits : Nat) (m : Matrix) : Except Error Scalar := do
  m.requireSquare "det"
  detRows digits m.height (.integer 1) m.rows

/-- Clears the leading cell of a row by a pivot row `p` with leading cell one, and drops it. -/
def clearUnit (digits : Nat) (p r : List Scalar) : Except Error (List Scalar) := do
  let factor := cellAt 0 r
  if factor.isZero then return r.tail
  return (← cancel digits factor r p).tail

/-- Clears the leading columns of the remaining rows, which are `todo` after the finished rows
`done`, so that the columns that are left belong to the inverse. -/
def invertRows (digits : Nat) :
    Nat → List (List Scalar) → List (List Scalar) → Except Error (List (List Scalar))
  | 0, done, _ => .ok done
  | n + 1, done, todo =>
    match pivot? todo with
    | none => .error (.domain .singularMatrix)
    | some (_, p, rest) => do
      let p ← p.mapM fun c => c.div digits (cellAt 0 p)
      let done ← done.mapM (clearUnit digits p)
      let rest ← rest.mapM (clearUnit digits p)
      invertRows digits n (done ++ [p.tail]) rest

/-- The inverse of a square matrix: the rows of the matrix and of the identity side by side are
reduced until the identity is on the left. -/
def inverse (digits : Nat) (m : Matrix) : Except Error Matrix := do
  m.requireSquare "inv"
  let rows := (m.rows.zip (identityRows m.height)).map fun p => p.1 ++ p.2
  ofRows (← invertRows digits m.height [] rows)

/-- The bits of the longest cell, if all are exact. -/
def exactBits? (m : Matrix) : Option Nat :=
  m.cells.foldlM (fun widest c => c.exactBits?.map (max widest)) 0

/-- The power of a square matrix to an integer. Negative exponents invert the matrix first. Each
product may lengthen a cell by the bits of the dimension. -/
def pow (digits : Nat) (m : Matrix) (e : Int) : Except Error Matrix := do
  m.requireSquare "^"
  let base ← if e < 0 then m.inverse digits else pure m
  if Scalar.exponentBound ≤ e.natAbs then throw (.domain .exponentTooLarge)
  if let some bits := base.exactBits? then
    Scalar.checkPowSize "^" (bits + Scalar.natBits m.height) e.natAbs
  Scalar.powLoop (mul digits) (← identity m.height) base e.natAbs

end Matrix
end StackCalc
