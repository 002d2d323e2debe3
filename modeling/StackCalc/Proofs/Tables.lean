import StackCalc.Proofs.Determinant

/-! # Matrices as tables of numbers

A square matrix of exact cells stands for a table of rational numbers, and the product of two of
them stands for the product of the tables. A table is stored in one way only: a matrix with reduced
cells is known by its table. -/

/-- A square table of rational numbers. -/
abbrev RatTable (n : Nat) : Type := Matrix (Fin n) (Fin n) Rat

namespace StackCalc

/-! ## 1. Numbers and rows -/

/-- A number has one reduced form. -/
theorem Scalar.Denotes.unique {x y : Scalar} {a : Rat} (hx : x.Denotes a) (hy : y.Denotes a)
    (reducedX : x.reduce = x) (reducedY : y.reduce = y) : x = y := by
  have same : (Value.scalar x).reduce = (Value.scalar y).reduce :=
    hx.reduce_eq.trans hy.reduce_eq.symm
  rw [← reducedX, ← reducedY]
  exact Value.scalar.inj same

/-- Computations that all succeed give a list of as many results. -/
theorem exists_mapM {α β : Type} (as : List α) {f : α → Except Error β} {P : Nat → β → Prop}
    (h : ∀ i (hi : i < as.length), ∃ b, f as[i] = .ok b ∧ P i b) :
    ∃ bs, as.mapM f = .ok bs ∧ bs.length = as.length ∧ ∀ i (hi : i < bs.length), P i bs[i] := by
  induction as generalizing P with
  | nil => exact ⟨[], rfl, rfl, fun i hi => absurd hi (Nat.not_lt_zero i)⟩
  | cons a as ih =>
    obtain ⟨b, hb, first⟩ := h 0 (Nat.succ_pos _)
    obtain ⟨bs, hbs, length, rest⟩ :=
      ih (P := fun i => P (i + 1)) fun i hi => h (i + 1) (Nat.succ_lt_succ hi)
    refine ⟨b :: bs, ?_, congrArg (· + 1) length, fun i hi => ?_⟩
    · rw [List.mapM_cons, show f a = .ok b from hb, ok_bind, hbs]
      rfl
    · cases i with
      | zero => exact first
      | succ i => exact rest i (Nat.lt_of_succ_lt_succ hi)

namespace Matrix

variable {n : Nat}

theorem rowNumber_of_lt {r : List Scalar} {j : Nat} (h : j < r.length) :
    rowNumber r j = r[j].number := by
  rw [rowNumber, cellAt, List.getD_eq_getElem _ _ h]

theorem entry_of_lt {rows : List (List Scalar)} {i : Nat} (h : i < rows.length) (j : Nat) :
    entry rows i j = rowNumber rows[i] j := by
  rw [entry, List.getD_eq_getElem _ _ h]

/-- The product of two rows is the sum of the products of their numbers. -/
theorem dot_spec (digits : Nat) {r s : List Scalar} (hr : ExactRow n r) (hs : ExactRow n s) :
    ∃ z, dot digits r s = .ok z ∧ z.Denotes (∑ k : Fin n, rowNumber r k * rowNumber s k) := by
  have run : ∀ {n : Nat} {r s : List Scalar}, ExactRow n r → ExactRow n s →
      ∀ {acc : Scalar} {a : Rat}, acc.Denotes a →
      ∃ z, (r.zip s).foldlM (fun acc p => do acc.add digits (← p.1.mul digits p.2)) acc = .ok z ∧
        z.Denotes (a + ∑ k : Fin n, rowNumber r k * rowNumber s k) := by
    intro n
    induction n with
    | zero =>
      intro r s hr hs acc a hacc
      cases List.eq_nil_of_length_eq_zero hr.length
      exact ⟨acc, rfl, by simpa using hacc⟩
    | succ n ih =>
      intro r s hr hs acc a hacc
      obtain ⟨x, r, rfl⟩ := List.exists_cons_of_length_eq_add_one hr.length
      obtain ⟨y, s, rfl⟩ := List.exists_cons_of_length_eq_add_one hs.length
      obtain ⟨hx, hr⟩ := ExactRow.cons_iff.mp hr
      obtain ⟨hy, hs⟩ := ExactRow.cons_iff.mp hs
      obtain ⟨p, hp, product⟩ :=
        (Scalar.denotes_number hx).mul (d := digits) (Scalar.denotes_number hy)
      obtain ⟨acc', hacc', sum⟩ := hacc.add (d := digits) product
      obtain ⟨z, hz, total⟩ := ih hr hs sum
      refine ⟨z, ?_, ?_⟩
      · rw [List.zip_cons_cons, List.foldlM_cons, hp, ok_bind, hacc', ok_bind]
        exact hz
      · rw [Fin.sum_univ_succ, ← add_assoc]
        exact total
  obtain ⟨z, hz, total⟩ := run hr hs (.integer 0)
  exact ⟨z, hz, by simpa using total⟩

/-! ## 2. Tables -/

/-- The numbers in the first rows and columns of some rows. -/
def table (n : Nat) (rows : List (List Scalar)) : RatTable n := Matrix.of fun i j => entry rows i j

theorem determinant_eq (rows : List (List Scalar)) : determinant n rows = (table n rows).det := rfl

/-- A square matrix of exact cells with the numbers of a table. -/
structure Tabulates (m : Matrix) (A : RatTable n) : Prop where
  square : ExactSquare n m.rows
  numbers : table n m.rows = A

/-- Every cell is in reduced form. -/
def Reduced (m : Matrix) : Prop := ∀ c ∈ m.cells, c.reduce = c

/-- A square matrix of exact cells has a table. -/
theorem tabulates_of_exact {m : Matrix} (square : m.cols = m.height)
    (exact : ∀ c ∈ m.cells, c.kind.isExact) : m.Tabulates (table m.height m.rows) := by
  refine ⟨⟨rfl, fun r hr => ⟨?_, fun c hc => exact c (List.mem_flatten.mpr ⟨r, hr, hc⟩)⟩⟩, rfl⟩
  rw [m.rectangular.2.2 r hr, square]

variable {m k : Matrix} {A B : RatTable n}

namespace Tabulates

theorem height (h : m.Tabulates A) : m.height = n := h.square.length

theorem exact (h : m.Tabulates A) (c : Scalar) (hc : c ∈ m.cells) : c.kind.isExact := by
  obtain ⟨r, hr, hc⟩ := List.mem_flatten.mp hc
  exact (h.square.rows r hr).exact c hc

theorem pos (h : m.Tabulates A) : 0 < n := by
  rw [← h.height]
  exact List.length_pos_iff.mpr m.rectangular.1

theorem cols (h : m.Tabulates A) : m.cols = n := by
  obtain ⟨r, hr⟩ := List.exists_mem_of_ne_nil m.rows m.rectangular.1
  exact (m.rectangular.2.2 r hr).symm.trans (h.square.rows r hr).length

theorem entry (h : m.Tabulates A) (i j : Fin n) : Matrix.entry m.rows i j = A i j :=
  congrFun (congrFun h.numbers i) j

/-- Every number of the table is in a cell. -/
theorem exists_cell (h : m.Tabulates A) (i j : Fin n) : ∃ c ∈ m.cells, c.number = A i j := by
  have hi : (i : Nat) < m.rows.length := h.square.length.symm ▸ i.isLt
  have hrow := h.square.rows _ (List.getElem_mem hi)
  have hj : (j : Nat) < m.rows[(i : Nat)].length := hrow.length.symm ▸ j.isLt
  refine ⟨m.rows[(i : Nat)][(j : Nat)],
    List.mem_flatten.mpr ⟨_, List.getElem_mem hi, List.getElem_mem hj⟩, ?_⟩
  rw [← rowNumber_of_lt hj, ← entry_of_lt hi, h.entry]

/-- Every cell has a number of the table. -/
theorem exists_entry (h : m.Tabulates A) {c : Scalar} (hc : c ∈ m.cells) :
    ∃ i j, c.number = A i j := by
  obtain ⟨r, hr, hc⟩ := List.mem_flatten.mp hc
  obtain ⟨i, hi, rfl⟩ := List.getElem_of_mem hr
  obtain ⟨j, hj, rfl⟩ := List.getElem_of_mem hc
  have hrow := h.square.rows _ (List.getElem_mem hi)
  refine ⟨⟨i, h.square.length ▸ hi⟩, ⟨j, hrow.length ▸ hj⟩, ?_⟩
  rw [← rowNumber_of_lt hj, ← entry_of_lt hi, ← h.entry]

/-- Two matrices with the same table and reduced cells are the same. -/
theorem unique (hm : m.Tabulates A) (hk : k.Tabulates A) (reducedM : m.Reduced)
    (reducedK : k.Reduced) : m = k := by
  have rows : m.rows = k.rows := by
    refine List.ext_getElem (hm.square.length.trans hk.square.length.symm) fun i hi hi' => ?_
    have hrow := hm.square.rows _ (List.getElem_mem hi)
    have hrow' := hk.square.rows _ (List.getElem_mem hi')
    refine List.ext_getElem (hrow.length.trans hrow'.length.symm) fun j hj hj' => ?_
    have first : i < n := hm.square.length ▸ hi
    have second : j < n := hrow.length ▸ hj
    have same := (hm.entry ⟨i, first⟩ ⟨j, second⟩).trans (hk.entry ⟨i, first⟩ ⟨j, second⟩).symm
    rw [entry_of_lt hi, entry_of_lt hi', rowNumber_of_lt hj, rowNumber_of_lt hj'] at same
    have denotes := Scalar.denotes_number (hrow.exact _ (List.getElem_mem hj))
    have denotes' := Scalar.denotes_number (hrow'.exact _ (List.getElem_mem hj'))
    rw [same] at denotes
    exact denotes.unique denotes'
      (reducedM _ (List.mem_flatten.mpr ⟨_, List.getElem_mem hi, List.getElem_mem hj⟩))
      (reducedK _ (List.mem_flatten.mpr ⟨_, List.getElem_mem hi', List.getElem_mem hj'⟩))
  obtain ⟨cols, rows, _⟩ := m
  obtain ⟨cols', rows', _⟩ := k
  cases hm.cols.trans hk.cols.symm
  cases rows
  rfl

end Tabulates

/-- Rows as long as there are columns make a matrix. -/
theorem ofRows_square {rows : List (List Scalar)} (pos : 0 < n) (square : ExactSquare n rows) :
    ∃ m, ofRows rows = .ok m ∧ m.rows = rows := by
  have some : rows ≠ [] := List.ne_nil_of_length_pos (square.length ▸ pos)
  obtain ⟨r, rest, rfl⟩ := List.exists_cons_of_ne_nil some
  have head : r.length = n := (square.rows r List.mem_cons_self).length
  have rectangular : Rectangular r.length (r :: rest) :=
    ⟨some, head ▸ pos, fun s hs => (square.rows s hs).length.trans head.symm⟩
  exact ⟨⟨r.length, r :: rest, rectangular⟩, dif_pos rectangular, rfl⟩

/-! ## 3. Products -/

section
variable (digits : Nat) {rows : List (List Scalar)} {r : List Scalar}

/-- The cells in a column of exact rows. -/
theorem column_spec (square : ExactSquare n rows) (j : Nat) :
    ExactRow n (rows.map (cellAt j)) ∧
      ∀ i, rowNumber (rows.map (cellAt j)) i = entry rows i j := by
  refine ⟨⟨(List.length_map _).trans square.length, ?_⟩, fun i => ?_⟩
  · intro c hc
    obtain ⟨r, hr, rfl⟩ := List.mem_map.mp hc
    exact ((square.rows r hr).denotes_cellAt j).isExact
  · rw [rowNumber, cellAt, entry, List.getD_eq_getElem?_getD, List.getD_eq_getElem?_getD,
      List.getElem?_map]
    cases rows[i]? <;> rfl

/-- A row times the columns of some rows. -/
theorem row_mul (hr : ExactRow n r) (square : ExactSquare n rows) :
    ∃ s, ((List.range n).map fun j => rows.map (cellAt j)).mapM (dot digits r) = .ok s ∧
      ExactRow n s ∧ (∀ c ∈ s, c.reduce = c) ∧
      ∀ j : Fin n, rowNumber s j = ∑ k : Fin n, rowNumber r k * entry rows k j := by
  obtain ⟨s, hs, length, cells⟩ := exists_mapM
    ((List.range n).map fun j => rows.map (cellAt j)) (f := dot digits r)
    (P := fun j z => z.reduce = z ∧
      z.Denotes (∑ k : Fin n, rowNumber r k * entry rows k j)) fun j hj => by
    obtain ⟨column, numbers⟩ := column_spec square j
    obtain ⟨z, hz, denotes⟩ := dot_spec digits hr column
    simp only [numbers] at denotes
    exact ⟨z, by simpa using hz, reduced_dot z hz, denotes⟩
  have length : s.length = n := by simpa using length
  refine ⟨s, hs, ⟨length, fun c hc => ?_⟩, fun c hc => ?_, fun j => ?_⟩
  · obtain ⟨j, hj, rfl⟩ := List.getElem_of_mem hc
    exact (cells j hj).2.isExact
  · obtain ⟨j, hj, rfl⟩ := List.getElem_of_mem hc
    exact (cells j hj).1
  · have hj : (j : Nat) < s.length := length.symm ▸ j.isLt
    rw [rowNumber_of_lt hj]
    exact (cells j hj).2.number_eq

end

/-- The product of two matrices has the product of their tables, and its cells are reduced. -/
theorem Tabulates.mul (digits : Nat) (hm : m.Tabulates A) (hk : k.Tabulates B) :
    ∃ p, m.mul digits k = .ok p ∧ p.Tabulates (A * B) ∧ p.Reduced := by
  obtain ⟨rows, hrows, length, products⟩ := exists_mapM m.rows
    (f := fun r => ((List.range n).map fun j => k.rows.map (cellAt j)).mapM (dot digits r))
    (P := fun i s => ExactRow n s ∧ (∀ c ∈ s, c.reduce = c) ∧ ∀ j : Fin n,
      rowNumber s j = ∑ l : Fin n, Matrix.entry m.rows i l * Matrix.entry k.rows l j)
    fun i hi => by
      simp only [entry_of_lt hi]
      exact row_mul digits (hm.square.rows _ (List.getElem_mem hi)) hk.square
  have square : ExactSquare n rows := by
    refine ⟨length.trans hm.square.length, fun s hs => ?_⟩
    obtain ⟨i, hi, rfl⟩ := List.getElem_of_mem hs
    exact (products i hi).1
  obtain ⟨p, hp, rfl⟩ := ofRows_square hm.pos square
  have chained : m.cols = k.height := hm.cols.trans hk.height.symm
  refine ⟨p, ?_, ⟨square, ?_⟩, fun c hc => ?_⟩
  · rw [Matrix.mul, if_neg (not_not_intro chained)]
    show (m.rows.mapM fun r => ((List.range k.cols).map fun j => k.rows.map (cellAt j)).mapM
      (dot digits r)) >>= ofRows = _
    rw [hk.cols, hrows]
    exact hp
  · ext i j
    have hi : (i : Nat) < p.rows.length := square.length.symm ▸ i.isLt
    rw [Matrix.mul_apply]
    show Matrix.entry p.rows i j = _
    rw [entry_of_lt hi, (products i hi).2.2 j]
    exact Finset.sum_congr rfl fun l _ => by rw [hm.entry, hk.entry]
  · obtain ⟨s, hs, hc⟩ := List.mem_flatten.mp hc
    obtain ⟨i, hi, rfl⟩ := List.getElem_of_mem hs
    exact (products i hi).2.1 c hc

/-! ## 4. The identity -/

theorem identity_square (n : Nat) : ExactSquare n (identityRows n) := by
  refine ⟨by simp [identityRows], fun r hr => ?_⟩
  obtain ⟨i, _, rfl⟩ := List.mem_map.mp hr
  refine ⟨by simp, fun c hc => ?_⟩
  obtain ⟨j, _, rfl⟩ := List.mem_map.mp hc
  rfl

theorem identity_table (n : Nat) : table n (identityRows n) = 1 := by
  ext i j
  show entry (identityRows n) i j = _
  have hi : (i : Nat) < (identityRows n).length := by simp [identityRows]
  rw [entry_of_lt hi, rowNumber_of_lt (by simp [identityRows])]
  simp only [identityRows, List.getElem_map, List.getElem_range, Matrix.one_apply, Fin.ext_iff]
  split <;> rfl

theorem identity_spec (pos : 0 < n) :
    ∃ unit, identity n = .ok unit ∧ unit.Tabulates (1 : RatTable n) ∧ unit.Reduced := by
  obtain ⟨unit, hunit, rows⟩ := ofRows_square pos (identity_square n)
  refine ⟨unit, hunit, ⟨rows ▸ identity_square n, rows ▸ identity_table n⟩, fun c hc => ?_⟩
  rw [cells, rows] at hc
  obtain ⟨r, hr, hc⟩ := List.mem_flatten.mp hc
  obtain ⟨i, _, rfl⟩ := List.mem_map.mp hr
  obtain ⟨j, _, rfl⟩ := List.mem_map.mp hc
  rfl

end Matrix
end StackCalc
