import Mathlib.Data.List.GetD
import Mathlib.Data.List.TakeWhile
import Mathlib.LinearAlgebra.Matrix.Determinant.Basic
import StackCalc.Proofs.Rational
import StackCalc.Proofs.Settled

/-! # Determinants

Elimination on exact cells computes the determinant: rows that trade places turn its sign, clearing
the column below a pivot leaves it as it is, and a cleared column splits the pivot off. -/

namespace StackCalc

/-! ## 1. Tables of numbers -/

section
variable {n : Nat} {A : Fin (n + 1) → Fin (n + 1) → Rat}

/-- Of a first column that is zero but for its first number, only that number counts. -/
theorem det_of_cleared (cleared : ∀ i : Fin n, A i.succ 0 = 0) :
    (Matrix.of A).det = A 0 0 * (Matrix.of fun i j : Fin n => A i.succ j.succ).det := by
  rw [Matrix.det_succ_column_zero, Fin.sum_univ_succ]
  have others : ∑ i : Fin n, (-1) ^ (i.succ : Nat) * Matrix.of A i.succ 0 *
      ((Matrix.of A).submatrix i.succ.succAbove Fin.succ).det = 0 :=
    Finset.sum_eq_zero fun i _ => by rw [Matrix.of_apply, cleared i, mul_zero, zero_mul]
  rw [others, add_zero]
  simp only [Fin.val_zero, pow_zero, one_mul, Matrix.of_apply, Fin.succAbove_zero]
  rfl

/-- Multiples of the first row clear the column below a pivot. What is left is the pivot times the
determinant of the other rows and columns. -/
theorem det_clear (pivot : A 0 0 ≠ 0) : (Matrix.of A).det = A 0 0 *
    (Matrix.of fun i j : Fin n => A i.succ j.succ - A i.succ 0 / A 0 0 * A 0 j.succ).det := by
  let factor : Fin (n + 1) → Rat := Fin.cons 0 fun i => A i.succ 0 / A 0 0
  let B : Fin (n + 1) → Fin (n + 1) → Rat := fun i j => A i j - factor i * A 0 j
  have first (j) : B 0 j = A 0 j := by simp [B, factor]
  have cleared (i : Fin n) : B i.succ 0 = 0 := by simp [B, factor, pivot]
  have same : (Matrix.of A).det = (Matrix.of B).det :=
    Matrix.det_eq_of_forall_row_eq_smul_add_const factor 0 rfl fun i j => by
      simp [B, factor]
  rw [same, det_of_cleared cleared, first]
  rfl

end

/-! ## 2. Exact rows -/

namespace Scalar

/-- The number that an exact scalar stands for. -/
def number (x : Scalar) : Rat := x.toRat?.getD 0

theorem denotes_number {x : Scalar} (h : x.kind.isExact) : x.Denotes x.number := by
  cases x with
  | integer n => exact .integer n
  | rational q => exact .rational q
  | float | complex => cases h

theorem Denotes.number_eq {x : Scalar} {a : Rat} (h : x.Denotes a) : x.number = a := by
  cases h <;> rfl

theorem Denotes.isExact {x : Scalar} {a : Rat} (h : x.Denotes a) : x.kind.isExact := by
  cases h <;> rfl

end Scalar

namespace Matrix

/-- A row of so many cells, all of them exact. -/
structure ExactRow (n : Nat) (r : List Scalar) : Prop where
  length : r.length = n
  exact : ∀ c ∈ r, c.kind.isExact

/-- The number in a column of a row. -/
def rowNumber (r : List Scalar) (j : Nat) : Rat := (cellAt j r).number

@[simp]
theorem rowNumber_nil (j : Nat) : rowNumber [] j = 0 := rfl

@[simp]
theorem rowNumber_cons_zero (c : Scalar) (r : List Scalar) : rowNumber (c :: r) 0 = c.number := rfl

@[simp]
theorem rowNumber_cons_succ (c : Scalar) (r : List Scalar) (j : Nat) :
    rowNumber (c :: r) (j + 1) = rowNumber r j := rfl

theorem rowNumber_tail (r : List Scalar) (j : Nat) : rowNumber r.tail j = rowNumber r (j + 1) := by
  cases r <;> rfl

namespace ExactRow

variable {n : Nat} {r p : List Scalar} {c : Scalar}

theorem cons_iff : ExactRow (n + 1) (c :: r) ↔ c.kind.isExact ∧ ExactRow n r := by
  constructor
  · rintro ⟨length, exact⟩
    obtain ⟨hc, hr⟩ := List.forall_mem_cons.mp exact
    exact ⟨hc, Nat.succ.inj length, hr⟩
  · rintro ⟨hc, length, hr⟩
    exact ⟨congrArg (· + 1) length, List.forall_mem_cons.mpr ⟨hc, hr⟩⟩

theorem tail (h : ExactRow (n + 1) r) : ExactRow n r.tail := by
  cases r with
  | nil => cases h.length
  | cons c r => exact (cons_iff.mp h).2

/-- Cells outside of a row are zero. -/
theorem denotes_cellAt (h : ExactRow n r) (j : Nat) : (cellAt j r).Denotes (rowNumber r j) := by
  unfold rowNumber cellAt
  rw [List.getD_eq_getElem?_getD]
  cases hc : r[j]? with
  | none => exact .integer 0
  | some c => exact Scalar.denotes_number (h.exact c (List.mem_of_getElem? hc))

end ExactRow

/-! ## 3. Clearing a row -/

section
variable (digits : Nat) {n : Nat} {factor : Scalar} {f : Rat}

theorem cancel_cons (factor a b : Scalar) (r p : List Scalar) :
    cancel digits factor (a :: r) (b :: p) = do
      let c ← a.sub digits (← factor.mul digits b)
      return c :: (← cancel digits factor r p) := by
  simp only [cancel, zipRow, List.zip_cons_cons, List.mapM_cons, bind_assoc]

/-- A multiple of a row is taken from another row. -/
theorem cancel_spec (hf : factor.Denotes f) {r p : List Scalar} (hr : ExactRow n r)
    (hp : ExactRow n p) : ∃ s, cancel digits factor r p = .ok s ∧ ExactRow n s ∧
      ∀ j, rowNumber s j = rowNumber r j - f * rowNumber p j := by
  induction r generalizing n p with
  | nil =>
    cases hr.length
    cases List.eq_nil_of_length_eq_zero hp.length
    exact ⟨[], rfl, hr, fun j => by simp⟩
  | cons a r ih =>
    cases p with
    | nil => cases hp.length.trans hr.length.symm
    | cons b p =>
      cases hr.length
      obtain ⟨ha, hr⟩ := ExactRow.cons_iff.mp hr
      obtain ⟨hb, hp⟩ := ExactRow.cons_iff.mp hp
      obtain ⟨s, hs, row, numbers⟩ := ih hr hp
      obtain ⟨d, hd, denotes⟩ := hf.mul (d := digits) (Scalar.denotes_number hb)
      obtain ⟨c, hc, denotes⟩ := (Scalar.denotes_number ha).sub (d := digits) denotes
      refine ⟨c :: s, ?_, ExactRow.cons_iff.mpr ⟨denotes.isExact, row⟩, fun j => ?_⟩
      · rw [cancel_cons, hd, ok_bind, hc, ok_bind, hs]
        rfl
      · cases j with
        | zero => exact denotes.number_eq
        | succ j => exact numbers j

/-- A row is cleared by a pivot row. -/
theorem clearLead_spec {r p : List Scalar} (hr : ExactRow (n + 1) r) (hp : ExactRow (n + 1) p)
    (pivot : rowNumber p 0 ≠ 0) : ∃ s, clearLead digits p r = .ok s ∧ ExactRow n s ∧
      ∀ j, rowNumber s j =
        rowNumber r (j + 1) - rowNumber r 0 / rowNumber p 0 * rowNumber p (j + 1) := by
  obtain ⟨factor, hfactor, denotes⟩ :=
    (hr.denotes_cellAt 0).div (d := digits) (hp.denotes_cellAt 0) pivot
  unfold clearLead
  rw [hfactor, ok_bind, denotes.isZero]
  by_cases zero : rowNumber r 0 / rowNumber p 0 = 0
  · refine ⟨r.tail, if_pos (decide_eq_true zero), hr.tail, fun j => ?_⟩
    rw [zero, rowNumber_tail, zero_mul, sub_zero]
  · obtain ⟨s, hs, row, numbers⟩ := cancel_spec digits denotes hr hp
    refine ⟨s.tail, ?_, row.tail, fun j => ?_⟩
    · rw [if_neg (by simpa using zero), hs]
      rfl
    · rw [rowNumber_tail, numbers]

end

/-! ## 4. Elimination -/

/-- Lists that differ in one place. -/
theorem getD_append_cons {α : Type} (before after : List α) (x y d : α) {k : Nat}
    (hk : k ≠ before.length) :
    (before ++ x :: after).getD k d = (before ++ y :: after).getD k d := by
  rcases Nat.lt_or_gt_of_ne hk with inside | outside
  · rw [List.getD_append _ _ _ _ inside, List.getD_append _ _ _ _ inside]
  · obtain ⟨i, rfl⟩ := Nat.exists_eq_add_of_lt outside
    rw [List.getD_append_right _ _ _ _ (by omega), List.getD_append_right _ _ _ _ (by omega),
      show before.length + i + 1 - before.length = i + 1 by omega]
    rfl

/-- Rows that trade places: the first one and one after some others. -/
theorem getD_swap {α : Type} (before after : List α) (r p d : α) {n : Nat} {first other : Fin n}
    (hfirst : (first : Nat) = 0) (hother : (other : Nat) = before.length + 1) (i : Fin n) :
    (p :: before ++ r :: after).getD i d =
      (r :: before ++ p :: after).getD (Equiv.swap first other i) d := by
  have at_other (x y : α) : (x :: before ++ y :: after).getD (before.length + 1) d = y := by
    simp
  rcases eq_or_ne i first with rfl | hi
  · rw [Equiv.swap_apply_left, hfirst, hother, at_other]
    rfl
  rcases eq_or_ne i other with rfl | hj
  · rw [Equiv.swap_apply_right, hfirst, hother, at_other]
    rfl
  · rw [Equiv.swap_apply_of_ne_of_ne hi hj]
    obtain ⟨k, hk⟩ := Nat.exists_eq_succ_of_ne_zero fun h => hi (Fin.ext (h.trans hfirst.symm))
    rw [hk]
    refine getD_append_cons before after r p d fun h => hj (Fin.ext ?_)
    omega

/-- The number in a row and a column of some rows. -/
def entry (rows : List (List Scalar)) (i j : Nat) : Rat := rowNumber (rows.getD i []) j

/-- The determinant of the numbers in the first `n` rows and columns. -/
def determinant (n : Nat) (rows : List (List Scalar)) : Rat :=
  (Matrix.of fun i j : Fin n => entry rows i j).det

section
variable {n : Nat} {rows before after : List (List Scalar)} {r p : List Scalar}

theorem mapM_clearLead (digits : Nat) (hp : ExactRow (n + 1) p) (pivot : rowNumber p 0 ≠ 0)
    (hrows : ∀ r ∈ rows, ExactRow (n + 1) r) :
    ∃ rest, rows.mapM (clearLead digits p) = .ok rest ∧ rest.length = rows.length ∧
      (∀ s ∈ rest, ExactRow n s) ∧ ∀ i j, entry rest i j =
        entry rows i (j + 1) - entry rows i 0 / rowNumber p 0 * rowNumber p (j + 1) := by
  induction rows with
  | nil => exact ⟨[], rfl, rfl, List.forall_mem_nil _, fun i j => by simp [entry]⟩
  | cons r rows ih =>
    obtain ⟨hr, hrows⟩ := List.forall_mem_cons.mp hrows
    obtain ⟨rest, hrest, length, exact, numbers⟩ := ih hrows
    obtain ⟨s, hs, row, cleared⟩ := clearLead_spec digits hr hp pivot
    refine ⟨s :: rest, ?_, congrArg (· + 1) length, List.forall_mem_cons.mpr ⟨row, exact⟩, ?_⟩
    · rw [List.mapM_cons, hs, ok_bind, hrest]
      rfl
    · intro i j
      cases i with
      | zero => exact cleared j
      | succ i => exact numbers i j

/-- The pivot times the determinant of the rows that it has cleared is that of all rows. -/
theorem determinant_cons (pivot : rowNumber p 0 ≠ 0) {rest : List (List Scalar)}
    (numbers : ∀ i j, entry rest i j =
      entry rows i (j + 1) - entry rows i 0 / rowNumber p 0 * rowNumber p (j + 1)) :
    determinant (n + 1) (p :: rows) = rowNumber p 0 * determinant n rest := by
  refine (det_clear (A := fun i j => entry (p :: rows) i j) pivot).trans ?_
  unfold determinant
  simp only [numbers]
  rfl

/-- Two rows that trade places turn the sign. -/
theorem determinant_swap (hn : (r :: before ++ p :: after).length = n) :
    determinant n (p :: before ++ r :: after) = -determinant n (r :: before ++ p :: after) := by
  have other_lt : before.length + 1 < n := by
    simp only [← hn, List.cons_append, List.length_cons, List.length_append]
    omega
  let first : Fin n := ⟨0, by omega⟩
  let other : Fin n := ⟨before.length + 1, other_lt⟩
  have apart : first ≠ other := fun h => nomatch congrArg Fin.val h
  have swapped := Matrix.det_permute (Equiv.swap first other)
    (Matrix.of fun i j : Fin n => entry (r :: before ++ p :: after) i j)
  rw [Equiv.Perm.sign_swap apart, Units.val_neg, Units.val_one, Int.cast_neg, Int.cast_one,
    neg_one_mul] at swapped
  refine Eq.trans (congrArg (fun A => (Matrix.of A).det) ?_) swapped
  funext i j
  exact congrArg (rowNumber · j) (getD_swap before after r p [] rfl rfl i)

/-- Without a pivot the determinant is zero. -/
theorem determinant_of_leadZero (h : ∀ r ∈ rows, rowNumber r 0 = 0) :
    determinant (n + 1) rows = 0 := by
  refine Matrix.det_eq_zero_of_column_eq_zero 0 fun i => ?_
  show rowNumber (rows.getD i []) 0 = 0
  rw [List.getD_eq_getElem?_getD]
  cases hr : rows[(i : Nat)]? with
  | none => rfl
  | some r => exact h r (List.mem_of_getElem? hr)

end

/-! ## 5. Pivots -/

/-- What the search for a pivot finds: none if all leading cells are zero, the first row, or a later
row that trades places with the first. -/
inductive Pivoted : List (List Scalar) → Option (Bool × List Scalar × List (List Scalar)) → Prop
  | none {rows : List (List Scalar)} (h : ∀ r ∈ rows, leadZero r) : Pivoted rows none
  | first {p : List Scalar} (h : ¬ leadZero p) (rest : List (List Scalar)) :
      Pivoted (p :: rest) (some (true, p, rest))
  | later {p : List Scalar} (h : ¬ leadZero p) (r : List Scalar)
      (before after : List (List Scalar)) :
      Pivoted (r :: before ++ p :: after) (some (false, p, before ++ r :: after))

theorem pivoted (rows : List (List Scalar)) : Pivoted rows (pivot? rows) := by
  cases rows with
  | nil => exact .none (List.forall_mem_nil _)
  | cons r rows =>
    by_cases lead : leadZero r
    · cases found : rows.dropWhile leadZero with
      | nil =>
        have none : pivot? (r :: rows) = none := by simp [pivot?, lead, found]
        rw [none]
        exact .none (List.forall_mem_cons.mpr ⟨lead, List.dropWhile_eq_nil_iff.mp found⟩)
      | cons p after =>
        have later : pivot? (r :: rows) =
            some (false, p, rows.takeWhile leadZero ++ r :: after) := by
          simp [pivot?, lead, found]
        have whole : rows = rows.takeWhile leadZero ++ p :: after := by
          rw [← found, List.takeWhile_append_dropWhile]
        have hp : ¬ leadZero p := by
          have head := List.head_dropWhile_not (p := leadZero) (l := rows) (by simp [found])
          simpa [found] using head
        rw [later]
        nth_rewrite 1 [whole]
        exact .later hp r (rows.takeWhile leadZero) after
    · have found : pivot? (r :: rows) = some (true, r, rows) := by simp [pivot?, lead]
      rw [found]
      exact .first lead rows

section
variable (digits : Nat)

/-- Rows with exact cells, as many as there are columns. -/
structure ExactSquare (n : Nat) (rows : List (List Scalar)) : Prop where
  length : rows.length = n
  rows : ∀ r ∈ rows, ExactRow n r

theorem perm_swap {α : Type} (before after : List α) (r p : α) :
    (r :: before ++ p :: after).Perm (p :: before ++ r :: after) :=
  (List.perm_middle.cons r).trans ((List.Perm.swap p r _).trans (List.perm_middle.symm.cons p))

theorem ExactSquare.perm {n : Nat} {rows others : List (List Scalar)} (h : ExactSquare n rows)
    (same : rows.Perm others) : ExactSquare n others :=
  ⟨same.length_eq.symm.trans h.length, fun r hr => h.rows r (same.mem_iff.mpr hr)⟩

theorem ExactRow.leadZero_iff {n : Nat} {r : List Scalar} (h : ExactRow n r) :
    leadZero r ↔ rowNumber r 0 = 0 := by
  rw [leadZero, (h.denotes_cellAt 0).isZero, decide_eq_true_iff]

/-- Elimination on `n` rows multiplies by their determinant, and what it returns is reduced. -/
def Eliminates (n : Nat) : Prop :=
  ∀ (acc : Scalar) (a : Rat) (rows : List (List Scalar)), acc.Denotes a → acc.reduce = acc →
    ExactSquare n rows → ∃ z, detRows digits n acc rows = .ok z ∧
      z.Denotes (a * determinant n rows) ∧ z.reduce = z

/-- A step with the pivot in front of the other rows. -/
theorem Eliminates.step {n : Nat} (eliminates : Eliminates digits n) {acc : Scalar} {a : Rat}
    {p : List Scalar} {rest : List (List Scalar)} (hacc : acc.Denotes a)
    (square : ExactSquare (n + 1) (p :: rest)) (pivot : rowNumber p 0 ≠ 0) :
    ∃ z, (acc.mul digits (cellAt 0 p) >>= fun acc => rest.mapM (clearLead digits p) >>= fun rest =>
        detRows digits n acc rest) = .ok z ∧
      z.Denotes (a * determinant (n + 1) (p :: rest)) ∧ z.reduce = z := by
  obtain ⟨hp, hrest⟩ := List.forall_mem_cons.mp square.rows
  obtain ⟨product, hproduct, denotes⟩ := hacc.mul (d := digits) (hp.denotes_cellAt 0)
  have reduced : product.reduce = product := Scalar.reduced_mul product hproduct
  obtain ⟨cleared, hcleared, length, exact, numbers⟩ := mapM_clearLead digits hp pivot hrest
  have smaller : ExactSquare n cleared := ⟨length.trans (Nat.succ.inj square.length), exact⟩
  rw [hproduct, ok_bind, hcleared, ok_bind, determinant_cons pivot numbers, ← mul_assoc]
  exact eliminates _ _ _ denotes reduced smaller

theorem eliminates : ∀ n : Nat, Eliminates digits n
  | 0 => by
    intro acc a rows hacc reduced _
    refine ⟨acc, rfl, ?_, reduced⟩
    rw [determinant, Matrix.det_isEmpty, mul_one]
    exact hacc
  | n + 1 => by
    intro acc a rows hacc reduced square
    have found := pivoted rows
    unfold detRows
    generalize pivot? rows = pivot at found ⊢
    cases found with
    | none zeros =>
      have zero : determinant (n + 1) rows = 0 :=
        determinant_of_leadZero fun r hr => (square.rows r hr).leadZero_iff.mp (zeros r hr)
      refine ⟨.integer 0, rfl, ?_, rfl⟩
      rw [zero, mul_zero]
      exact .integer 0
    | @first p lead rest =>
      have pivot := mt (square.rows p List.mem_cons_self).leadZero_iff.mpr lead
      exact (eliminates n).step digits hacc square pivot
    | @later p lead r before after =>
      have swapped : ExactSquare (n + 1) (p :: (before ++ r :: after)) :=
        square.perm (perm_swap before after r p)
      have pivot := mt (swapped.rows p List.mem_cons_self).leadZero_iff.mpr lead
      have turned : determinant (n + 1) (p :: before ++ r :: after) =
          -determinant (n + 1) (r :: before ++ p :: after) := determinant_swap square.length
      obtain ⟨z, hz, denotes, reduced⟩ := (eliminates n).step digits hacc.neg swapped pivot
      rw [← List.cons_append, turned, neg_mul_neg] at denotes
      exact ⟨z, hz, denotes, reduced⟩

end

/-! ## 6. The determinant of a matrix -/

/-- The number in a row and a column of a matrix. -/
def number (m : Matrix) (i j : Nat) : Rat := entry m.rows i j

/-- The determinant of a square matrix of exact cells is the sum over all permutations of the signed
products, in the one form that this number is stored in. Other matrices than square ones are
refused, whatever their cells are. -/
theorem det_eq_leibniz (digits : Nat) (m : Matrix) :
    (m.cols ≠ m.height →
      m.det digits = .error (.invalidArgument (.notSquare "det" m.height m.cols))) ∧
    (m.cols = m.height → (∀ c ∈ m.cells, c.kind.isExact) →
      (m.det digits).map Value.scalar = .ok (.ofRat (∑ σ : Equiv.Perm (Fin m.height),
        (Equiv.Perm.sign σ : Int) * ∏ i : Fin m.height, m.number (σ i) i))) := by
  constructor
  · intro h
    have refused : m.requireSquare "det" =
        .error (.invalidArgument (.notSquare "det" m.height m.cols)) :=
      if_neg (by simpa [isSquare] using Ne.symm h)
    rw [det, refused]
    rfl
  · intro h exact
    have accepted : m.requireSquare "det" = .ok () := if_pos (by simp [isSquare, h])
    have square : ExactSquare m.height m.rows := by
      refine ⟨rfl, fun r hr => ⟨?_, fun c hc => exact c (List.mem_flatten.mpr ⟨r, hr, hc⟩)⟩⟩
      rw [m.rectangular.2.2 r hr, h]
    obtain ⟨z, hz, denotes, reduced⟩ :=
      eliminates digits m.height (.integer 1) 1 m.rows (.integer 1) rfl square
    have leibniz := Matrix.det_apply' (Matrix.of fun i j : Fin m.height => m.number i j)
    have stored : Value.scalar z = .ofRat (1 * determinant m.height m.rows) := by
      rw [← denotes.reduce_eq]
      exact congrArg Value.scalar reduced.symm
    rw [det, accepted, ok_bind, hz]
    show Except.ok (Value.scalar z) = _
    rw [stored, one_mul]
    exact congrArg (fun q => Except.ok (Value.ofRat q)) leibniz

/-- A matrix whose first pivot is in the second row. -/
def swapping : Matrix where
  cols := 2
  rows := [[.integer 0, .rational (1 / 2)], [.integer 3, .integer 4]]
  rectangular := by decide

/-- Rows trade places on the way, and the product is a fraction. -/
theorem det_swapping : (∀ c ∈ swapping.cells, c.kind.isExact) ∧
    (swapping.det 0).map Value.scalar = .ok (.ofRat (∑ σ : Equiv.Perm (Fin 2),
      (Equiv.Perm.sign σ : Int) * ∏ i : Fin 2, swapping.number (σ i) i)) ∧
    (swapping.det 0).toOption.map Scalar.number = some (-3 / 2) := by
  have exact : ∀ c ∈ swapping.cells, c.kind.isExact := by decide
  exact ⟨exact, (det_eq_leibniz 0 swapping).2 rfl exact, by decide +kernel⟩

end Matrix
end StackCalc
