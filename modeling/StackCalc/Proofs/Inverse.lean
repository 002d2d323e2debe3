import Mathlib.Algebra.BigOperators.Field
import Mathlib.LinearAlgebra.Matrix.NonsingularInverse
import StackCalc.Proofs.Tables

/-! # Inverses

The rows of a matrix stand beside those of the identity, and both are reduced together. In every
row the numbers on the right say which combination of the rows of the matrix stands on the left.
Clearing a column keeps that, so when the identity stands on the left, the inverse is on the right.
The search for a pivot fails exactly if the determinant is zero. -/

namespace StackCalc

namespace Scalar

variable {digits : Nat} {x y : Scalar}

theorem reduced_sub : Yields (fun z => z.reduce = z) (sub digits x y) := by
  refine yields_bind.mpr fun pair _ => ?_
  cases pair with
  | integers a b => exact yields_pure.mpr rfl
  | rationals a b => exact yields_pure.mpr (reduce_reduce _)
  | floats a b | complexes a b => exact yields_bind.mpr fun _ _ => yields_pure.mpr rfl

theorem reduced_div : Yields (fun z => z.reduce = z) (div digits x y) := by
  refine yields_bind.mpr fun pair _ => ?_
  cases pair with
  | integers a b | rationals a b =>
    dsimp only
    split
    · exact yields_throw
    · exact yields_pure.mpr (reduce_reduce _)
  | floats a b | complexes a b => exact yields_bind.mpr fun _ _ => yields_pure.mpr rfl

end Scalar

namespace Matrix

/-! ## 1. Row operations -/

section
variable (digits : Nat) {n : Nat} {r p : List Scalar}

/-- A row is divided by a number. -/
theorem divide_spec {d : Scalar} {q : Rat} (hd : d.Denotes q) (nonzero : q ≠ 0)
    (hr : ExactRow n r) : ∃ s, (r.mapM fun c => c.div digits d) = .ok s ∧ ExactRow n s ∧
      (∀ c ∈ s, c.reduce = c) ∧ ∀ j, rowNumber s j = rowNumber r j / q := by
  induction r generalizing n with
  | nil => exact ⟨[], rfl, hr, List.forall_mem_nil _, fun j => by simp⟩
  | cons a r ih =>
    cases hr.length
    obtain ⟨ha, hr⟩ := ExactRow.cons_iff.mp hr
    obtain ⟨s, hs, row, reduced, numbers⟩ := ih hr
    obtain ⟨c, hc, denotes⟩ := (Scalar.denotes_number ha).div (d := digits) hd nonzero
    refine ⟨c :: s, ?_, ExactRow.cons_iff.mpr ⟨denotes.isExact, row⟩,
      List.forall_mem_cons.mpr ⟨Scalar.reduced_div c hc, reduced⟩, fun j => ?_⟩
    · rw [List.mapM_cons, hc, ok_bind, hs]
      rfl
    · cases j with
      | zero => exact denotes.number_eq
      | succ j => exact numbers j

theorem reduced_cancel {factor : Scalar} :
    Yields (fun s => ∀ c ∈ s, c.reduce = c) (cancel digits factor r p) := by
  intro s hs c hc
  obtain ⟨pair, _, run⟩ := (Value.mapM_eq_ok hs).1 c hc
  exact (yields_bind.mpr fun _ _ => Scalar.reduced_sub) c run

/-- A row is cleared by a pivot row with leading cell one. -/
theorem clearUnit_spec (hr : ExactRow (n + 1) r) (hp : ExactRow (n + 1) p) :
    ∃ s, clearUnit digits p r = .ok s ∧ ExactRow n s ∧
      ((∀ c ∈ r, c.reduce = c) → ∀ c ∈ s, c.reduce = c) ∧
      ∀ j, rowNumber s j = rowNumber r (j + 1) - rowNumber r 0 * rowNumber p (j + 1) := by
  have lead := hr.denotes_cellAt 0
  unfold clearUnit
  dsimp only
  rw [lead.isZero]
  by_cases zero : rowNumber r 0 = 0
  · refine ⟨r.tail, if_pos (decide_eq_true zero), hr.tail,
      fun reduced c hc => reduced c (List.mem_of_mem_tail hc), fun j => ?_⟩
    rw [zero, rowNumber_tail, zero_mul, sub_zero]
  · obtain ⟨s, hs, row, numbers⟩ := cancel_spec digits lead hr hp
    refine ⟨s.tail, ?_, row.tail,
      fun _ c hc => reduced_cancel digits s hs c (List.mem_of_mem_tail hc), fun j => ?_⟩
    · rw [if_neg (by simpa using zero), hs]
      rfl
    · rw [rowNumber_tail, numbers]

end

/-! ## 2. Rows that combine the rows of a table -/

/-- A row of which the first `k` columns are dropped and `n` are left before the last `w` ones. The
last ones combine the rows of the table `A`: the combination has the numbers `left` in the columns
that are dropped, and those of the row in the others. -/
structure Balanced {w : Nat} (A : RatTable w) (k n : Nat) (left : Nat → Rat)
    (r : List Scalar) : Prop where
  row : ExactRow (n + w) r
  combined : ∀ j : Fin w, ∑ t : Fin w, rowNumber r (n + t) * A t j =
    if (j : Nat) < k then left j else rowNumber r (j - k)

/-- The numbers of a row of the identity. -/
def unitNumbers (i j : Nat) : Rat := if i = j then 1 else 0

namespace Balanced

variable {w k n : Nat} {A : RatTable w} {left : Nat → Rat} {r p : List Scalar} (digits : Nat)

/-- A pivot row is divided by its pivot. -/
theorem divide (hp : Balanced A k (n + 1) (fun _ => 0) p) (pivot : rowNumber p 0 ≠ 0) :
    ∃ q, (p.mapM fun c => c.div digits (cellAt 0 p)) = .ok q ∧
      Balanced A k (n + 1) (fun _ => 0) q ∧ (∀ c ∈ q, c.reduce = c) ∧
      ∀ j, rowNumber q j = rowNumber p j / rowNumber p 0 := by
  obtain ⟨q, hq, row, reduced, numbers⟩ :=
    divide_spec digits (hp.row.denotes_cellAt 0) pivot hp.row
  refine ⟨q, hq, ⟨row, fun j => ?_⟩, reduced, numbers⟩
  simp only [numbers, div_mul_eq_mul_div, ← Finset.sum_div, hp.combined j]
  split
  · exact zero_div _
  · rfl

/-- A pivot row has a one in the column that is dropped next. -/
theorem tail (hp : Balanced A k (n + 1) (fun _ => 0) p) (unit : rowNumber p 0 = 1) :
    Balanced A (k + 1) n (unitNumbers k) p.tail := by
  have row : ExactRow (n + w + 1) p := Nat.add_right_comm n 1 w ▸ hp.row
  refine ⟨row.tail, fun j => ?_⟩
  have combined := hp.combined j
  simp only [rowNumber_tail, unitNumbers, Nat.add_right_comm n 1] at combined ⊢
  rw [combined]
  rcases Nat.lt_trichotomy j k with before | here | after
  · rw [if_pos before, if_pos (by omega), if_neg (by omega)]
  · rw [if_neg (by omega), if_pos (by omega), if_pos here.symm, here, Nat.sub_self, unit]
  · rw [if_neg (by omega), if_neg (by omega), show (j : Nat) - (k + 1) + 1 = j - k by omega]

/-- A row is cleared by a pivot row, and keeps the numbers that it has on the left. -/
theorem clear (hr : Balanced A k (n + 1) left r) (hp : Balanced A k (n + 1) (fun _ => 0) p)
    (unit : rowNumber p 0 = 1) (next : left k = 0) :
    ∃ s, clearUnit digits p r = .ok s ∧ Balanced A (k + 1) n left s ∧
      ((∀ c ∈ r, c.reduce = c) → ∀ c ∈ s, c.reduce = c) ∧
      ∀ j, rowNumber s j = rowNumber r (j + 1) - rowNumber r 0 * rowNumber p (j + 1) := by
  obtain ⟨s, hs, row, reduced, numbers⟩ := clearUnit_spec digits (n := n + w)
    (Nat.add_right_comm n 1 w ▸ hr.row) (Nat.add_right_comm n 1 w ▸ hp.row)
  refine ⟨s, hs, ⟨row, fun j => ?_⟩, reduced, numbers⟩
  have ofRow := hr.combined j
  have ofPivot := hp.combined j
  simp only [Nat.add_right_comm n 1] at ofRow ofPivot
  simp only [numbers, sub_mul, mul_assoc, Finset.sum_sub_distrib, ← Finset.mul_sum, ofRow, ofPivot]
  rcases Nat.lt_trichotomy j k with before | here | after
  · rw [if_pos before, if_pos before, if_pos (by omega), mul_zero, sub_zero]
  · rw [if_neg (by omega), if_neg (by omega), if_pos (by omega), here, Nat.sub_self, unit, next,
      mul_one, sub_self]
  · rw [if_neg (by omega), if_neg (by omega), if_neg (by omega),
      show (j : Nat) - (k + 1) + 1 = j - k by omega]

end Balanced

/-! ## 3. Steps of the reduction -/

/-- A step of the reduction: of `w` columns of a table, `n` are left to clear. The rows that are
done have the rows of the identity in the other columns, and the rows to do have zeros there. -/
structure Reducing {w : Nat} (A : RatTable w) (n : Nat) (done todo : List (List Scalar)) :
    Prop where
  width : done.length + n = w
  height : todo.length = n
  finished : ∀ i (h : i < done.length),
    Balanced A done.length n (unitNumbers i) done[i] ∧ ∀ c ∈ done[i], c.reduce = c
  pending : ∀ r ∈ todo, Balanced A done.length n (fun _ => 0) r

section
variable {w n : Nat} {A : RatTable w} {done todo rest : List (List Scalar)} {p : List Scalar}

theorem Reducing.perm (h : Reducing A n done todo) (same : todo.Perm rest) :
    Reducing A n done rest :=
  ⟨h.width, same.length_eq ▸ h.height, h.finished, fun r hr => h.pending r (same.mem_iff.mpr hr)⟩

/-- A step with the pivot in front of the other rows. -/
theorem Reducing.step (digits : Nat) (h : Reducing A (n + 1) done (p :: rest))
    (pivot : rowNumber p 0 ≠ 0) : ∃ q done' rest',
      (p.mapM fun c => c.div digits (cellAt 0 p)) = .ok q ∧
      done.mapM (clearUnit digits q) = .ok done' ∧ rest.mapM (clearUnit digits q) = .ok rest' ∧
      Reducing A n (done' ++ [q.tail]) rest' ∧
      determinant (n + 1) (p :: rest) = rowNumber p 0 * determinant n rest' := by
  obtain ⟨hp, hrest⟩ := List.forall_mem_cons.mp h.pending
  obtain ⟨q, divided, hq, reduced, numbers⟩ := hp.divide digits pivot
  have unit : rowNumber q 0 = 1 := by rw [numbers, div_self pivot]
  -- The rows that are done have their ones in other columns than the next.
  obtain ⟨done', hdone', lengthDone, finished⟩ := exists_mapM done
    (f := clearUnit digits q) (P := fun i s => Balanced A (done.length + 1) n (unitNumbers i) s ∧
      ∀ c ∈ s, c.reduce = c) fun i hi => by
    obtain ⟨hr, reduced⟩ := h.finished i hi
    obtain ⟨s, hs, balanced, keeps, _⟩ := hr.clear digits hq unit (if_neg hi.ne)
    exact ⟨s, hs, balanced, keeps reduced⟩
  obtain ⟨rest', hrest', lengthRest, pending⟩ := exists_mapM rest
    (f := clearUnit digits q) (P := fun i s => Balanced A (done.length + 1) n (fun _ => 0) s ∧
      ∀ j, rowNumber s j = entry rest i (j + 1) -
        entry rest i 0 / rowNumber p 0 * rowNumber p (j + 1)) fun i hi => by
    obtain ⟨s, hs, balanced, _, cleared⟩ :=
      (hrest _ (List.getElem_mem hi)).clear digits hq unit rfl
    refine ⟨s, hs, balanced, fun j => ?_⟩
    rw [cleared, numbers, entry_of_lt hi, entry_of_lt hi, div_mul_eq_mul_div, mul_div_assoc]
  refine ⟨q, done', rest', divided, hdone', hrest', ?_, determinant_cons pivot fun i j => ?_⟩
  · have length : (done' ++ [q.tail]).length = done.length + 1 := by simp [lengthDone]
    refine ⟨?_, lengthRest.trans (Nat.succ.inj h.height), fun i hi => ?_, fun r hr => ?_⟩
    · rw [length, ← h.width]
      omega
    · rw [length]
      rcases Nat.lt_or_ge i done'.length with before | last
      · rw [List.getElem_append_left before]
        exact finished i before
      · have last : i = done'.length := by omega
        subst last
        rw [List.getElem_concat_length rfl, lengthDone]
        exact ⟨hq.tail unit, fun c hc => reduced c (List.mem_of_mem_tail hc)⟩
    · obtain ⟨i, hi, rfl⟩ := List.getElem_of_mem hr
      rw [length]
      exact (pending i hi).1
  · rcases Nat.lt_or_ge i rest'.length with inside | outside
    · rw [entry_of_lt inside]
      exact (pending i inside).2 j
    · simp [entry, lengthRest ▸ outside, outside]

end

/-- The reduction of `n` columns fails if the determinant of what is left to do is zero, and comes
to its end if not. -/
def Inverts (digits : Nat) {w : Nat} (A : RatTable w) (n : Nat) : Prop :=
  ∀ done todo : List (List Scalar), Reducing A n done todo →
    (determinant n todo = 0 → invertRows digits n done todo = .error (.domain .singularMatrix)) ∧
    (determinant n todo ≠ 0 → ∃ rows, invertRows digits n done todo = .ok rows ∧
      Reducing A 0 rows [])

section
variable {digits w n : Nat} {A : RatTable w}

/-- A step from a pivot that is found. Its rows have traded places at most, so their determinant
is that of all rows up to a factor that is not zero. -/
theorem Inverts.step (inverts : Inverts digits A n) {done todo rest : List (List Scalar)}
    {p : List Scalar} {first : Bool} {f : Rat} (h : Reducing A (n + 1) done (p :: rest))
    (lead : ¬ leadZero p) (found : pivot? todo = some (first, p, rest)) (hf : f ≠ 0)
    (same : determinant (n + 1) todo = f * determinant (n + 1) (p :: rest)) :
    (determinant (n + 1) todo = 0 →
      invertRows digits (n + 1) done todo = .error (.domain .singularMatrix)) ∧
    (determinant (n + 1) todo ≠ 0 → ∃ rows,
      invertRows digits (n + 1) done todo = .ok rows ∧ Reducing A 0 rows []) := by
  have pivot := mt (h.pending p List.mem_cons_self).row.leadZero_iff.mpr lead
  obtain ⟨q, done', rest', hq, hdone', hrest', next, split⟩ := h.step digits pivot
  have run : invertRows digits (n + 1) done todo =
      invertRows digits n (done' ++ [q.tail]) rest' := by
    rw [invertRows, found]
    dsimp only
    rw [hq, ok_bind, hdone', ok_bind, hrest', ok_bind]
  obtain ⟨singular, regular⟩ := inverts _ _ next
  rw [run, same, split, ← mul_assoc]
  exact ⟨fun zero => singular ((mul_eq_zero.mp zero).resolve_left (mul_ne_zero hf pivot)),
    fun nonzero => regular (right_ne_zero_of_mul nonzero)⟩

theorem inverts (digits : Nat) : ∀ n : Nat, Inverts digits A n
  | 0 => by
    intro done todo h
    have one : determinant 0 todo = 1 := Matrix.det_isEmpty
    cases List.eq_nil_of_length_eq_zero h.height
    exact ⟨fun zero => absurd (one.symm.trans zero) one_ne_zero, fun _ => ⟨done, rfl, h⟩⟩
  | n + 1 => by
    intro done todo h
    have found := pivoted todo
    generalize hpivot : pivot? todo = pivot at found
    cases found with
    | none zeros =>
      have zero : determinant (n + 1) todo = 0 :=
        determinant_of_leadZero fun r hr => (h.pending r hr).row.leadZero_iff.mp (zeros r hr)
      exact ⟨fun _ => by rw [invertRows, hpivot], fun nonzero => absurd zero nonzero⟩
    | @first p lead rest =>
      exact (inverts digits n).step h lead hpivot one_ne_zero (one_mul _).symm
    | @later p lead r before after =>
      have turned : determinant (n + 1) (p :: before ++ r :: after) =
          -determinant (n + 1) (r :: before ++ p :: after) := determinant_swap h.height
      refine (inverts digits n).step (h.perm (perm_swap before after r p)) lead hpivot
        (neg_ne_zero.mpr one_ne_zero) ?_
      rw [List.append_eq, ← List.cons_append, turned, neg_mul_neg, one_mul]

end

/-! ## 4. The inverse of a matrix -/

theorem rowNumber_append_left {r : List Scalar} (s : List Scalar) {j : Nat} (h : j < r.length) :
    rowNumber (r ++ s) j = rowNumber r j := by
  rw [rowNumber, cellAt, List.getD_append _ _ _ _ h]
  rfl

theorem rowNumber_append_right (r s : List Scalar) (j : Nat) :
    rowNumber (r ++ s) (r.length + j) = rowNumber s j := by
  rw [rowNumber, cellAt, List.getD_append_right _ _ _ _ (Nat.le_add_right _ _),
    Nat.add_sub_cancel_left]
  rfl

section
variable {n : Nat} {m : Matrix} {A : RatTable n}

/-- A row of a table beside that of the identity. -/
theorem balanced_start {r s : List Scalar} {i : Fin n} (hr : ExactRow n r) (hs : ExactRow n s)
    (left : ∀ j : Fin n, rowNumber r j = A i j)
    (right : ∀ j : Fin n, rowNumber s j = (1 : RatTable n) i j) :
    Balanced A 0 n (fun _ => 0) (r ++ s) := by
  refine ⟨⟨by rw [List.length_append, hr.length, hs.length], fun c hc => ?_⟩, fun j => ?_⟩
  · exact (List.mem_append.mp hc).elim (hr.exact c) (hs.exact c)
  · have own := congrFun (congrFun (Matrix.one_mul A) i) j
    rw [Matrix.mul_apply] at own
    rw [if_neg (Nat.not_lt_zero _), Nat.sub_zero,
      rowNumber_append_left s (hr.length.symm ▸ j.isLt), left, ← own]
    refine Finset.sum_congr rfl fun t _ => ?_
    rw [← right, ← rowNumber_append_right r s, hr.length]

/-- The reduction starts with the rows of a matrix beside those of the identity. -/
theorem reducing_start (h : m.Tabulates A) {rows : List (List Scalar)}
    (start : rows = (m.rows.zip (identityRows n)).map fun p => p.1 ++ p.2) :
    Reducing A n [] rows ∧ determinant n rows = A.det := by
  have unit := identity_square n
  have height : rows.length = n := by simp [start, h.square.length, unit.length]
  have row (i : Fin n) : ∃ r s, rows.getD i [] = r ++ s ∧ ExactRow n r ∧ ExactRow n s ∧
      (∀ j : Fin n, rowNumber r j = A i j) ∧
      ∀ j : Fin n, rowNumber s j = (1 : RatTable n) i j := by
    have hm : (i : Nat) < m.rows.length := h.square.length.symm ▸ i.isLt
    have hu : (i : Nat) < (identityRows n).length := unit.length.symm ▸ i.isLt
    refine ⟨m.rows[(i : Nat)], (identityRows n)[(i : Nat)], ?_,
      h.square.rows _ (List.getElem_mem hm), unit.rows _ (List.getElem_mem hu),
      fun j => ?_, fun j => ?_⟩
    · simp [start, List.getD_eq_getElem?_getD, hm, hu]
    · rw [← entry_of_lt hm, h.entry]
    · rw [← entry_of_lt hu, ← identity_table]
      rfl
  refine ⟨⟨Nat.zero_add n, height, fun i hi => absurd hi (Nat.not_lt_zero i), fun t ht => ?_⟩, ?_⟩
  · obtain ⟨i, hi, rfl⟩ := List.getElem_of_mem ht
    obtain ⟨r, s, whole, hr, hs, left, right⟩ := row ⟨i, height ▸ hi⟩
    rw [List.getD_eq_getElem _ _ hi] at whole
    exact whole ▸ balanced_start hr hs left right
  · rw [determinant_eq]
    congr 1
    ext i j
    obtain ⟨r, s, whole, hr, _, left, _⟩ := row i
    show rowNumber (rows.getD i []) j = A i j
    rw [whole, rowNumber_append_left s (hr.length.symm ▸ j.isLt), left]

/-- The reduction ends with the rows of the inverse. -/
theorem Reducing.inverse {rows : List (List Scalar)} (h : Reducing A 0 rows []) :
    ExactSquare n rows ∧ table n rows = A⁻¹ := by
  have width : rows.length = n := h.width
  have square : ExactSquare n rows := by
    refine ⟨width, fun r hr => ?_⟩
    obtain ⟨i, hi, rfl⟩ := List.getElem_of_mem hr
    exact Nat.zero_add n ▸ (h.finished i hi).1.row
  refine ⟨square, (Matrix.inv_eq_left_inv ?_).symm⟩
  ext i j
  have hi : (i : Nat) < rows.length := width.symm ▸ i.isLt
  have combined := (h.finished i hi).1.combined j
  rw [if_pos (width.symm ▸ j.isLt)] at combined
  simp only [Nat.zero_add, ← entry_of_lt hi] at combined
  rw [Matrix.mul_apply, Matrix.one_apply]
  refine Eq.trans combined ?_
  simp [unitNumbers, Fin.ext_iff]

section
variable (digits : Nat)

/-- The determinant of a matrix is that of its table. -/
theorem Tabulates.det (h : m.Tabulates A) : ∃ z, m.det digits = .ok z ∧ z.Denotes A.det := by
  obtain ⟨z, hz, denotes, _⟩ :=
    eliminates digits n (.integer 1) 1 m.rows (.integer 1) rfl h.square
  have accepted : m.requireSquare "det" = .ok () := if_pos (by simp [isSquare, h.height, h.cols])
  refine ⟨z, ?_, ?_⟩
  · rw [Matrix.det, accepted, ok_bind, h.height, hz]
  · rw [one_mul, determinant_eq, h.numbers] at denotes
    exact denotes

/-- The inverse of a matrix has the inverse of its table, and there is none if the determinant is
zero. -/
theorem Tabulates.inverse (h : m.Tabulates A) :
    (A.det = 0 → m.inverse digits = .error (.domain .singularMatrix)) ∧
    (A.det ≠ 0 → ∃ inv, m.inverse digits = .ok inv ∧ inv.Tabulates A⁻¹ ∧ inv.Reduced) := by
  have accepted : m.requireSquare "inv" = .ok () := if_pos (by simp [isSquare, h.height, h.cols])
  obtain ⟨start, same⟩ := reducing_start h rfl
  obtain ⟨singular, regular⟩ := inverts digits n _ _ start
  rw [same] at singular regular
  rw [Matrix.inverse, accepted, ok_bind, h.height]
  dsimp only
  constructor
  · intro zero
    rw [singular zero]
    rfl
  · intro nonzero
    obtain ⟨rows, run, done⟩ := regular nonzero
    obtain ⟨square, numbers⟩ := done.inverse
    obtain ⟨inv, hinv, rfl⟩ := ofRows_square h.pos square
    refine ⟨inv, by rw [run, ok_bind, hinv], ⟨square, numbers⟩, fun c hc => ?_⟩
    obtain ⟨r, hr, hc⟩ := List.mem_flatten.mp hc
    obtain ⟨i, hi, rfl⟩ := List.getElem_of_mem hr
    exact (done.finished i hi).2 c hc

end

end

/-- A square matrix of exact cells has an inverse exactly if its determinant is not zero. The
products with the inverse from both sides are the identity, and the cells of the inverse are
reduced. -/
theorem inverse_exact (digits : Nat) {m : Matrix} (square : m.cols = m.height)
    (exact : ∀ c ∈ m.cells, c.kind.isExact) : ∃ z, m.det digits = .ok z ∧
      (z.isZero → m.inverse digits = .error (.domain .singularMatrix)) ∧
      (¬ z.isZero → ∃ inv unit, m.inverse digits = .ok inv ∧ identity m.height = .ok unit ∧
        m.mul digits inv = .ok unit ∧ inv.mul digits m = .ok unit ∧
        ∀ c ∈ inv.cells, c.reduce = c) := by
  have tabulates := tabulates_of_exact square exact
  obtain ⟨z, hz, denotes⟩ := tabulates.det digits
  obtain ⟨singular, regular⟩ := tabulates.inverse digits
  refine ⟨z, hz, fun zero => singular ?_, fun nonzero => ?_⟩
  · simpa [denotes.isZero] using zero
  have hdet : (table m.height m.rows).det ≠ 0 := by simpa [denotes.isZero] using nonzero
  obtain ⟨inv, hinv, inverse, reduced⟩ := regular hdet
  obtain ⟨unit, hunit, identity, reducedUnit⟩ := identity_spec tabulates.pos
  obtain ⟨right, hright, rightTable, reducedRight⟩ := tabulates.mul digits inverse
  obtain ⟨left, hleft, leftTable, reducedLeft⟩ := inverse.mul digits tabulates
  rw [Matrix.mul_nonsing_inv _ hdet.isUnit] at rightTable
  rw [Matrix.nonsing_inv_mul _ hdet.isUnit] at leftTable
  have same := rightTable.unique identity reducedRight reducedUnit
  have same' := leftTable.unique identity reducedLeft reducedUnit
  exact ⟨inv, unit, hinv, hunit, same ▸ hright, same' ▸ hleft, reduced⟩

/-- Rows trade places on the way to the inverse. -/
theorem inverse_swapping : (∀ c ∈ swapping.cells, c.kind.isExact) ∧
    ∃ inv unit, swapping.inverse 0 = .ok inv ∧ identity 2 = .ok unit ∧
      swapping.mul 0 inv = .ok unit ∧ inv.mul 0 swapping = .ok unit ∧
      inv.cells = [.rational (-8 / 3), .rational (1 / 3), .integer 2, .integer 0] := by
  have exact : ∀ c ∈ swapping.cells, c.kind.isExact := by decide
  obtain ⟨z, hz, _, regular⟩ := inverse_exact 0 rfl exact
  have nonzero : (swapping.det 0).toOption.map Scalar.isZero = some false := by decide +kernel
  rw [hz] at nonzero
  obtain ⟨inv, unit, hinv, hunit, right, left, _⟩ :=
    regular (Bool.eq_false_iff.mp (Option.some.inj nonzero))
  have cells : (swapping.inverse 0).toOption.map cells =
      some [.rational (-8 / 3), .rational (1 / 3), .integer 2, .integer 0] := by decide +kernel
  rw [hinv] at cells
  exact ⟨exact, inv, unit, hinv, hunit, right, left, Option.some.inj cells⟩

end Matrix
end StackCalc
