import Mathlib.Algebra.Order.Ring.Unbundled.Rat
import StackCalc.Proofs.Execution

/-! # Exact scalars as rational numbers

`Scalar.Denotes` reads integers and fractions as rational numbers. Whatever the mixture of kinds,
arithmetic on the scalars is arithmetic on the numbers, and a number is stored in one way only:
as an integer if it is whole, and as a fraction in lowest terms if not. -/

namespace StackCalc

/-! ## 1. Numbers and their values -/

/-- The value of a rational number. -/
def Value.ofRat (q : Rat) : Value := if q.den = 1 then .integer q.num else .rational q

/-- An exact scalar and the number that it stands for. -/
inductive Scalar.Denotes : Scalar → Rat → Prop
  | integer (n : Int) : (Scalar.integer n).Denotes n
  | rational (q : Rat) : (Scalar.rational q).Denotes q

theorem floor_div_eq_fdiv (a b : Int) : ((a : Rat) / b).floor = a.fdiv b := by
  have positive : ∀ a b : Int, 0 < b → ((a : Rat) / b).floor = a.fdiv b := by
    intro a b hb
    have hb' : (0 : Rat) < b := by exact_mod_cast hb
    have below : ∀ x : Int, ((a : Rat) / b).floor < x ↔ a.fdiv b < x := by
      intro x
      rw [Rat.floor_lt_iff, Rat.div_lt_iff hb', Int.fdiv_eq_ediv_of_nonneg a (Int.le_of_lt hb),
        Int.ediv_lt_iff_lt_mul hb, ← Rat.intCast_mul, Rat.intCast_lt_intCast]
    have h₁ := below (((a : Rat) / b).floor + 1)
    have h₂ := below (a.fdiv b + 1)
    omega
  -- A negative divisor is turned around together with its dividend.
  rcases Int.lt_trichotomy b 0 with hb | rfl | hb
  · rw [← Rat.divInt_eq_div, ← Rat.neg_divInt_neg, Rat.divInt_eq_div, positive _ _ (by omega),
      Int.neg_fdiv_neg]
  · simpa [Rat.div_def] using Rat.floor_intCast 0
  · exact positive a b hb

namespace Scalar

variable {x y : Scalar} {a b : Rat} {d : Nat}

/-- An exact scalar is reduced to the value of its number. -/
theorem Denotes.reduce_eq (h : x.Denotes a) : (Value.scalar x).reduce = .ofRat a := by
  cases h with
  | integer n => simp [Value.reduce, reduce, Value.ofRat, Value.integer]
  | rational =>
    unfold Value.reduce reduce Value.ofRat
    dsimp only
    split <;> rfl

theorem Denotes.reduce (h : x.Denotes a) : x.reduce.Denotes a := by
  cases h with
  | integer n => exact .integer n
  | rational =>
    unfold Scalar.reduce
    dsimp only
    split
    · rename_i hd
      have whole : (a.num : Rat) = a := Rat.ext rfl hd.symm
      exact whole ▸ .integer a.num
    · exact .rational a

theorem denotes_ofRat (q : Rat) : ∃ x, Value.ofRat q = .scalar x ∧ x.Denotes q := by
  refine ⟨(Scalar.rational q).reduce, ?_, (Denotes.rational q).reduce⟩
  rw [← (Denotes.rational q).reduce_eq]
  rfl

theorem Denotes.isZero (h : x.Denotes a) : x.isZero = decide (a = 0) := by
  cases h with
  | integer n => simp [Scalar.isZero]
  | rational => simp [Scalar.isZero, Rat.num_eq_zero]

/-! ## 2. Arithmetic -/

theorem Denotes.add (hx : x.Denotes a) (hy : y.Denotes b) :
    ∃ z, Scalar.add d x y = .ok z ∧ z.Denotes (a + b) := by
  cases hx <;> cases hy
  · exact ⟨_, rfl, by rw [← Rat.intCast_add]; exact .integer _⟩
  all_goals exact ⟨_, rfl, (Denotes.rational _).reduce⟩

theorem Denotes.sub (hx : x.Denotes a) (hy : y.Denotes b) :
    ∃ z, Scalar.sub d x y = .ok z ∧ z.Denotes (a - b) := by
  cases hx <;> cases hy
  · exact ⟨_, rfl, by rw [← Rat.intCast_sub]; exact .integer _⟩
  all_goals exact ⟨_, rfl, (Denotes.rational _).reduce⟩

theorem Denotes.mul (hx : x.Denotes a) (hy : y.Denotes b) :
    ∃ z, Scalar.mul d x y = .ok z ∧ z.Denotes (a * b) := by
  cases hx <;> cases hy
  · exact ⟨_, rfl, by rw [← Rat.intCast_mul]; exact .integer _⟩
  all_goals exact ⟨_, rfl, (Denotes.rational _).reduce⟩

/-- Two scalars are promoted to integers, or to fractions of the same numbers. -/
theorem Denotes.promote (hx : x.Denotes a) (hy : y.Denotes b) :
    (∃ m n : Int, Scalar.promote d x y = .ok (.integers m n) ∧ a = m ∧ b = n) ∨
      Scalar.promote d x y = .ok (.rationals a b) := by
  cases hx <;> cases hy
  · exact .inl ⟨_, _, rfl, rfl, rfl⟩
  all_goals exact .inr rfl

theorem Denotes.div (hx : x.Denotes a) (hy : y.Denotes b) (hb : b ≠ 0) :
    ∃ z, Scalar.div d x y = .ok z ∧ z.Denotes (a / b) := by
  rcases hx.promote (d := d) hy with ⟨m, n, h, rfl, rfl⟩ | h
  · have hn : n ≠ 0 := fun h => hb (by rw [h]; rfl)
    refine ⟨_, by simp only [Scalar.div, h, ok_bind, hn, if_false]; rfl, ?_⟩
    rw [← Rat.divInt_eq_div]
    exact (Denotes.rational _).reduce
  · refine ⟨_, by simp only [Scalar.div, h, ok_bind, hb, if_false]; rfl, ?_⟩
    exact (Denotes.rational _).reduce

theorem Denotes.div_zero (hx : x.Denotes a) (hy : y.Denotes 0) :
    Scalar.div d x y = .error .divisionByZero := by
  rcases hx.promote (d := d) hy with ⟨m, n, h, rfl, hn⟩ | h
  · have hn : n = 0 := Rat.intCast_inj.mp hn.symm
    simp only [Scalar.div, h, ok_bind, hn, if_true]
    rfl
  · simp only [Scalar.div, h, ok_bind, if_true]
    rfl

theorem Denotes.neg (hx : x.Denotes a) : x.neg.Denotes (-a) := by
  cases hx with
  | integer n => exact Rat.intCast_neg n ▸ .integer (-n)
  | rational => exact .rational (-a)

theorem Denotes.abs (hx : x.Denotes a) : ∃ z, Scalar.abs x = .ok z ∧ z.Denotes a.abs := by
  cases hx with
  | integer n =>
    refine ⟨_, rfl, ?_⟩
    have absolute : (n : Rat).abs = ((n.natAbs : Int) : Rat) := by
      rcases Int.le_total 0 n with h | h
      · rw [Rat.abs_of_nonneg (by exact_mod_cast h), Int.natAbs_of_nonneg h]
      · rw [Rat.abs_of_nonpos (by exact_mod_cast h), Int.ofNat_natAbs_of_nonpos h, Rat.intCast_neg]
    exact absolute ▸ .integer _
  | rational => exact ⟨_, rfl, .rational a.abs⟩

theorem Denotes.modulo (hx : x.Denotes a) (hy : y.Denotes b) (hb : b ≠ 0) :
    ∃ z, Scalar.modulo d x y = .ok z ∧ z.Denotes (a - b * (a / b).floor) := by
  rcases hx.promote (d := d) hy with ⟨m, n, h, rfl, rfl⟩ | h
  · refine ⟨_, by simp only [Scalar.modulo, hy.isZero, hb, decide_false, Bool.false_eq_true,
      if_false, h, ok_bind]; rfl, ?_⟩
    rw [floor_div_eq_fdiv, ← Rat.intCast_mul, ← Rat.intCast_sub, ← Int.fmod_def]
    exact .integer _
  · refine ⟨_, by simp only [Scalar.modulo, hy.isZero, hb, decide_false, Bool.false_eq_true,
      if_false, h, ok_bind]; rfl, ?_⟩
    exact (Denotes.rational _).reduce

theorem Denotes.equals (hx : x.Denotes a) (hy : y.Denotes b) :
    Scalar.equals d x y = .ok (decide (a = b)) := by
  rcases hx.promote (d := d) hy with ⟨m, n, h, rfl, rfl⟩ | h
  · simp only [Scalar.equals, h, ok_bind, Rat.intCast_inj]
    rfl
  · simp only [Scalar.equals, h, ok_bind]
    rfl

/-! ## 3. Order -/

/-- The order of two rational numbers. -/
def orderOf (a b : Rat) : Ordering := if a < b then .lt else if a = b then .eq else .gt

theorem orderOf_cases (a b : Rat) : a < b ∧ orderOf a b = .lt ∨
    a = b ∧ orderOf a b = .eq ∨ b < a ∧ orderOf a b = .gt := by
  unfold orderOf
  by_cases lt : a < b
  · exact .inl ⟨lt, if_pos lt⟩
  · rw [if_neg lt]
    by_cases eq : a = b
    · exact .inr (.inl ⟨eq, if_pos eq⟩)
    · rw [if_neg eq]
      exact .inr (.inr ⟨Rat.lt_iff_le_and_ne.mpr ⟨Rat.not_lt.mp lt, Ne.symm eq⟩, rfl⟩)

theorem isLT_orderOf (a b : Rat) : (orderOf a b).isLT = decide (a < b) := by
  rcases orderOf_cases a b with ⟨h, ho⟩ | ⟨h, ho⟩ | ⟨h, ho⟩
  · simp [ho, h]
  · rw [ho]
    simp [h]
  · simp [ho, Rat.not_lt.mpr (Rat.le_of_lt h)]

theorem isGT_orderOf (a b : Rat) : (orderOf a b).isGT = decide (b < a) := by
  rcases orderOf_cases a b with ⟨h, ho⟩ | ⟨h, ho⟩ | ⟨h, ho⟩
  · simp [ho, Rat.not_lt.mpr (Rat.le_of_lt h)]
  · rw [ho]
    simp [h]
  · simp [ho, h]

theorem isLE_orderOf (a b : Rat) : (orderOf a b).isLE = decide (a ≤ b) := by
  rcases orderOf_cases a b with ⟨h, ho⟩ | ⟨h, ho⟩ | ⟨h, ho⟩
  · simp [ho, Rat.le_of_lt h]
  · rw [ho]
    simp [h]
  · simp [ho, Rat.not_le.mpr h]

theorem isGE_orderOf (a b : Rat) : (orderOf a b).isGE = decide (b ≤ a) := by
  rcases orderOf_cases a b with ⟨h, ho⟩ | ⟨h, ho⟩ | ⟨h, ho⟩
  · simp [ho, Rat.not_le.mpr h]
  · rw [ho]
    simp [h]
  · simp [ho, Rat.le_of_lt h]

theorem Denotes.compareSame (hx : x.Denotes a) (hy : y.Denotes b) (hk : x.kind = y.kind) :
    x.compareSame y = some (orderOf a b) := by
  cases hx <;> cases hy
  · simp only [Scalar.compareSame, orderOf, Rat.intCast_lt_intCast, Rat.intCast_inj]
    rfl
  · cases hk
  · cases hk
  · rfl

end Scalar
end StackCalc
