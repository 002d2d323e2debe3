import StackCalc.Proofs.ComplexRoots
import StackCalc.Proofs.Literals
import StackCalc.Proofs.SignificantDigits

/-! # The number that a float is shown as

A float is shown as its digits, rounded to its own precision. That number is never further from the
float than a factor of two, and it has the sign of the float. The larger float is shown as the
larger number, and an integer of no more digits than the precision is shown as it is. -/

namespace StackCalc

namespace Decimal

variable {v : Decimal} {b d : Nat}

/-! ## 1. Decimal numbers -/

theorem nearestSig_max (v : Decimal) (sig : Nat) : v.nearestSig (max sig 1) = v.nearestSig sig := by
  unfold nearestSig
  rw [Nat.max_eq_left (Nat.le_max_right sig 1)]

/-- Rounding to leading digits changes a number by no more than a half of it. -/
theorem nearestSig_between (hv : v.Normal) (sig : Nat) :
    2 * (v.nearestSig sig).magnitude ≤ 3 * v.magnitude ∧
      2 * v.magnitude ≤ 3 * (v.nearestSig sig).magnitude := by
  obtain ⟨-, -, rounded⟩ := nearestSig_spec (.inr hv) sig
  have unit := ten_zpow_pos (v.place sig)
  have one : (1 : Rat) ≤ 10 ^ (max sig 1 - 1) := one_le_pow₀ (by norm_num)
  have units : 1 ≤ v.magnitude / 10 ^ v.place sig := by
    rw [le_div_iff₀ unit]
    exact (mul_le_mul_of_nonneg_right one unit.le).trans (place_bounds hv.pos sig).1
  have whole : (1 : Rat) ≤ v.kept sig := by
    have digits : (10 : Rat) ^ (max sig 1 - 1) ≤ v.kept sig := by
      exact_mod_cast (kept_bounds hv.pos sig).1
    exact one.trans digits
  have half : |v.magnitude / 10 ^ v.place sig - v.kept sig| ≤ 1 / 2 := abs_sub_round _
  obtain ⟨below, above⟩ := abs_le.mp half
  have counted : v.magnitude = v.magnitude / 10 ^ v.place sig * 10 ^ v.place sig :=
    (div_mul_cancel₀ _ unit.ne').symm
  rw [rounded]
  constructor <;> nlinarith

theorem le_of_ten_zpow_le {e : Int} (h : (10 : Rat) ^ e ≤ 2 ^ (b : Int)) : e ≤ b := by
  by_contra above
  have less : (2 : Rat) ^ (b : Int) < 10 ^ e :=
    calc (2 : Rat) ^ (b : Int) < 2 ^ e := zpow_lt_zpow_right₀ one_lt_two (by omega)
      _ ≤ 10 ^ e := zpow_le_zpow_left₀ (by omega) (by norm_num) (by norm_num)
  exact h.not_gt less

/-- The exponent of the rounding of a number that is not out of reach. -/
theorem exponent_nearestSig_bounds (hv : v.Normal) (within : InReach b v.magnitude) (sig : Nat) :
    -((b + max sig 1 : Nat) : Int) ≤ (v.nearestSig sig).exponent ∧
      (v.nearestSig sig).exponent ≤ (b + 1 : Nat) := by
  obtain ⟨normal, j, place, -⟩ := nearestSig_over hv sig
  have upper : (v.nearestSig sig).exponent ≤ (b + 1 : Nat) := by
    have one : (1 : Rat) ≤ (v.nearestSig sig).mantissa := by exact_mod_cast normal.pos
    refine le_of_ten_zpow_le ?_
    calc (10 : Rat) ^ (v.nearestSig sig).exponent
        ≤ (v.nearestSig sig).magnitude := le_mul_of_one_le_left (ten_zpow_pos _).le one
      _ ≤ 2 * 2 ^ (b : Int) := by linarith [(nearestSig_between hv sig).1, within.2, within.pos]
      _ = 2 ^ ((b + 1 : Nat) : Int) := by
        rw [← zpow_one_add₀ two_ne_zero]
        congr 1
        push_cast
        ring
  have lower : -(((max sig 1 : Nat) : Int) + v.place sig) ≤ b := by
    refine le_of_ten_zpow_le ?_
    have high := (place_bounds hv.pos sig).2
    rw [ten_pow_mul_zpow] at high
    have inverse := inv_anti₀ (by positivity) (within.1.trans high.le)
    rwa [← zpow_neg, ← zpow_neg, neg_neg] at inverse
  omega

/-- The rounding of a number that is not out of reach has an exponent that a word holds. -/
theorem roundsInWord_of_reach {sig : Nat} (hv : v.Normal) (within : InReach b v.magnitude)
    (small : b + sig < 4611686018427387904) : v.RoundsInWord sig := by
  rw [roundsInWord_iff (.inr hv)]
  have bounds := exponent_nearestSig_bounds hv within sig
  unfold InWord
  omega

/-- So has the place above its leading digit. -/
theorem render_nearestSig {sig : Nat} (hv : v.Normal) (within : InReach b v.magnitude)
    (small : b + sig < 4611686018427387904) (precision : Nat) :
    (v.nearestSig sig).render precision = .ok ((v.nearestSig sig).text precision) := by
  have bounds := exponent_nearestSig_bounds hv within sig
  have count := digitCount_nearestSig_le (.inr hv) sig
  refine render_eq_text (.inr ?_) precision
  unfold InWord
  omega

/-- A number of no more than `d` digits that is not below `10 ^ d` is an integer. -/
theorem isWhole_of_le (hv : v.Normal) (count : v.digitCount ≤ d)
    (large : (10 : Rat) ^ d ≤ v.magnitude) : v.isWhole = true := by
  have upper := magnitude_le hv.pos count
  have unit := ten_zpow_pos v.exponent
  have digits : (0 : Rat) < 10 ^ d := by positivity
  have above : (1 : Rat) < 10 ^ v.exponent := by nlinarith
  exact decide_eq_true ((one_lt_zpow_iff_right₀ (by norm_num)).mp above).le

/-- A natural up to `10 ^ d` is a number of no more than `d` digits. -/
theorem exists_natCast {n : Nat} (negative : Bool) (hd : 0 < d) (positive : 0 < n)
    (bound : n ≤ 10 ^ d) :
    ∃ v : Decimal, v.Normal ∧ v.negative = negative ∧ v.magnitude = n ∧ v.digitCount ≤ d := by
  obtain ⟨normal, same, sign⟩ := normalize_spec (v := ⟨negative, n, 0⟩) positive
  have value : magnitude ⟨negative, n, 0⟩ = n := by simp [magnitude]
  exact ⟨_, normal, sign, same.trans value, digitCount_normalize_le positive hd bound⟩

end Decimal

namespace MPFloat

variable {d : Nat}

/-! ## 2. Widths -/

theorem width_max (d : Nat) : width (max d 1) = width d := by
  unfold width bitsFor
  rw [Nat.max_eq_left (Nat.le_max_right d 1)]

/-- A width that is in range of the exponents is not too large for the digits to be found, and it
has guard digits and guard bits. -/
theorem guards (room : width d ≤ 2147483647) :
    max d 1 + 18 ≤ ExtDyadic.shownDigits (width d) ∧
      ExtDyadic.shownDigits (width d) ≤ 1000000000 ∧ 10 ^ max d 1 < 2 ^ width d := by
  rw [← width_max] at room ⊢
  generalize hk : max d 1 = k at room ⊢
  have bits := bitsFor_bounds (d := k) (by omega)
  have held : bitsFor k ≤ width k := by
    unfold width
    omega
  refine ⟨?_, ?_, ?_⟩
  · unfold ExtDyadic.shownDigits
    omega
  · unfold ExtDyadic.shownDigits
    omega
  · have power : (10 : Rat) ^ (k : Int) ≤ 2 ^ ((width k : Int) - 1) :=
      Rounding.ten_zpow_le (by omega) (by omega)
    have power : (10 : Rat) ^ (k : Int) < 2 ^ (width k : Int) :=
      power.trans_lt (zpow_lt_zpow_right₀ one_lt_two (by omega))
    rw [zpow_natCast, zpow_natCast] at power
    exact_mod_cast power

variable {x y : MPFloat} {negative : Bool} {r t : Rat}

/-! ## 3. What a float is shown as -/

/-- The decimal number that a float is shown as at its own precision. Infinities have none. -/
def shown (x : MPFloat) : Decimal := (x.toDecimal.getD .zero).nearestSig x.digits

/-- The digits of a float of a number other than zero, before they are rounded to its precision. -/
structure Digits (x : MPFloat) (negative : Bool) (r : Rat) (v : Decimal) : Prop where
  denotes : x.value.Denotes negative r
  within : InReach 2147483648 r
  found : x.toDecimal = some v
  approaches : v.Approaches negative (1 / 10 ^ (max x.digits 1 + 17)) r
  rounded : x.shown = v.nearestSig (max x.digits 1)

/-- What is left behind by finding the digits is a small share. -/
theorem guard_share (k : Nat) : (1 : Rat) / 10 ^ (k + 17) ≤ 1 / 10 := by
  have power : (10 : Rat) ^ 1 ≤ 10 ^ (k + 17) := pow_le_pow_right₀ (by norm_num) (by omega)
  exact one_div_le_one_div_of_le (by norm_num) (by linarith)

theorem exists_digits (room : width x.digits ≤ 2147483647) (value : x.value.Denotes negative r)
    (float : IsFloat (width x.digits) r) : ∃ v, x.Digits negative r v := by
  obtain ⟨many, few, -⟩ := guards room
  have within : InReach 2147483648 r :=
    ⟨float.large, float.small.le.trans (zpow_le_zpow_right₀ one_le_two (by decide))⟩
  obtain ⟨v, found, approaches⟩ := ExtDyadic.toDecimal_approaches few (by norm_num) within value
  have share : (10 : Rat) ^ (1 - ExtDyadic.shownDigits (width x.digits) : Int) ≤
      1 / 10 ^ (max x.digits 1 + 17) := by
    rw [one_div, ← zpow_natCast, ← zpow_neg]
    exact zpow_le_zpow_right₀ (by norm_num) (by omega)
  have unit := Decimal.ten_zpow_pos (1 - ExtDyadic.shownDigits (width x.digits) : Int)
  have near := approaches.near.mono (half_le_self unit.le |>.trans share)
  have tenth := guard_share (max x.digits 1)
  have found : x.toDecimal = some v := found
  refine ⟨v, value, within, found, ⟨approaches.normal, approaches.sign, near⟩, ?_⟩
  rw [shown, found, Option.getD_some, Decimal.nearestSig_max]

namespace Digits

variable {v : Decimal}

theorem normal (h : x.Digits negative r v) : x.shown.Normal := by
  rw [h.rounded]
  exact (Decimal.nearestSig_over h.approaches.normal _).1

theorem sign (h : x.Digits negative r v) : x.shown.negative = negative := by
  rw [h.rounded, (Decimal.nearestSig_spec (.inr h.approaches.normal) _).2.1, h.approaches.sign]

theorem value (h : x.Digits negative r v) :
    x.shown.value = signed negative x.shown.magnitude := by
  rw [Decimal.value, h.sign]

theorem count_le (h : x.Digits negative r v) : x.shown.digitCount ≤ max x.digits 1 := by
  rw [h.rounded]
  refine (Decimal.digitCount_nearestSig_le (.inr h.approaches.normal) _).trans (le_of_eq ?_)
  omega

/-- A float is shown as a number of its own size. -/
theorem between (h : x.Digits negative r v) (hr : 0 < r) :
    x.shown.magnitude ≤ 2 * r ∧ r ≤ 2 * x.shown.magnitude := by
  have near := h.approaches.near.mono (guard_share _)
  have above := near.le hr
  have below := near.ge hr
  obtain ⟨high, low⟩ := Decimal.nearestSig_between h.approaches.normal (max x.digits 1)
  rw [h.rounded]
  constructor <;> linarith

/-- A number of no more digits than the precision is shown as it is. -/
theorem eq_of_count {u : Decimal} (h : x.Digits negative r v) (normal : u.Normal)
    (sign : u.negative = negative) (value : u.magnitude = r)
    (count : u.digitCount ≤ max x.digits 1) : x.shown = u := by
  have approaches := h.approaches
  subst sign value
  rw [h.rounded]
  refine approaches.nearestSig_eq (Nat.le_max_right _ 1) normal count (by positivity) ?_
  rw [pow_add]
  have power : (0 : Rat) < 10 ^ max x.digits 1 := by positivity
  field_simp
  norm_num

theorem found_eq (h : x.Digits negative r v) : ∃ z : Dyadic, z.toRat = signed negative r ∧
    ExtDyadic.roundDecimal (ExtDyadic.shownDigits (width x.digits)) z = v := by
  obtain ⟨z, hz, value⟩ := h.denotes
  have found := (congrArg (ExtDyadic.toDecimal (width x.digits)) hz.symm).trans h.found
  exact ⟨z, value, Option.some.inj found⟩

/-- The digits of a float keep to the words of decimal numbers: their text is read as they are, and
they are rounded and written without an overflow. -/
theorem inWords (h : x.Digits negative r v) (room : width x.digits ≤ 2147483647)
    (precision : Nat) {sig : Nat} (word : sig ≤ 4294967295) :
    Decimal.parse (v.text precision) = .ok (some v) ∧ v.roundSig sig = .ok (v.nearestSig sig) ∧
      (v.nearestSig sig).render precision = .ok ((v.nearestSig sig).text precision) := by
  obtain ⟨-, few, -⟩ := guards room
  have normal := h.approaches.normal
  have within : InReach (2147483648 + 1) v.magnitude :=
    h.within.near h.approaches.near (by linarith [guard_share (max x.digits 1)])
  have count : v.digitCount ≤ 1000000000 := by
    obtain ⟨z, value, rfl⟩ := h.found_eq
    exact (ExtDyadic.digitCount_roundDecimal_le (Nat.succ_pos _) few (by norm_num) h.within
      value).trans few
  refine ⟨?_, ?_, Decimal.render_nearestSig normal within (by omega) precision⟩
  · have bounds := Decimal.exponent_nearestSig_bounds normal within v.digitCount
    rw [Decimal.nearestSig_of_count (Nat.le_max_left _ 1)] at bounds
    refine Decimal.parse_text (.inr normal) ?_ ?_ precision <;>
      (unfold Decimal.InWord; omega)
  · exact (Decimal.roundsInWord_of_reach normal within (by omega)).roundSig_eq (.inr normal)

/-- The larger of two floats is shown as the larger number. -/
theorem mono {negative' : Bool} {u : Decimal} (hx : x.Digits negative r v)
    (hy : y.Digits negative' t u) (same : y.digits = x.digits)
    (room : width x.digits ≤ 2147483647) (le : r ≤ t) :
    x.shown.magnitude ≤ y.shown.magnitude := by
  obtain ⟨-, few, -⟩ := guards room
  obtain ⟨z, value, found⟩ := hx.found_eq
  obtain ⟨z', value', found'⟩ := hy.found_eq
  rw [same] at found'
  have order : v.magnitude ≤ u.magnitude := by
    rw [← found, ← found']
    exact ExtDyadic.roundDecimal_mono (Nat.succ_pos _) few (by norm_num) hx.within hy.within value
      value' le
  rw [hx.rounded, hy.rounded, same, (Decimal.nearestSig_spec (.inr hx.approaches.normal) _).2.2,
    (Decimal.nearestSig_spec (.inr hy.approaches.normal) _).2.2]
  exact Decimal.kept_mono order _

end Digits
end MPFloat
end StackCalc
