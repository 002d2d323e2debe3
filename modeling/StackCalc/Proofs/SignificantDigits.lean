import Mathlib.Algebra.Order.Round
import Mathlib.Data.Rat.Floor
import StackCalc.Proofs.Decimals

/-! # Significant digits

Rounding to a number of leading digits gives the nearest multiple of the place of the last of them,
and of two equally near ones the one that is further from zero. A carry into a new leading digit
leaves a power of ten, so there are never more digits than asked for, and larger numbers have
larger roundings although their places differ. All of this holds of the exact rounding, which is
what a word holds unless its exponent is too large. -/

namespace StackCalc

namespace Rounding

variable {n d : Nat} {x y : Rat}

/-! ## 1. The nearest integer -/

theorem halfUp_eq_round (n : Nat) (hd : 0 < d) : (halfUp n d : Int) = round ((n : Rat) / d) := by
  have hd' : (0 : Rat) < d := by exact_mod_cast hd
  have low : halfUp n d * (2 * d) ≤ 2 * n + d := Nat.div_mul_le_self _ _
  have high : 2 * n + d < (halfUp n d + 1) * (2 * d) := by
    rw [Nat.mul_comm (halfUp n d + 1)]
    exact Nat.lt_mul_div_succ (2 * n + d) (by omega)
  have low : (halfUp n d : Rat) * (2 * d) ≤ 2 * n + d := by exact_mod_cast low
  have high : (2 * n + d : Rat) < (halfUp n d + 1) * (2 * d) := by exact_mod_cast high
  symm
  rw [round_eq_iff, Set.mem_Ico, le_div_iff₀ hd', div_lt_iff₀ hd', Int.cast_natCast]
  constructor <;> linarith

theorem round_mono (h : x ≤ y) : round x ≤ round y := by
  rw [round_eq, round_eq]
  exact Int.floor_mono (by linarith)

theorem le_round {k : Int} (h : k ≤ x) : k ≤ round x :=
  (round_intCast (α := Rat) k).symm.le.trans (round_mono h)

theorem round_le_of_le {k : Int} (h : x ≤ k) : round x ≤ k :=
  (round_mono h).trans (round_intCast (α := Rat) k).le

/-- Of two integers that are equally near to a number the larger one is taken. -/
theorem abs_le_round {j : Int} (hx : 0 ≤ x) (tie : |x - j| = |x - round x|) : |j| ≤ round x := by
  have range := round_eq_iff.mp (rfl : round x = round x)
  obtain ⟨low, high⟩ := Set.mem_Ico.mp range
  rcases abs_eq_abs.mp tie with same | other
  · have same : j = round x := by exact_mod_cast (sub_right_injective same)
    rw [same, abs_of_nonneg (le_round (by exact_mod_cast hx))]
  · rw [abs_le]
    have other : (j : Rat) = 2 * x - round x := by linarith
    have lower : ((-round x : Int) : Rat) ≤ j := by
      push_cast
      linarith
    have upper : (j : Rat) < ((round x + 1 : Int) : Rat) := by
      push_cast
      linarith
    constructor
    · exact_mod_cast lower
    · exact Int.lt_add_one_iff.mp (by exact_mod_cast upper)

end Rounding

namespace Decimal

variable {d e r r' : Decimal} {sig : Nat}

/-! ## 2. The digits that are kept -/

/-- The place of the last of `sig` leading digits, of which there is at least one. -/
def place (d : Decimal) (sig : Nat) : Int := d.exponent + d.digitCount - max sig 1

/-- The leading digits, rounded to an integer. -/
def kept (d : Decimal) (sig : Nat) : Int := round (d.magnitude / 10 ^ d.place sig)

theorem kept_nonneg (d : Decimal) (sig : Nat) : 0 ≤ d.kept sig :=
  Rounding.le_round (by
    rw [Int.cast_zero]
    exact div_nonneg d.magnitude_nonneg (ten_zpow_pos _).le)

theorem kept_of_magnitude (h : d.magnitude = 0) (sig : Nat) : d.kept sig = 0 := by
  rw [kept, h, zero_div, round_zero]

/-- A number other than zero has its leading digits at their places. -/
theorem place_bounds (hd : 0 < d.mantissa) (sig : Nat) :
    (10 : Rat) ^ (max sig 1 - 1) * 10 ^ d.place sig ≤ d.magnitude ∧
      d.magnitude < 10 ^ max sig 1 * 10 ^ d.place sig := by
  obtain ⟨low, high⟩ := magnitude_bounds hd
  have digits : 0 < d.digitCount := List.length_pos_iff.mpr (Numeral.digits_ne_nil _)
  have unit := ten_zpow_pos d.exponent
  rw [ten_pow_mul_zpow] at low high ⊢
  rw [ten_pow_mul_zpow]
  have lower : ((max sig 1 - 1 : Nat) : Int) + d.place sig =
      (d.digitCount - 1 : Nat) + d.exponent := by
    unfold place
    omega
  have upper : ((max sig 1 : Nat) : Int) + d.place sig = d.digitCount + d.exponent := by
    unfold place
    omega
  rw [lower, upper]
  exact ⟨low, by linarith⟩

theorem kept_bounds (hd : 0 < d.mantissa) (sig : Nat) :
    10 ^ (max sig 1 - 1) ≤ d.kept sig ∧ d.kept sig ≤ 10 ^ max sig 1 := by
  obtain ⟨low, high⟩ := place_bounds hd sig
  have unit := ten_zpow_pos (d.place sig)
  constructor
  · refine Rounding.le_round ?_
    rw [le_div_iff₀ unit]
    exact_mod_cast low
  · refine Rounding.round_le_of_le ?_
    rw [div_le_iff₀ unit]
    exact_mod_cast high.le

theorem nearestSig_of_count (short : d.digitCount ≤ max sig 1) : d.nearestSig sig = d :=
  if_pos (Nat.sub_eq_zero_of_le short)

/-- The number zero has no digit that could be dropped. -/
theorem Normal.of_long (hd : d = zero ∨ d.Normal) (long : max sig 1 < d.digitCount) : d.Normal :=
  hd.resolve_left (by
    rintro rfl
    have one : zero.digitCount = 1 := rfl
    omega)

/-- The exact rounding is what is kept of the digits, in normal form and behind the same sign. -/
theorem nearestSig_spec (hd : d = zero ∨ d.Normal) (sig : Nat) :
    (d.nearestSig sig = zero ∨ (d.nearestSig sig).Normal) ∧
      (d.nearestSig sig).negative = d.negative ∧
      (d.nearestSig sig).magnitude = d.kept sig * 10 ^ d.place sig := by
  rcases Nat.lt_or_ge (max sig 1) d.digitCount with long | short
  · let drop := d.digitCount - max sig 1
    let m := Rounding.halfUp d.mantissa (Nat.pow 10 drop)
    have rounded : d.nearestSig sig = normalize ⟨d.negative, m, d.exponent + (drop : Int)⟩ :=
      if_neg (Nat.sub_ne_zero_of_lt long)
    have place : d.exponent + (drop : Int) = d.place sig := by
      unfold place
      omega
    have same : (m : Int) = d.kept sig := by
      have tens : 0 < Nat.pow 10 drop := Nat.pow_pos (by norm_num)
      rw [kept, ← place, ← mantissa_div]
      exact Rounding.halfUp_eq_round d.mantissa tens
    have positive : 0 < m := by
      have digits := (kept_bounds (Normal.of_long hd long).pos sig).1
      have : (0 : Int) < 10 ^ (max sig 1 - 1) := by positivity
      omega
    obtain ⟨normal, magnitude, sign⟩ := normalize_spec
      (v := ⟨d.negative, m, d.exponent + (drop : Int)⟩) positive
    rw [rounded]
    refine ⟨.inr normal, sign, magnitude.trans ?_⟩
    rw [Decimal.magnitude, place, ← same, Int.cast_natCast]
  · rw [nearestSig_of_count short]
    refine ⟨hd, rfl, ?_⟩
    have whole := magnitude_over (v := d) (f := d.place sig) (by unfold place; omega)
    rw [kept, whole, mul_div_cancel_right₀ _ (ten_zpow_pos _).ne', round_natCast, Int.cast_natCast]

/-- The rounding stands over the place, where its digits are those that are kept. -/
theorem nearestSig_over (hd : d.Normal) (sig : Nat) :
    (d.nearestSig sig).Normal ∧ ∃ j : Nat, (d.nearestSig sig).exponent = d.place sig + j ∧
      (d.nearestSig sig).mantissa * 10 ^ j ≤ 10 ^ max sig 1 := by
  obtain ⟨least, most⟩ := kept_bounds hd.pos sig
  obtain ⟨form, _, magnitude⟩ := nearestSig_spec (.inr hd) sig
  let k := (d.kept sig).toNat
  have whole : (k : Int) = d.kept sig := Int.toNat_of_nonneg (d.kept_nonneg sig)
  have positive : (0 : Int) < d.kept sig := by
    have : (0 : Int) < 10 ^ (max sig 1 - 1) := by positivity
    omega
  have normal : (d.nearestSig sig).Normal := by
    refine form.resolve_left fun zero => ?_
    have positive : (0 : Rat) < d.kept sig := by exact_mod_cast positive
    have positive : 0 < (d.nearestSig sig).magnitude := by
      rw [magnitude]
      exact mul_pos positive (ten_zpow_pos _)
    rw [zero] at positive
    exact absurd (mantissa_pos positive) (by decide)
  have same : (d.nearestSig sig).magnitude = Decimal.magnitude ⟨d.negative, k, d.place sig⟩ := by
    rw [magnitude, ← whole, Int.cast_natCast, Decimal.magnitude]
  have place : d.place sig ≤ (d.nearestSig sig).exponent := exponent_le normal same
  refine ⟨normal, ((d.nearestSig sig).exponent - d.place sig).toNat, by omega, ?_⟩
  rw [magnitude_over place] at same
  have part : (d.nearestSig sig).mantissa *
      10 ^ ((d.nearestSig sig).exponent - d.place sig).toNat = k := by
    exact_mod_cast mul_right_cancel₀ (ten_zpow_pos _).ne' same
  rw [part]
  rw [← whole] at most
  exact_mod_cast most

/-- A carry leaves a power of ten, which has one digit in normal form. -/
theorem digitCount_nearestSig_le (hd : d = zero ∨ d.Normal) (sig : Nat) :
    (d.nearestSig sig).digitCount ≤ max sig 1 := by
  rcases Nat.lt_or_ge (max sig 1) d.digitCount with long | short
  · obtain ⟨normal, j, _, bound⟩ := nearestSig_over (Normal.of_long hd long) sig
    have least := Nat.le_mul_of_pos_right (d.nearestSig sig).mantissa
      (Nat.pow_pos (n := j) (by norm_num : 0 < 10))
    exact digitCount_le normal (by omega) (least.trans bound)
  · rwa [nearestSig_of_count short]

/-! ## 3. The nearest number of so many digits -/

/-- A number in normal form of no more than `sig` digits which among the multiples of the place of
the last of them is nearest, and furthest from zero if another one is equally near. -/
structure IsRounded (d : Decimal) (sig : Nat) (r : Decimal) : Prop where
  normal : r = zero ∨ r.Normal
  sign : r.negative = d.negative
  count : r.digitCount ≤ max sig 1
  multiple : ∃ k : Int, r.value = k * 10 ^ d.place sig
  nearest : ∀ j : Int, |d.value - r.value| ≤ |d.value - j * 10 ^ d.place sig|
  tie : ∀ j : Int, |d.value - j * 10 ^ d.place sig| = |d.value - r.value| →
    |j * (10 : Rat) ^ d.place sig| ≤ |r.value|

theorem IsRounded.unique (h : d.IsRounded sig r) (h' : d.IsRounded sig r') : r = r' := by
  obtain ⟨k, hk⟩ := h.multiple
  obtain ⟨k', hk'⟩ := h'.multiple
  have near : |d.value - r.value| = |d.value - r'.value| :=
    le_antisymm (hk' ▸ h.nearest k') (hk ▸ h'.nearest k)
  have large : |r.value| = |r'.value| :=
    le_antisymm (hk ▸ h'.tie k (hk ▸ near)) (hk' ▸ h.tie k' (hk' ▸ near.symm))
  rw [value, value, abs_signed r.magnitude_nonneg, abs_signed r'.magnitude_nonneg] at large
  refine eq_of_value h.normal h'.normal ?_
  rw [value, value, large, h.sign, h'.sign]

/-- An integer that goes with a sign. -/
def withSign (negative : Bool) (k : Int) : Int := if negative then -k else k

@[simp] theorem withSign_withSign (negative : Bool) (k : Int) :
    withSign negative (withSign negative k) = k := by
  cases negative <;> simp [withSign]

@[simp] theorem abs_withSign (negative : Bool) (k : Int) : |withSign negative k| = |k| := by
  cases negative <;> simp [withSign]

theorem signed_mul (negative : Bool) (k : Int) (u : Rat) :
    signed negative (k * u) = withSign negative k * u := by
  cases negative <;> simp [signed, withSign]

/-- How far a number is from a multiple of a place, in units of the place. -/
theorem abs_value_sub (d : Decimal) (sig : Nat) (j : Int) :
    |d.value - j * 10 ^ d.place sig| =
      |d.magnitude / 10 ^ d.place sig - withSign d.negative j| * 10 ^ d.place sig := by
  have unit := ten_zpow_pos (d.place sig)
  have cancel := div_mul_cancel₀ d.magnitude unit.ne'
  rw [← abs_of_pos unit, ← abs_mul, abs_of_pos unit, sub_mul, cancel, value]
  cases d.negative with
  | true =>
    rw [← abs_neg]
    simp [signed, withSign, add_comm]
  | false => simp [signed, withSign]

theorem nearestSig_isRounded (hd : d = zero ∨ d.Normal) (sig : Nat) :
    d.IsRounded sig (d.nearestSig sig) := by
  obtain ⟨normal, sign, magnitude⟩ := nearestSig_spec hd sig
  have unit := ten_zpow_pos (d.place sig)
  have multiple : (d.nearestSig sig).value =
      withSign d.negative (d.kept sig) * 10 ^ d.place sig := by
    rw [value, sign, magnitude, signed_mul]
  have error : |d.value - (d.nearestSig sig).value| =
      |d.magnitude / 10 ^ d.place sig - d.kept sig| * 10 ^ d.place sig := by
    rw [multiple, abs_value_sub, withSign_withSign]
  refine ⟨normal, sign, digitCount_nearestSig_le hd sig, ⟨_, multiple⟩, fun j => ?_, fun j h => ?_⟩
  · rw [error, abs_value_sub]
    exact mul_le_mul_of_nonneg_right (round_le _ _) unit.le
  · rw [error, abs_value_sub] at h
    have tie := mul_right_cancel₀ unit.ne' h
    have larger := Rounding.abs_le_round (div_nonneg d.magnitude_nonneg unit.le) tie
    rw [abs_withSign] at larger
    rw [multiple, abs_mul, abs_mul]
    refine mul_le_mul_of_nonneg_right ?_ (abs_nonneg _)
    rw [← Int.cast_abs, ← Int.cast_abs, abs_withSign, abs_of_nonneg (d.kept_nonneg sig)]
    exact_mod_cast larger

/-! ## 4. Order -/

/-- Of two numbers that are not negative the larger one has the larger rounding. The place of the
smaller one may be below that of the other one, and then there is a power of ten between the
roundings. -/
theorem kept_mono (h : d.magnitude ≤ e.magnitude) (sig : Nat) :
    d.kept sig * (10 : Rat) ^ d.place sig ≤ e.kept sig * 10 ^ e.place sig := by
  have unit := ten_zpow_pos (d.place sig)
  have unit' := ten_zpow_pos (e.place sig)
  rcases d.magnitude_nonneg.eq_or_lt with none | positive
  · have positive : (0 : Rat) ≤ e.kept sig := by exact_mod_cast e.kept_nonneg sig
    rw [kept_of_magnitude none.symm, Int.cast_zero, zero_mul]
    positivity
  have hd : 0 < d.mantissa := mantissa_pos positive
  have he : 0 < e.mantissa := mantissa_pos (positive.trans_le h)
  obtain ⟨low, high⟩ := place_bounds hd sig
  obtain ⟨low', high'⟩ := place_bounds he sig
  rcases lt_trichotomy (d.place sig) (e.place sig) with below | same | above
  · obtain ⟨_, most⟩ := kept_bounds hd sig
    obtain ⟨least, _⟩ := kept_bounds he sig
    have most : (d.kept sig : Rat) ≤ 10 ^ max sig 1 := by exact_mod_cast most
    have least : (10 : Rat) ^ (max sig 1 - 1) ≤ e.kept sig := by exact_mod_cast least
    calc (d.kept sig : Rat) * 10 ^ d.place sig ≤ 10 ^ max sig 1 * 10 ^ d.place sig := by gcongr
      _ ≤ 10 ^ (max sig 1 - 1) * 10 ^ e.place sig := by
        rw [ten_pow_mul_zpow, ten_pow_mul_zpow]
        exact zpow_le_zpow_right₀ (by norm_num) (by omega)
      _ ≤ e.kept sig * 10 ^ e.place sig := by gcongr
  · unfold kept
    rw [same]
    have : round (d.magnitude / 10 ^ e.place sig) ≤ round (e.magnitude / 10 ^ e.place sig) :=
      Rounding.round_mono (by gcongr)
    gcongr
  · have : (10 : Rat) ^ max sig 1 * 10 ^ e.place sig ≤
        10 ^ (max sig 1 - 1) * 10 ^ d.place sig := by
      rw [ten_pow_mul_zpow, ten_pow_mul_zpow]
      exact zpow_le_zpow_right₀ (by norm_num) (by omega)
    linarith

theorem nearestSig_mono (hd : d = zero ∨ d.Normal) (he : e = zero ∨ e.Normal) (sig : Nat)
    (h : d.value ≤ e.value) : (d.nearestSig sig).value ≤ (e.nearestSig sig).value := by
  obtain ⟨_, sign, rounded⟩ := nearestSig_spec hd sig
  obtain ⟨_, sign', rounded'⟩ := nearestSig_spec he sig
  have nonneg := (d.nearestSig sig).magnitude_nonneg
  have nonneg' := (e.nearestSig sig).magnitude_nonneg
  rw [value, value, sign, sign']
  rw [value, value] at h
  cases hs : d.negative <;> cases hs' : e.negative <;>
    simp only [hs, hs', signed, if_true, if_false, Bool.false_eq_true, neg_le_neg_iff] at h ⊢
  · rw [rounded, rounded']
    exact kept_mono h sig
  · -- a number that is not negative is below none that is
    have none : d.magnitude = 0 := by linarith [d.magnitude_nonneg, e.magnitude_nonneg]
    have none' : e.magnitude = 0 := by linarith [d.magnitude_nonneg, e.magnitude_nonneg]
    rw [rounded, rounded', kept_of_magnitude none, kept_of_magnitude none']
    simp
  · linarith
  · rw [rounded, rounded']
    exact kept_mono h sig

/-! ## 5. In a word -/

/-- A word holds the exponent of the rounding to `sig` digits. -/
def RoundsInWord (d : Decimal) (sig : Nat) : Prop := ∀ r, d.IsRounded sig r → InWord r.exponent

theorem roundsInWord_iff (hd : d = zero ∨ d.Normal) :
    d.RoundsInWord sig ↔ InWord (d.nearestSig sig).exponent := by
  have rounded := nearestSig_isRounded hd sig
  constructor
  · intro h
    exact h _ rounded
  · intro h r hr
    exact hr.unique rounded ▸ h

/-- A carry raises the exponent by no more than the number of digits. -/
theorem roundsInWord_of_lt (hd : d = zero ∨ d.Normal) (word : InWord d.exponent)
    (room : d.exponent + d.digitCount < 9223372036854775808) : d.RoundsInWord sig := by
  rw [roundsInWord_iff hd]
  rcases Nat.lt_or_ge (max sig 1) d.digitCount with long | short
  · obtain ⟨normal, j, place, bound⟩ := nearestSig_over (Normal.of_long hd long) sig
    have power : 10 ^ j ≤ 10 ^ max sig 1 :=
      (Nat.le_mul_of_pos_left _ normal.pos).trans bound
    have carry := (Nat.pow_le_pow_iff_right (by norm_num)).mp power
    unfold InWord at word ⊢
    unfold Decimal.place at place
    omega
  · rwa [nearestSig_of_count short]

theorem RoundsInWord.roundSig_eq (h : d.RoundsInWord sig) (hd : d = zero ∨ d.Normal) :
    d.roundSig sig = .ok (d.nearestSig sig) :=
  hold_of_inWord ((roundsInWord_iff hd).mp h)

end Decimal

end StackCalc
