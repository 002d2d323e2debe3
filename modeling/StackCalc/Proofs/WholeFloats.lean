import StackCalc.Proofs.ShownDigits
import StackCalc.Value.Rounding

/-! # Floats rounded to integers

A float whose digits are whole is left as it is, and every other one becomes the integer that the
number it is shown as is rounded to. -/

namespace StackCalc

namespace RoundingMode

variable {p q : Rat}

/-! ## 1. Integers -/

theorem down_apply (q : Rat) : down.apply q = ⌊q⌋ := rfl

theorem up_apply (q : Rat) : up.apply q = ⌈q⌉ := by
  have opposite : (-q).floor = -⌈q⌉ := Int.floor_neg (a := q)
  rw [apply, Rat.ceil_eq_neg_floor_neg, opposite, neg_neg]

theorem towardZero_apply (h : 0 ≤ q) : towardZero.apply q = ⌊q⌋ := by
  rw [apply, Rounding.truncate, Int.tdiv_eq_ediv_of_nonneg (Rat.num_nonneg.mpr h), Rat.floor_def']

theorem nearest_apply (h : 0 ≤ q) : nearest.apply q = round q := by
  have sign := Rat.num_nonneg.mpr h
  have unsigned : (q.num.natAbs : Rat) = q.num := by
    rw [Nat.cast_natAbs, abs_of_nonneg sign]
  rw [apply, Rounding.nearest, if_neg sign.not_gt, Rounding.halfUp_eq_round _ q.den_pos, unsigned,
    Rat.num_div_den]

/-- The mode that rounds opposite numbers to opposite integers. -/
def opposite : RoundingMode → RoundingMode
  | down => up
  | up => down
  | mode => mode

theorem apply_neg (mode : RoundingMode) (q : Rat) : mode.apply (-q) = -mode.opposite.apply q := by
  cases mode with
  | towardZero =>
    show Rounding.truncate (-q) = -Rounding.truncate q
    rw [Rounding.truncate, Rounding.truncate, Rat.neg_num, Rat.neg_den, Int.neg_tdiv]
  | down =>
    rw [down_apply, opposite, up_apply]
    exact Int.floor_neg
  | up =>
    rw [up_apply, opposite, down_apply]
    exact Int.ceil_neg
  | nearest =>
    show Rounding.nearest (-q) = -Rounding.nearest q
    unfold Rounding.nearest
    simp only [Rat.neg_num, Rat.neg_den, Int.natAbs_neg]
    rcases lt_trichotomy q.num 0 with negative | zero | positive
    · rw [if_neg (by omega), if_pos negative, neg_neg]
    · rw [Rat.num_eq_zero.mp zero]
      rfl
    · rw [if_pos (by omega), if_neg (by omega)]

theorem apply_mono_of_nonneg (mode : RoundingMode) (hp : 0 ≤ p) (h : p ≤ q) :
    mode.apply p ≤ mode.apply q := by
  cases mode with
  | towardZero =>
    rw [towardZero_apply hp, towardZero_apply (hp.trans h)]
    exact Int.floor_mono h
  | down => exact Int.floor_mono h
  | up =>
    rw [up_apply, up_apply]
    exact Int.ceil_mono h
  | nearest =>
    rw [nearest_apply hp, nearest_apply (hp.trans h)]
    exact Rounding.round_mono h

theorem apply_natCast (mode : RoundingMode) (n : Nat) : mode.apply n = n := by
  have hn : (0 : Rat) ≤ n := Nat.cast_nonneg n
  cases mode with
  | towardZero => exact (towardZero_apply hn).trans (Int.floor_natCast n)
  | down => exact Int.floor_natCast (R := Rat) n
  | up => exact (up_apply n).trans (Int.ceil_natCast n)
  | nearest => exact (nearest_apply hn).trans (round_natCast n)

theorem apply_intCast (mode : RoundingMode) (n : Int) : mode.apply n = n := by
  obtain ⟨k, rfl | rfl⟩ := n.eq_nat_or_neg
  · exact apply_natCast mode k
  · rw [Int.cast_neg, apply_neg, Int.cast_natCast, apply_natCast]

theorem apply_nonneg (mode : RoundingMode) (hq : 0 ≤ q) : 0 ≤ mode.apply q := by
  have := mode.apply_mono_of_nonneg le_rfl hq
  rwa [← Int.cast_zero, apply_intCast] at this

theorem apply_nonpos (mode : RoundingMode) (hq : q ≤ 0) : mode.apply q ≤ 0 := by
  have := mode.opposite.apply_nonneg (neg_nonneg.mpr hq)
  have flip := mode.apply_neg (-q)
  rw [neg_neg] at flip
  omega

/-- Rounding keeps the order. -/
theorem apply_mono (mode : RoundingMode) (h : p ≤ q) : mode.apply p ≤ mode.apply q := by
  rcases le_total 0 p with hp | hp
  · exact mode.apply_mono_of_nonneg hp h
  rcases le_total 0 q with hq | hq
  · exact (mode.apply_nonpos hp).trans (mode.apply_nonneg hq)
  · have order := mode.opposite.apply_mono_of_nonneg (neg_nonneg.mpr hq) (neg_le_neg h)
    have flip := mode.apply_neg (-p)
    have flip' := mode.apply_neg (-q)
    rw [neg_neg] at flip flip'
    omega

theorem natAbs_apply_le (mode : RoundingMode) {n : Nat} (h : |q| ≤ n) :
    (mode.apply q).natAbs ≤ n := by
  obtain ⟨below, above⟩ := abs_le.mp h
  have low := mode.apply_mono below
  have high := mode.apply_mono above
  rw [mode.apply_natCast] at high
  rw [← Int.cast_natCast, ← Int.cast_neg, mode.apply_intCast] at low
  omega

end RoundingMode

namespace MPFloat

variable {x y : MPFloat} {negative negative' : Bool} {r t : Rat} {u v : Decimal} {d : Nat}

/-! ## 2. What is shown and what is held -/

/-- The number that a finite float holds, with the bits that it is not shown with. -/
def stored (x : MPFloat) : Rat :=
  match x.value with
  | .finite z => z.toRat
  | .infinite _ => 0

/-- The float is an integer. -/
def IsInteger (x : MPFloat) : Prop := ∃ n : Int, x.stored = n

theorem stored_of_denotes (h : x.value.Denotes negative r) : x.stored = signed negative r := by
  obtain ⟨z, hz, value⟩ := h
  rw [stored, hz]
  exact value

theorem Held.extent_eq (h : x.Held) :
    x.value.extent = ((x.stored : WithTop Rat) : WithBot (WithTop Rat)) := by
  obtain ⟨digits, value⟩ := x
  cases value with
  | finite z => rfl
  | infinite s => exact absurd h.finite Bool.false_ne_true

theorem Held.compareWith_iff (hx : x.Held) (hy : y.Held) :
    x.compareWith y ≠ .gt ↔ x.stored ≤ y.stored := by
  rw [compareWith, ExtDyadic.compareWith_ne_gt_iff, hx.extent_eq, hy.extent_eq,
    WithBot.coe_le_coe, WithTop.coe_le_coe]

/-- A float as the operations leave it, of a width that is in range of the exponents. -/
structure Regular (x : MPFloat) : Prop extends x.Held where
  room : (width x.digits : Int) ≤ ExtDyadic.maxExponent

theorem Regular.width_le (h : x.Regular) : width x.digits ≤ 2147483647 := Int.ofNat_le.mp h.room

/-- A float is zero, or its digits are those of a number other than zero. -/
theorem Regular.view (h : x.Regular) :
    (x.stored = 0 ∧ x.toDecimal = some .zero ∧ x.shown = .zero) ∨
      (x.stored ≠ 0 ∧ ∃ v, x.Digits (decide (x.stored < 0)) |x.stored| v) := by
  rcases h.cases with zero | ⟨negative, r, value, float⟩
  · have found : x.toDecimal = some .zero := by
      rw [toDecimal, zero]
      rfl
    have none : Decimal.zero.digitCount ≤ max x.digits 1 := Nat.le_max_right _ _
    refine .inl ⟨?_, found, ?_⟩
    · rw [stored, zero]
      exact Dyadic.toRat_zero
    · rw [shown, found, Option.getD_some, Decimal.nearestSig_of_count none]
  · have stored := stored_of_denotes value
    have size : |x.stored| = r := stored ▸ abs_signed float.pos.le
    have sign : decide (x.stored < 0) = negative := by
      rw [Bool.eq_iff_iff, decide_eq_true_iff, stored, signed_neg_iff float.pos]
    rw [size, sign]
    exact .inr ⟨abs_pos.mp (size ▸ float.pos), exists_digits h.width_le value float⟩

theorem Regular.shown_form (h : x.Regular) :
    (∃ v, x.toDecimal = some v) ∧ (x.shown = .zero ∨ x.shown.Normal) := by
  rcases h.view with ⟨-, found, zero⟩ | ⟨-, v, digits⟩
  · exact ⟨⟨_, found⟩, .inl zero⟩
  · exact ⟨⟨v, digits.found⟩, .inr digits.normal⟩

theorem Regular.isIntegral_eq (h : x.Regular) : x.isIntegral = x.shown.isWhole := by
  obtain ⟨⟨v, found⟩, -⟩ := h.shown_form
  rw [isIntegral, shown, found]
  rfl

theorem Regular.isIntegral_iff (h : x.Regular) :
    x.isIntegral = true ↔ ∃ n : Int, x.shown.value = n := by
  rw [h.isIntegral_eq, Decimal.isWhole_iff h.shown_form.2]

theorem Regular.toRat?_eq (h : x.Regular) : x.toRat? = x.shown.toRat? := by
  obtain ⟨⟨v, found⟩, -⟩ := h.shown_form
  rw [toRat?, shown, found]
  rfl

/-- The digits of a float and what is made of them keep to the words of decimal numbers. So they may
be written as a text and read again, and what `format` shows is what is written with checks. -/
theorem Regular.inWords (h : x.Regular) : ∃ v, x.toDecimal = some v ∧
    (∀ precision, Decimal.parse (v.text precision) = .ok (some v)) ∧
    ∀ sig ≤ 4294967295, v.roundSig sig = .ok (v.nearestSig sig) ∧
      (v.nearestSig sig).render sig = .ok (x.format sig) := by
  have shown {v : Decimal} (found : x.toDecimal = some v) (sig : Nat) :
      x.format sig = (v.nearestSig sig).text sig := by
    rw [format, found]
  rcases h.view with ⟨-, found, -⟩ | ⟨-, v, digits⟩
  · have kept (sig : Nat) : Decimal.zero.nearestSig sig = .zero :=
      Decimal.nearestSig_of_count (Nat.le_max_right _ 1)
    refine ⟨_, found, Decimal.parse_text (.inl rfl) (by decide) (by decide), fun sig _ => ?_⟩
    rw [shown found, Decimal.roundSig, kept]
    exact ⟨rfl, rfl⟩
  · refine ⟨v, digits.found, fun precision => ?_, fun sig word => ?_⟩
    · exact (digits.inWords h.width_le precision (Nat.zero_le _)).1
    · rw [shown digits.found]
      exact (digits.inWords h.width_le sig word).2

/-- A float is not shown with the other sign. -/
theorem Regular.shown_sign (h : x.Regular) :
    (0 ≤ x.stored → 0 ≤ x.shown.value) ∧ (x.stored ≤ 0 → x.shown.value ≤ 0) := by
  rcases h.view with ⟨-, -, zero⟩ | ⟨nonzero, v, digits⟩
  · rw [zero, Decimal.value_of_mantissa rfl]
    exact ⟨fun _ => le_rfl, fun _ => le_rfl⟩
  · have unsigned := Decimal.magnitude_nonneg x.shown
    rw [digits.value, signed]
    rcases lt_or_gt_of_ne nonzero with negative | positive
    · rw [if_pos (decide_eq_true negative)]
      constructor <;> intro <;> linarith
    · rw [if_neg (by simpa using positive.le)]
      constructor <;> intro <;> linarith

/-- An integer of no more digits than the precision is shown as it is. -/
theorem Regular.shown_of_integer {n : Int} (h : x.Regular) (value : x.stored = n)
    (bound : n.natAbs ≤ 10 ^ max x.digits 1) : x.shown.value = n := by
  rcases h.view with ⟨zero, -, none⟩ | ⟨nonzero, v, digits⟩
  · rw [none, Decimal.value_of_mantissa rfl, ← value, zero]
  · rw [value] at nonzero digits
    have positive : 0 < n.natAbs := Int.natAbs_pos.mpr (by exact_mod_cast nonzero)
    have sign : decide ((n : Rat) < 0) = decide (n < 0) := by simp
    have size : ((n.natAbs : Nat) : Rat) = |(n : Rat)| := by rw [Nat.cast_natAbs, Int.cast_abs]
    obtain ⟨u, normal, negative, magnitude, count⟩ :=
      Decimal.exists_natCast (decide ((n : Rat) < 0)) (Nat.le_max_right x.digits 1) positive bound
    rw [digits.eq_of_count normal negative (magnitude.trans size) count, Decimal.value, negative,
      magnitude, sign, signed_natAbs]

/-- An integer of no more digits than the precision becomes a float without being rounded. -/
theorem regular_ofInt {n : Int} (room : (width d : Int) ≤ ExtDyadic.maxExponent)
    (bound : n.natAbs ≤ 10 ^ max d 1) : (ofInt n d).Regular ∧ (ofInt n d).stored = n := by
  rcases eq_or_ne n 0 with rfl | nonzero
  · refine ⟨⟨⟨rfl, rfl⟩, room⟩, ?_⟩
    exact Dyadic.toRat_zero.trans Int.cast_zero.symm
  have positive : 0 < n.natAbs := Int.natAbs_pos.mpr nonzero
  have bits : n.natAbs < 2 ^ width d := bound.trans_lt (guards (Int.ofNat_le.mp room)).2.2
  have small : (n.natAbs : Rat) < 2 ^ ExtDyadic.maxExponent := by
    have bits : (n.natAbs : Rat) < 2 ^ (width d : Int) := by
      rw [zpow_natCast]
      exact_mod_cast bits
    exact bits.trans_le (zpow_le_zpow_right₀ one_le_two room)
  have float := IsFloat.natCast positive bits small
  have denotes : (ofInt n d).value.Denotes (decide (n < 0)) n.natAbs :=
    ExtDyadic.nearestInt_exact float (by rw [zpow_zero, mul_one, signed_natAbs])
  refine ⟨⟨⟨?_, ?_⟩, room⟩, ?_⟩
  · obtain ⟨z, hz, -⟩ := denotes
    rw [isFinite, hz]
    rfl
  · exact congrArg (MPFloat.mk d) (ExtDyadic.round_exact float denotes)
  · rw [stored_of_denotes denotes, signed_natAbs]

/-! ## 3. Order -/

/-- The smaller one of two floats of one precision is not rounded to the larger integer. -/
theorem Regular.apply_mono (mode : RoundingMode) (hx : x.Regular) (hy : y.Regular)
    (same : y.digits = x.digits) (le : x.stored ≤ y.stored) :
    mode.apply x.shown.value ≤ mode.apply y.shown.value := by
  rcases le_or_gt x.stored 0 with below | positive
  · rcases le_or_gt 0 y.stored with above | negative
    · exact mode.apply_mono ((hx.shown_sign.2 below).trans (hy.shown_sign.1 above))
    · have lower : x.stored < 0 := le.trans_lt negative
      obtain ⟨v, dx⟩ := (hx.view.resolve_left fun zero => lower.ne zero.1).2
      obtain ⟨u, dy⟩ := (hy.view.resolve_left fun zero => negative.ne zero.1).2
      rw [dx.value, dy.value, decide_eq_true lower, decide_eq_true negative]
      refine mode.apply_mono (neg_le_neg (dy.mono dx same.symm hy.width_le ?_))
      rw [abs_of_neg negative, abs_of_neg lower]
      exact neg_le_neg le
  · have upper : 0 < y.stored := positive.trans_le le
    obtain ⟨v, dx⟩ := (hx.view.resolve_left fun zero => positive.ne' zero.1).2
    obtain ⟨u, dy⟩ := (hy.view.resolve_left fun zero => upper.ne' zero.1).2
    rw [dx.value, dy.value, decide_eq_false positive.not_gt, decide_eq_false upper.not_gt]
    refine mode.apply_mono (dx.mono dy same hx.width_le ?_)
    rwa [abs_of_pos positive, abs_of_pos upper]

/-- An integer of no more digits than the precision that bounds a float bounds its rounding. -/
theorem Regular.apply_bound (mode : RoundingMode) (h : x.Regular) {k : Int}
    (bound : k.natAbs ≤ 10 ^ max x.digits 1) :
    (k ≤ x.stored → k ≤ mode.apply x.shown.value) ∧
      (x.stored ≤ k → mode.apply x.shown.value ≤ k) := by
  obtain ⟨regular, value⟩ := regular_ofInt h.room bound
  have shown : (ofInt k x.digits).shown.value = k := regular.shown_of_integer value bound
  constructor
  · intro below
    have order := regular.apply_mono mode h rfl (value ▸ below)
    rwa [shown, mode.apply_intCast] at order
  · intro above
    have order := h.apply_mono mode regular rfl (value ▸ above)
    rwa [shown, mode.apply_intCast] at order

/-! ## 4. Floats that do not look whole -/

/-- What is shown with a fraction has no more digits than the precision before the point. -/
theorem Regular.shown_lt (h : x.Regular) (fraction : x.isIntegral ≠ true) :
    |x.shown.value| < 10 ^ max x.digits 1 := by
  rw [h.isIntegral_eq] at fraction
  rcases h.view with ⟨-, -, zero⟩ | ⟨-, v, digits⟩
  · rw [zero] at fraction
    exact absurd rfl fraction
  · rw [Decimal.value, abs_signed (Decimal.magnitude_nonneg _)]
    exact not_le.mp fun large =>
      fraction (Decimal.isWhole_of_le digits.normal digits.count_le large)

/-- Nor has the float itself, since a power of ten that bounds it would bound what is shown. -/
theorem Regular.stored_lt (h : x.Regular) (fraction : x.isIntegral ≠ true) :
    |x.stored| < 10 ^ max x.digits 1 := by
  refine not_le.mp fun large => (h.shown_lt fraction).not_ge ?_
  rw [le_abs] at large ⊢
  rcases large with above | below
  · have bound := (h.apply_bound .down (k := 10 ^ max x.digits 1)
      (by rw [Int.natAbs_pow]; rfl)).1 (by exact_mod_cast above)
    exact .inl (by exact_mod_cast Int.le_floor.mp bound)
  · have bound := (h.apply_bound .up (k := -10 ^ max x.digits 1)
      (by rw [Int.natAbs_neg, Int.natAbs_pow]; rfl)).2 (by push_cast; linarith)
    rw [RoundingMode.up_apply, Int.ceil_le] at bound
    push_cast at bound
    exact .inr (by linarith)

theorem Regular.natAbs_apply_le (mode : RoundingMode) (h : x.Regular)
    (fraction : x.isIntegral ≠ true) :
    (mode.apply x.shown.value).natAbs ≤ 10 ^ max x.digits 1 :=
  RoundingMode.natAbs_apply_le mode (by exact_mod_cast (h.shown_lt fraction).le)

/-- Every integer that bounds such a float bounds its rounding. -/
theorem Regular.apply_bound_of_fraction (mode : RoundingMode) (h : x.Regular)
    (fraction : x.isIntegral ≠ true) (m : Int) :
    (m ≤ x.stored → m ≤ mode.apply x.shown.value) ∧
      (x.stored ≤ m → mode.apply x.shown.value ≤ m) := by
  by_cases bound : m.natAbs ≤ 10 ^ max x.digits 1
  · exact h.apply_bound mode bound
  have rounded := h.natAbs_apply_le mode fraction
  obtain ⟨low, high⟩ := abs_lt.mp (h.stored_lt fraction)
  constructor
  · intro below
    have : m < (10 ^ max x.digits 1 : Nat) := by exact_mod_cast below.trans_lt high
    omega
  · intro above
    have : -((10 ^ max x.digits 1 : Nat) : Int) < m := by exact_mod_cast low.trans_le above
    omega

/-! ## 5. Results -/

theorem Regular.roundFloat_eq (op : String) (mode : RoundingMode) (h : x.Regular) :
    Value.roundFloat op mode x =
      if x.isIntegral then .ok x
      else if x.shown.exponent.natAbs ≤ Decimal.maxExponent then
        .ok (.ofInt (mode.apply x.shown.value) x.digits)
      else .error (.domain (.inexact op x.text)) := by
  unfold Value.roundFloat
  refine if_congr Iff.rfl rfl ?_
  unfold Value.exactFraction
  rw [h.toRat?_eq]
  by_cases inReach : x.shown.exponent.natAbs ≤ Decimal.maxExponent
  · rw [Decimal.toRat?_eq inReach, if_pos inReach]
    rfl
  · rw [Decimal.toRat?_eq_none (not_le.mp inReach), if_neg inReach]
    rfl

/-- A float is rounded if it looks whole or its last digit is not too far behind the point. -/
theorem Regular.roundFloat_isOk (op : String) (mode : RoundingMode) (h : x.Regular) :
    (Value.roundFloat op mode x).isOk ↔
      x.isIntegral = true ∨ x.shown.exponent.natAbs ≤ Decimal.maxExponent := by
  rw [h.roundFloat_eq op mode]
  split
  · rename_i whole
    exact iff_of_true rfl (.inl whole)
  · rename_i fraction
    split
    · rename_i inReach
      exact iff_of_true rfl (.inr inReach)
    · rename_i far
      exact iff_of_false Bool.false_ne_true (not_or.mpr ⟨fraction, far⟩)

/-- What a float is rounded to: a float of the same precision that looks whole, which is the float
itself if that looks whole and an integer otherwise. -/
structure Rounded (mode : RoundingMode) (x y : MPFloat) : Prop where
  regular : y.Regular
  digits : y.digits = x.digits
  whole : y.isIntegral = true
  shown : y.shown.value = mode.apply x.shown.value
  kept : x.isIntegral = true → y = x
  exact : x.isIntegral ≠ true → y.stored = mode.apply x.shown.value

theorem Regular.rounded {op : String} {mode : RoundingMode} (h : x.Regular)
    (run : Value.roundFloat op mode x = .ok y) : x.Rounded mode y := by
  rw [h.roundFloat_eq op mode] at run
  split at run
  · rename_i whole
    cases run
    obtain ⟨n, hn⟩ := h.isIntegral_iff.mp whole
    refine ⟨h, rfl, whole, ?_, fun _ => rfl, fun fraction => absurd whole fraction⟩
    rw [hn, mode.apply_intCast]
  · rename_i fraction
    split at run
    · cases run
      have bound := h.natAbs_apply_le mode fraction
      obtain ⟨regular, value⟩ := regular_ofInt h.room bound
      have shown := regular.shown_of_integer value bound
      exact ⟨regular, rfl, regular.isIntegral_iff.mpr ⟨_, shown⟩, shown,
        fun whole => absurd whole fraction, fun _ => value⟩
    · cases run

namespace Rounded

variable {mode : RoundingMode} {x' y' : MPFloat}

/-- Results that are not in order but are shown in order look alike. -/
theorem alike (hy : x.Rounded mode y) (hy' : x'.Rounded mode y') (same : x'.digits = x.digits)
    (order : mode.apply x.shown.value ≤ mode.apply x'.shown.value)
    (crossed : y'.stored < y.stored) : y.shown = y'.shown := by
  have digits : y.digits = y'.digits := hy.digits.trans (same.symm.trans hy'.digits.symm)
  have back := hy'.regular.apply_mono mode hy.regular digits crossed.le
  rw [hy.shown, hy'.shown, mode.apply_intCast, mode.apply_intCast] at back
  refine Decimal.eq_of_value hy.regular.shown_form.2 hy'.regular.shown_form.2 ?_
  rw [hy.shown, hy'.shown, le_antisymm order back]

/-- The results of two floats are in their order. The exception is a float that looks whole without
being an integer beside one that does not look whole, and then both results look alike. -/
theorem order (hy : x.Rounded mode y) (hy' : x'.Rounded mode y') (hx : x.Regular)
    (hx' : x'.Regular) (same : x'.digits = x.digits) (le : x.stored ≤ x'.stored) :
    y.stored ≤ y'.stored ∨
      x.isIntegral ≠ x'.isIntegral ∧ ¬ (y.IsInteger ∧ y'.IsInteger) ∧ y.shown = y'.shown := by
  rw [or_iff_not_imp_left, not_le]
  intro crossed
  have order := hx.apply_mono mode hx' same le
  by_cases whole : x.isIntegral = true <;> by_cases whole' : x'.isIntegral = true
  · rw [hy.kept whole, hy'.kept whole'] at crossed
    exact absurd le crossed.not_ge
  · refine ⟨fun h => whole' (h.symm.trans whole), ?_, hy.alike hy' same order crossed⟩
    rintro ⟨⟨m, hm⟩, -⟩
    have kept := hy.kept whole
    subst kept
    have bound := (hx'.apply_bound_of_fraction mode whole' m).1 (hm.symm.trans_le le)
    rw [hm, hy'.exact whole'] at crossed
    exact crossed.not_ge (by exact_mod_cast bound)
  · refine ⟨fun h => whole (h.trans whole'), ?_, hy.alike hy' same order crossed⟩
    rintro ⟨-, ⟨m, hm⟩⟩
    have kept := hy'.kept whole'
    subst kept
    have bound := (hx.apply_bound_of_fraction mode whole m).2 (le.trans_eq hm)
    rw [hm, hy.exact whole] at crossed
    exact crossed.not_ge (by exact_mod_cast bound)
  · rw [hy.exact whole, hy'.exact whole'] at crossed
    exact absurd order (not_le.mpr (by exact_mod_cast crossed))

end Rounded
end MPFloat

namespace Value

variable {x x' : MPFloat}

/-- Rounding a float to an integer gives a float of its precision unless the float does not look
whole and its last digit is too far behind the point. The result looks whole, is shown as the
integer that the shown number is rounded to, is that integer if the float does not look whole and
the float itself otherwise, and is not changed by rounding it again. The larger one of two floats of
one precision does not have the smaller result, unless just one of them looks whole and the results
are not both integers, and then the two look alike. -/
theorem round_float (op : String) (mode : RoundingMode) (hx : x.Regular) (hx' : x'.Regular)
    (same : x'.digits = x.digits) :
    ((round op mode (float x)).isOk ↔
        x.isIntegral = true ∨ x.shown.exponent.natAbs ≤ Decimal.maxExponent) ∧
      ∀ v, round op mode (float x) = .ok v → ∃ y, v = float y ∧ x.Rounded mode y ∧
        round op mode v = .ok v ∧
        ∀ y', round op mode (float x') = .ok (float y') → x.compareWith x' ≠ .gt →
          y.compareWith y' ≠ .gt ∨
            x.isIntegral ≠ x'.isIntegral ∧ ¬ (y.IsInteger ∧ y'.IsInteger) ∧ y.shown = y'.shown := by
  have run (f : MPFloat) : round op mode (float f) = (roundFloat op mode f).map float := rfl
  constructor
  · rw [← hx.roundFloat_isOk op mode, run]
    cases roundFloat op mode x <;> rfl
  · intro v hv
    obtain ⟨y, hy, rfl⟩ := map_eq_ok.mp hv
    have rounded := hx.rounded hy
    refine ⟨y, rfl, rounded, ?_, fun y' hy' le => ?_⟩
    · rw [run, roundFloat, if_pos rounded.whole]
      rfl
    · obtain ⟨z, hz, result⟩ := map_eq_ok.mp hy'
      cases result
      have rounded' := hx'.rounded hz
      rw [rounded.regular.compareWith_iff rounded'.regular.toHeld]
      exact rounded.order rounded' hx hx' same ((hx.compareWith_iff hx'.toHeld).mp le)

theorem round_of_roundFloat {op : String} {mode : RoundingMode} {y : MPFloat}
    (h : roundFloat op mode x = .ok y) : round op mode (float x) = .ok (float y) :=
  congrArg (Except.map float) h

/-- Two floats that do not look whole. -/
theorem round_float_halves :
    MPFloat.Rounded .up ⟨3, .finite (.ofIntWithPrec 5 1)⟩ (.ofInt 3 3) ∧
      (MPFloat.ofInt 3 3).compareWith (.ofInt 4 3) ≠ .gt := by
  have hx : MPFloat.Regular ⟨3, .finite (.ofIntWithPrec 5 1)⟩ :=
    ⟨⟨rfl, by decide +kernel⟩, by decide +kernel⟩
  have hx' : MPFloat.Regular ⟨3, .finite (.ofIntWithPrec 7 1)⟩ :=
    ⟨⟨rfl, by decide +kernel⟩, by decide +kernel⟩
  have three : roundFloat "ceil" .up ⟨3, .finite (.ofIntWithPrec 5 1)⟩ = .ok (.ofInt 3 3) := by
    decide +kernel
  have four : roundFloat "ceil" .up ⟨3, .finite (.ofIntWithPrec 7 1)⟩ = .ok (.ofInt 4 3) := by
    decide +kernel
  obtain ⟨y, same, rounded, -, order⟩ :=
    (round_float "ceil" .up hx hx' rfl).2 _ (round_of_roundFloat three)
  cases same
  refine ⟨rounded, (order _ (round_of_roundFloat four) (by decide +kernel)).resolve_right ?_⟩
  rintro ⟨differ, -⟩
  exact differ (by decide +kernel)

/-- A float that is shown as one is left as it is, although it is not an integer, and then the
result of a larger float is below it. -/
theorem floor_not_integer :
    MPFloat.Regular ⟨2, .finite (.ofIntWithPrec 33 5)⟩ ∧
      ¬ MPFloat.IsInteger ⟨2, .finite (.ofIntWithPrec 33 5)⟩ ∧
      round "floor" .down (float ⟨2, .finite (.ofIntWithPrec 33 5)⟩) =
        .ok (float ⟨2, .finite (.ofIntWithPrec 33 5)⟩) ∧
      round "floor" .down (float ⟨2, .finite (.ofIntWithPrec 3 1)⟩) = .ok (float (.ofInt 1 2)) ∧
      MPFloat.compareWith ⟨2, .finite (.ofIntWithPrec 33 5)⟩ ⟨2, .finite (.ofIntWithPrec 3 1)⟩ =
        .lt ∧
      MPFloat.compareWith ⟨2, .finite (.ofIntWithPrec 33 5)⟩ (.ofInt 1 2) = .gt := by
  refine ⟨⟨⟨rfl, by decide +kernel⟩, by decide +kernel⟩, ?_,
    round_of_roundFloat (by decide +kernel), round_of_roundFloat (by decide +kernel),
    by decide +kernel, by decide +kernel⟩
  rintro ⟨n, hn⟩
  have fraction : (MPFloat.stored ⟨2, .finite (.ofIntWithPrec 33 5)⟩).den = 32 := by
    decide +kernel
  rw [hn, Rat.den_intCast] at fraction
  cases fraction

end Value
end StackCalc
