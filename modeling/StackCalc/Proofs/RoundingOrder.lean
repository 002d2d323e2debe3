import Mathlib.Order.WithBot
import StackCalc.Proofs.RoundedRoots

/-! # The order of rounded numbers

Dyadic numbers and the two infinities are ordered as numbers, and the comparison of the calculator
is that order. Rounding keeps it: the larger of two numbers never has the smaller rounding, and a
number that is a float already is not crossed by the rounding of another one. -/

namespace StackCalc

namespace ExtDyadic

variable {w n d n' d' m m' : Nat} {e e' c c' : Int} {x y : ExtDyadic} {r t : Rat}
  {negative : Bool}

/-! ## 1. The order -/

/-- A dyadic number or an infinity among the numbers with an end at both sides. -/
def extent : ExtDyadic → WithBot (WithTop Rat)
  | finite x => ((x.toRat : WithTop Rat) : WithBot (WithTop Rat))
  | infinite negative => if negative then ⊥ else ⊤

theorem extent_finite_le {a b : Dyadic} :
    (finite a).extent ≤ (finite b).extent ↔ a.toRat ≤ b.toRat := by
  rw [extent, extent, WithBot.coe_le_coe, WithTop.coe_le_coe]

theorem extent_finite_lt {a b : Dyadic} :
    (finite a).extent < (finite b).extent ↔ a.toRat < b.toRat := by
  rw [extent, extent, WithBot.coe_lt_coe, WithTop.coe_lt_coe]

theorem extent_finite_ne_top (a : Dyadic) : (finite a).extent ≠ ⊤ := fun h =>
  WithTop.coe_ne_top (WithBot.coe_injective h)

theorem extent_injective : Function.Injective extent := by
  intro x y h
  cases x with
  | finite a =>
    cases y with
    | finite b =>
      exact congrArg finite (Dyadic.toRat_inj.mp (le_antisymm
        (extent_finite_le.mp h.le) (extent_finite_le.mp h.ge)))
    | infinite t =>
      cases t with
      | true => exact absurd h WithBot.coe_ne_bot
      | false => exact absurd h (extent_finite_ne_top a)
  | infinite s =>
    cases y with
    | finite b =>
      cases s with
      | true => exact absurd h.symm WithBot.coe_ne_bot
      | false => exact absurd h.symm (extent_finite_ne_top b)
    | infinite t => cases s <;> cases t <;> first | rfl | cases h

theorem lead_spec {z : Dyadic} (nonzero : z ≠ 0) :
    (2 : Rat) ^ lead z ≤ |z.toRat| ∧ |z.toRat| < 2 ^ (lead z + 1) := by
  have natural : 0 < (numerator z).natAbs :=
    Int.natAbs_pos.mpr (mt numerator_eq_zero_iff.mp nonzero)
  obtain ⟨low, high⟩ := Rounding.two_pow_log2 natural
  have unit : (0 : Rat) < 2 ^ scale z := by positivity
  have size : |z.toRat| = (numerator z).natAbs * 2 ^ scale z := by
    rw [toRat_eq, abs_mul, abs_of_pos unit, Nat.cast_natAbs, Int.cast_abs]
  rw [size, lead, add_right_comm, zpow_add₀ two_ne_zero, zpow_add₀ two_ne_zero _ (scale z)]
  exact ⟨mul_le_mul_of_nonneg_right low unit.le, mul_lt_mul_of_pos_right high unit⟩

theorem compare_eq_compare {α β : Type} [LinearOrder α] [LinearOrder β] {a b : α} {c d : β}
    (less : a < b ↔ c < d) (more : b < a ↔ d < c) : compare a b = compare c d := by
  rcases lt_trichotomy a b with h | h | h
  · rw [compare_lt_iff_lt.mpr h, compare_lt_iff_lt.mpr (less.mp h)]
  · have same : c = d := le_antisymm (not_lt.mp fun gt => (more.mpr gt).ne' h)
      (not_lt.mp fun lt => (less.mpr lt).ne h)
    rw [compare_eq_iff_eq.mpr h, compare_eq_iff_eq.mpr same]
  · rw [compare_gt_iff_gt.mpr h, compare_gt_iff_gt.mpr (more.mp h)]

theorem comparePositive_eq {a b : Dyadic} (ha : 0 < a.toRat) (hb : 0 < b.toRat) :
    comparePositive a b = compare a.toRat b.toRat := by
  have nonzero {z : Dyadic} (hz : 0 < z.toRat) : z ≠ 0 := by
    rintro rfl
    exact absurd hz (by rw [Dyadic.toRat_zero]; exact lt_irrefl 0)
  obtain ⟨lowA, highA⟩ := lead_spec (nonzero ha)
  obtain ⟨lowB, highB⟩ := lead_spec (nonzero hb)
  rw [abs_of_pos ha] at lowA highA
  rw [abs_of_pos hb] at lowB highB
  unfold comparePositive
  split
  · rename_i below
    have step : (2 : Rat) ^ (lead a + 1) ≤ 2 ^ lead b :=
      zpow_le_zpow_right₀ one_le_two (by omega)
    exact (compare_lt_iff_lt.mpr (by linarith)).symm
  split
  · rename_i above
    have step : (2 : Rat) ^ (lead b + 1) ≤ 2 ^ lead a :=
      zpow_le_zpow_right₀ one_le_two (by omega)
    exact (compare_gt_iff_gt.mpr (by linarith)).symm
  · have unit : (0 : Rat) < 2 ^ min (scale a) (scale b) := by positivity
    dsimp only
    rw [← toRat_over (min_le_left (scale a) (scale b)),
      ← toRat_over (min_le_right (scale a) (scale b))]
    refine compare_eq_compare ?_ ?_
    · rw [mul_lt_mul_iff_left₀ unit]
      exact Int.cast_lt.symm
    · rw [mul_lt_mul_iff_left₀ unit]
      exact Int.cast_lt.symm

theorem sign_cases (z : Dyadic) : (numerator z).sign = -1 ∧ z.toRat < 0 ∨
    (numerator z).sign = 0 ∧ z.toRat = 0 ∨ (numerator z).sign = 1 ∧ 0 < z.toRat := by
  have unit : (0 : Rat) < 2 ^ scale z := by positivity
  rcases lt_trichotomy (numerator z) 0 with negative | zero | positive
  · exact .inl ⟨Int.sign_eq_neg_one_of_neg negative, numerator_neg_iff.mp negative⟩
  · refine .inr (.inl ⟨by rw [zero]; rfl, ?_⟩)
    rw [toRat_eq, zero, Int.cast_zero, zero_mul]
  · refine .inr (.inr ⟨Int.sign_eq_one_of_pos positive, ?_⟩)
    rw [toRat_eq]
    exact mul_pos (by exact_mod_cast positive) unit

theorem compareWith_finite (a b : Dyadic) :
    compareWith (finite a) (finite b) = compare a.toRat b.toRat := by
  unfold compareWith
  dsimp only
  rcases sign_cases a with ⟨sa, ha⟩ | ⟨sa, ha⟩ | ⟨sa, ha⟩ <;>
    rcases sign_cases b with ⟨sb, hb⟩ | ⟨sb, hb⟩ | ⟨sb, hb⟩ <;> rw [sa, sb]
  · show comparePositive (-b) (-a) = _
    rw [comparePositive_eq (by rw [Dyadic.toRat_neg]; linarith)
      (by rw [Dyadic.toRat_neg]; linarith), Dyadic.toRat_neg, Dyadic.toRat_neg]
    exact compare_eq_compare neg_lt_neg_iff neg_lt_neg_iff
  · exact (compare_lt_iff_lt.mpr (by linarith)).symm
  · exact (compare_lt_iff_lt.mpr (by linarith)).symm
  · exact (compare_gt_iff_gt.mpr (by linarith)).symm
  · exact (compare_eq_iff_eq.mpr (ha.trans hb.symm)).symm
  · exact (compare_lt_iff_lt.mpr (by linarith)).symm
  · exact (compare_gt_iff_gt.mpr (by linarith)).symm
  · exact (compare_gt_iff_gt.mpr (by linarith)).symm
  · exact comparePositive_eq ha hb

/-- The comparison is that of the numbers. -/
theorem compareWith_eq (x y : ExtDyadic) : x.compareWith y = compare x.extent y.extent := by
  have bot_lt (a : Dyadic) : (⊥ : WithBot (WithTop Rat)) < (finite a).extent :=
    bot_lt_iff_ne_bot.mpr WithBot.coe_ne_bot
  have lt_top (a : Dyadic) : (finite a).extent < (⊤ : WithBot (WithTop Rat)) :=
    lt_top_iff_ne_top.mpr (extent_finite_ne_top a)
  cases x with
  | finite a =>
    cases y with
    | finite b =>
      rw [compareWith_finite]
      exact compare_eq_compare extent_finite_lt.symm extent_finite_lt.symm
    | infinite t =>
      cases t with
      | true => exact (compare_gt_iff_gt.mpr (bot_lt a)).symm
      | false => exact (compare_lt_iff_lt.mpr (lt_top a)).symm
  | infinite s =>
    cases y with
    | finite b =>
      cases s with
      | true => exact (compare_lt_iff_lt.mpr (bot_lt b)).symm
      | false => exact (compare_gt_iff_gt.mpr (lt_top b)).symm
    | infinite t =>
      have ends : (⊥ : WithBot (WithTop Rat)) < ⊤ := bot_lt_top
      cases s <;> cases t
      · exact (compare_eq_iff_eq.mpr rfl).symm
      · exact (compare_gt_iff_gt.mpr ends).symm
      · exact (compare_lt_iff_lt.mpr ends).symm
      · exact (compare_eq_iff_eq.mpr rfl).symm

theorem compareWith_swap (x y : ExtDyadic) : (x.compareWith y).swap = y.compareWith x := by
  rw [compareWith_eq, compareWith_eq]
  exact Std.OrientedCmp.eq_swap.symm

theorem compareWith_eq_eq_iff : x.compareWith y = .eq ↔ x = y := by
  rw [compareWith_eq, compare_eq_iff_eq]
  exact extent_injective.eq_iff

theorem compareWith_ne_gt_iff : x.compareWith y ≠ .gt ↔ x.extent ≤ y.extent := by
  rw [compareWith_eq]
  exact compare_le_iff_le

theorem compareWith_lt_iff : x.compareWith y = .lt ↔ x.extent < y.extent := by
  rw [compareWith_eq]
  exact compare_lt_iff_lt

/-! ## 2. Signs -/

theorem extent_nonneg_iff : (finite 0).extent ≤ x.extent ↔ x.isNegative = false := by
  cases x with
  | finite a =>
    rw [extent_finite_le, Dyadic.toRat_zero, ← not_lt, ← numerator_neg_iff]
    exact decide_eq_false_iff_not.symm
  | infinite s =>
    cases s with
    | true => exact iff_of_false (bot_lt_iff_ne_bot.mpr WithBot.coe_ne_bot).not_ge nofun
    | false => exact iff_of_true le_top rfl

theorem neg_neg_eq (x : ExtDyadic) : x.neg.neg = x := by
  cases x with
  | finite a =>
    refine congrArg finite (Dyadic.toRat_inj.mp ?_)
    rw [Dyadic.toRat_neg, Dyadic.toRat_neg, neg_neg]
  | infinite s => exact congrArg infinite (Bool.not_not s)

theorem extent_neg_le (h : x.extent ≤ y.extent) : y.neg.extent ≤ x.neg.extent := by
  cases x with
  | finite a =>
    cases y with
    | finite b =>
      rw [neg, neg, extent_finite_le, Dyadic.toRat_neg, Dyadic.toRat_neg]
      exact neg_le_neg (extent_finite_le.mp h)
    | infinite t =>
      cases t with
      | true => exact absurd (le_bot_iff.mp h) WithBot.coe_ne_bot
      | false => exact bot_le
  | infinite s =>
    cases s with
    | true => exact le_top
    | false =>
      cases y with
      | finite b => exact absurd (top_le_iff.mp h) (extent_finite_ne_top b)
      | infinite t =>
        cases t with
        | true => exact absurd (le_bot_iff.mp h) top_ne_bot
        | false => exact le_rfl

theorem extent_of_denotes (h : x.Denotes false r) : x.extent = ((r : WithTop Rat) : WithBot _) := by
  obtain ⟨y, rfl, value⟩ := h
  rw [extent, value]
  rfl

/-! ## 3. Rounding keeps the order -/

theorem inRange_mono (hm : 0 < m) (hm' : 0 < m') (h : (m * 2 ^ c : Rat) ≤ m' * 2 ^ c') :
    (inRange false m c).extent ≤ (inRange false m' c').extent := by
  rcases inRange_cases false hm c with ⟨top, above⟩ | ⟨zero, below⟩ | ⟨number, low, high⟩ <;>
    rcases inRange_cases false hm' c' with ⟨top', -⟩ | ⟨zero', below'⟩ | ⟨number', low', high'⟩
  · rw [top, top']
  · have ends : (2 : Rat) ^ (-maxExponent - 1) ≤ 2 ^ maxExponent :=
      zpow_le_zpow_right₀ one_le_two (by decide)
    exact absurd (h.trans_lt below') (ends.trans above).not_gt
  · exact absurd (h.trans_lt high') above.not_gt
  · rw [top']
    exact le_top
  · rw [zero, zero']
  · rw [zero, extent_of_denotes number', extent, Dyadic.toRat_zero, WithBot.coe_le_coe,
      WithTop.coe_le_coe]
    positivity
  · rw [top']
    exact le_top
  · exact absurd (low.trans h) below'.not_ge
  · rw [extent_of_denotes number, extent_of_denotes number', WithBot.coe_le_coe,
      WithTop.coe_le_coe]
    exact h

/-- The larger of two numbers does not have the smaller rounding. -/
theorem nearest_mono (hw : 0 < w) (hd : 0 < d) (hd' : 0 < d')
    (h : (n : Rat) / d * 2 ^ e ≤ n' / d' * 2 ^ e') :
    (nearest w false n d e).extent ≤ (nearest w false n' d' e').extent := by
  rcases Nat.eq_zero_or_pos n with rfl | hn
  · exact extent_nonneg_iff.mpr (isNegative_nearest w n' d' e')
  have positive : (0 : Rat) < n / d * 2 ^ e := by positivity
  have hn' : 0 < n' := numerator_pos (positive.trans_le h) rfl
  obtain ⟨a, b, c, hb, rounded, value, low, high⟩ := nearest_quotient false w hn hd rfl
  obtain ⟨a', b', c', hb', rounded', value', low', high'⟩ := nearest_quotient false w hn' hd' rfl
  obtain ⟨large, small⟩ := Rounding.halfEven_between hw hb low high
  obtain ⟨large', small'⟩ := Rounding.halfEven_between hw hb' low' high'
  rw [rounded, rounded']
  refine inRange_mono (Rounding.pos_of_lead large) (Rounding.pos_of_lead large') ?_
  rw [← value, ← value'] at h
  have unit : (0 : Rat) < 2 ^ c := by positivity
  have unit' : (0 : Rat) < 2 ^ c' := by positivity
  rcases lt_trichotomy c c' with less | rfl | more
  · have step : (2 : Rat) * 2 ^ c ≤ 2 ^ c' := by
      rw [← zpow_one_add₀ two_ne_zero]
      exact zpow_le_zpow_right₀ one_le_two (by omega)
    have small : (Rounding.halfEven a b : Rat) ≤ 2 ^ w := by exact_mod_cast small
    have large' : (2 : Rat) ^ w ≤ 2 * Rounding.halfEven a' b' := by exact_mod_cast large'
    nlinarith
  · have order := Rounding.halfEven_mono hb hb' (le_of_mul_le_mul_right h unit)
    exact mul_le_mul_of_nonneg_right (by exact_mod_cast order) unit.le
  · -- the leading place of the smaller number is not above that of the larger one
    have step : (2 : Rat) * 2 ^ c' ≤ 2 ^ c := by
      rw [← zpow_one_add₀ two_ne_zero]
      exact zpow_le_zpow_right₀ one_le_two (by omega)
    have : (0 : Rat) < 2 ^ w := by positivity
    nlinarith

/-- A number that is above every float is infinite. -/
theorem nearest_eq_infinite (hw : 0 < w) (hd : 0 < d)
    (large : 2 ^ maxExponent ≤ (n / d * 2 ^ e : Rat)) :
    nearest w negative n d e = infinite negative := by
  have power : (0 : Rat) < 2 ^ maxExponent := by positivity
  have hn : 0 < n := numerator_pos (power.trans_le large) rfl
  obtain ⟨m, c, rounded, low, -, -, high, -⟩ := nearest_spec (e := e) negative hw hn hd rfl
  have place : maxExponent < w + c := by
    refine (zpow_lt_zpow_iff_right₀ (one_lt_two (α := Rat))).mp ?_
    rw [zpow_add₀ two_ne_zero, zpow_natCast]
    exact large.trans_lt high
  have lead : (2 : Rat) ^ w ≤ 2 * m := by exact_mod_cast low
  have above : (2 : Rat) ^ maxExponent ≤ m * 2 ^ c := by
    calc (2 : Rat) ^ maxExponent ≤ 2 ^ ((w : Int) + c - 1) :=
          zpow_le_zpow_right₀ one_le_two (by omega)
      _ = 2 ^ w / 2 * 2 ^ c := by
        rw [zpow_sub_one₀ two_ne_zero, zpow_add₀ two_ne_zero, zpow_natCast]
        ring
      _ ≤ m * 2 ^ c := by
        gcongr
        linarith
  have ends : (2 : Rat) ^ (-maxExponent - 1) ≤ 2 ^ maxExponent :=
    zpow_le_zpow_right₀ one_le_two (by decide)
  rcases inRange_cases negative (Rounding.pos_of_lead low) c with
    ⟨top, -⟩ | ⟨-, below⟩ | ⟨-, -, below⟩
  · exact rounded.trans top
  · exact absurd (ends.trans above) below.not_ge
  · exact absurd above below.not_ge

/-- A number that is far below every float is rounded to zero. -/
theorem nearest_eq_zero (hw : 0 < w) (hn : 0 < n) (hd : 0 < d)
    (small : 2 * (n / d * 2 ^ e : Rat) < 2 ^ (-maxExponent - 1)) :
    nearest w negative n d e = finite 0 := by
  obtain ⟨m, c, rounded, low, high, lead, -⟩ := nearest_spec (e := e) negative hw hn hd rfl
  have below : (m * 2 ^ c : Rat) < 2 ^ (-maxExponent - 1) := by
    have high : (m : Rat) ≤ 2 ^ w := by exact_mod_cast high
    calc (m * 2 ^ c : Rat) ≤ 2 ^ w * 2 ^ c := by gcongr
      _ ≤ 2 * (n / d * 2 ^ e) := lead
      _ < 2 ^ (-maxExponent - 1) := small
  have ends : (2 : Rat) ^ (-maxExponent - 1) ≤ 2 ^ maxExponent :=
    zpow_le_zpow_right₀ one_le_two (by decide)
  rcases inRange_cases negative (Rounding.pos_of_lead low) c with
    ⟨-, above⟩ | ⟨zero, -⟩ | ⟨-, large, -⟩
  · exact absurd (below.trans_le ends) above.not_gt
  · exact rounded.trans zero
  · exact absurd below large.not_gt

theorem nearest_neg (w n d : Nat) (e : Int) :
    nearest w true n d e = (nearest w false n d e).neg := by
  have range (m : Nat) (e : Int) : inRange true m e = (inRange false m e).neg := by
    unfold inRange
    dsimp only
    split
    · rfl
    split
    · rfl
    · refine congrArg finite (Dyadic.toRat_inj.mp ?_)
      rw [Dyadic.toRat_neg, toRat_scaled, toRat_scaled, if_pos rfl, if_neg Bool.false_ne_true]
      push_cast
      ring
  unfold nearest
  split
  · rfl
  · exact range _ _

theorem nearestInt_mono {m m' : Int} (hw : 0 < w) (h : (m : Rat) * 2 ^ e ≤ m' * 2 ^ e') :
    (nearestInt w m e).extent ≤ (nearestInt w m' e').extent := by
  have unit : (0 : Rat) < 2 ^ e := by positivity
  have unit' : (0 : Rat) < 2 ^ e' := by positivity
  have size (m : Int) : (m.natAbs : Rat) = |(m : Rat)| := by rw [Nat.cast_natAbs, Int.cast_abs]
  unfold nearestInt
  rcases lt_or_ge m 0 with sign | sign <;> rcases lt_or_ge m' 0 with sign' | sign'
  · rw [decide_eq_true sign, decide_eq_true sign', nearest_neg, nearest_neg]
    refine extent_neg_le (nearest_mono hw one_pos one_pos ?_)
    rw [size, size, abs_of_neg (Int.cast_lt_zero.mpr sign), abs_of_neg (Int.cast_lt_zero.mpr sign')]
    push_cast
    linarith
  · rw [decide_eq_true sign, decide_eq_false sign'.not_gt, nearest_neg]
    exact (extent_neg_le (extent_nonneg_iff.mpr (isNegative_nearest ..))).trans
      (extent_nonneg_iff.mpr (isNegative_nearest ..))
  · have : (m : Rat) * 2 ^ e < 0 :=
      h.trans_lt (mul_neg_of_neg_of_pos (by exact_mod_cast sign') unit')
    have : (0 : Rat) ≤ m * 2 ^ e := mul_nonneg (by exact_mod_cast sign) unit.le
    linarith
  · rw [decide_eq_false sign.not_gt, decide_eq_false sign'.not_gt]
    refine nearest_mono hw one_pos one_pos ?_
    rw [size, size, abs_of_nonneg (Int.cast_nonneg sign),
      abs_of_nonneg (Int.cast_nonneg sign')]
    push_cast
    linarith

theorem round_nearest (hw : 0 < w) (hd : 0 < d) (negative : Bool) (n : Nat) (e : Int) :
    round w (nearest w negative n d e) = nearest w negative n d e := by
  obtain ⟨x, rounded⟩ : ∃ x, nearest w negative n d e = x := ⟨_, rfl⟩
  rw [rounded]
  cases x with
  | infinite s => rfl
  | finite z =>
    by_cases zero : z = 0
    · rw [zero]
      rfl
    · obtain ⟨r, hr, value⟩ := exists_denotes zero
      exact round_exact (isFloat_of_nearest hw hd hr ⟨z, rounded, value⟩) ⟨z, rfl, value⟩

end ExtDyadic
end StackCalc
