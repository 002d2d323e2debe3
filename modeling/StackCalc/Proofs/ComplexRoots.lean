import StackCalc.Proofs.NegativeRoots

/-! # Roots of complex numbers

The parts of a complex root are real roots of half the sum and half the difference of the magnitude
and the real part. Neither of these is negative as long as the rounded magnitude does not fall below
the real part without its sign. It does not if the real part is squared at the width at which the
root is taken: the root of a rounded square is the number itself, and nothing that is added to the
square makes the root smaller. -/

namespace StackCalc

namespace ExtDyadic

variable {w n d : Nat} {e : Int} {x y s t : ExtDyadic} {z : Dyadic} {r : Rat} {sign : Bool}

/-! ## 1. Sums -/

theorem isNegative_nearestInt {m : Int} (hm : 0 ≤ m) : (nearestInt w m e).isNegative = false := by
  rw [nearestInt, decide_eq_false hm.not_gt]
  exact isNegative_nearest ..

theorem isNegative_round (h : x.isNegative = false) : (round w x).isNegative = false := by
  cases x with
  | finite a => exact isNegative_nearestInt (not_lt.mp (of_decide_eq_false h))
  | infinite s => exact h

theorem abs_lt_of_lead {a b : Dyadic} (ha : a ≠ 0) (hb : b ≠ 0) (less : lead a < lead b) :
    |a.toRat| < |b.toRat| := by
  have step : (2 : Rat) ^ (lead a + 1) ≤ 2 ^ lead b :=
    zpow_le_zpow_right₀ one_le_two (by omega)
  exact (lead_spec ha).2.trans_le (step.trans (lead_spec hb).1)

theorem lead_of_negligible {a b : Dyadic} (h : negligible w a b = true) : lead b < lead a := by
  have := of_decide_eq_true (Bool.and_eq_true_iff.mp h).2
  omega

/-- The sum of two dyadic numbers is the larger one by far, or rounded exactly. -/
theorem add_cases {a b : Dyadic} (ha : numerator a ≠ 0) (hb : numerator b ≠ 0)
    (sum : add w (finite a) (finite b) = some s) :
    s = finite a ∧ |b.toRat| < |a.toRat| ∨ s = finite b ∧ |a.toRat| < |b.toRat| ∨
      ∃ m e : Int, (m : Rat) * 2 ^ e = a.toRat + b.toRat ∧ s = nearestInt w m e := by
  have na : a ≠ 0 := mt numerator_eq_zero_iff.mpr ha
  have nb : b ≠ 0 := mt numerator_eq_zero_iff.mpr hb
  rw [add, if_neg ha, if_neg hb] at sum
  split at sum
  · rename_i small
    exact .inl ⟨(Option.some.inj sum).symm, abs_lt_of_lead nb na (lead_of_negligible small)⟩
  split at sum
  · rename_i small
    exact .inr (.inl ⟨(Option.some.inj sum).symm, abs_lt_of_lead na nb (lead_of_negligible small)⟩)
  · obtain ⟨m, e, value, rounded⟩ := aligned a b
    exact .inr (.inr ⟨m, e, value, (Option.some.inj sum).symm.trans (rounded w)⟩)

/-- A sum that is not negative is not rounded to a negative number. -/
theorem isNegative_add (h : y.neg.extent ≤ x.extent) (sum : add w x y = some s) :
    s.isNegative = false := by
  cases x with
  | finite a =>
    cases y with
    | finite b =>
      rw [neg, extent_finite_le, Dyadic.toRat_neg] at h
      have nonneg {c : Dyadic} (hc : 0 ≤ c.toRat) : (finite c).isNegative = false :=
        decide_eq_false (mt numerator_neg_iff.mp hc.not_gt)
      by_cases ha : numerator a = 0
      · rw [add, if_pos ha] at sum
        rw [numerator_eq_zero_iff.mp ha, Dyadic.toRat_zero] at h
        exact Option.some.inj sum ▸ isNegative_round (nonneg (by linarith))
      by_cases hb : numerator b = 0
      · rw [add, if_neg ha, if_pos hb] at sum
        rw [numerator_eq_zero_iff.mp hb, Dyadic.toRat_zero] at h
        exact Option.some.inj sum ▸ isNegative_round (nonneg (by linarith))
      rcases add_cases ha hb sum with ⟨rfl, less⟩ | ⟨rfl, less⟩ | ⟨m, e, value, rfl⟩
      · refine nonneg (not_lt.mp fun negative => ?_)
        rw [abs_of_neg negative] at less
        linarith [le_abs_self b.toRat]
      · refine nonneg (not_lt.mp fun negative => ?_)
        rw [abs_of_neg negative] at less
        linarith [le_abs_self a.toRat]
      · have unit : (0 : Rat) < 2 ^ e := by positivity
        have sum : (0 : Rat) ≤ m * 2 ^ e := by linarith
        refine isNegative_nearestInt ?_
        exact_mod_cast nonneg_of_mul_nonneg_left sum unit
    | infinite t =>
      cases sum
      cases t with
      | true => exact absurd (top_le_iff.mp h) (extent_finite_ne_top a)
      | false => rfl
  | infinite u =>
    cases u with
    | true =>
      have bottom := le_bot_iff.mp h
      cases y with
      | finite b => exact absurd bottom WithBot.coe_ne_bot
      | infinite t =>
        cases t with
        | true => exact absurd bottom top_ne_bot
        | false => cases sum
    | false =>
      cases y with
      | finite b =>
        cases sum
        rfl
      | infinite t =>
        cases t with
        | true => cases sum
        | false =>
          cases sum
          rfl

/-- What is added to a number of `w` bits does not make it smaller. -/
theorem le_add (kept : round w x = x) (hx : x.isNegative = false) (hy : y.isNegative = false)
    (hw : 0 < w) (sum : add w x y = some s) : x.extent ≤ s.extent := by
  have nonneg (c : ExtDyadic) (h : c.isNegative = false) : (finite 0).extent ≤ c.extent :=
    extent_nonneg_iff.mpr h
  cases x with
  | finite a =>
    have positive := nonneg _ hx
    rw [extent_finite_le, Dyadic.toRat_zero] at positive
    cases y with
    | finite b =>
      have other := nonneg _ hy
      rw [extent_finite_le, Dyadic.toRat_zero] at other
      by_cases ha : numerator a = 0
      · rw [add, if_pos ha] at sum
        rw [numerator_eq_zero_iff.mp ha]
        exact nonneg s (Option.some.inj sum ▸ isNegative_round hy)
      by_cases hb : numerator b = 0
      · rw [add, if_neg ha, if_pos hb, kept] at sum
        exact (congrArg extent (Option.some.inj sum)).le
      rcases add_cases ha hb sum with ⟨rfl, -⟩ | ⟨rfl, less⟩ | ⟨m, e, value, rfl⟩
      · exact le_rfl
      · rw [abs_of_nonneg positive, abs_of_nonneg other] at less
        exact extent_finite_le.mpr less.le
      · rw [← kept]
        refine nearestInt_mono hw ?_
        rw [← toRat_eq, value]
        linarith
    | infinite t =>
      cases sum
      cases t with
      | true => cases hy
      | false => exact le_top
  | infinite u =>
    cases u with
    | true => cases hx
    | false =>
      cases y with
      | finite b => cases sum; exact le_rfl
      | infinite t =>
        cases t with
        | true => cases sum
        | false =>
          cases sum
          exact le_rfl

/-! ## 2. Roots of numbers that are not below a square -/

/-- A number above the midpoint below a float is not rounded to less than the float. -/
theorem le_nearest {a : Nat} {b : Int} (hw : 0 < w) (low : 2 ^ w ≤ 2 * a) (bits : a < 2 ^ w)
    (hd : 0 < d) (value : (n : Rat) / d * 2 ^ e = r) (least : (2 : Rat) ^ w * 2 ^ b ≤ 2 * r)
    (above : (a : Rat) * 2 ^ b - 2 ^ b / 2 < r) :
    (inRange false a b).extent ≤ (nearest w false n d e).extent := by
  have ha := Rounding.pos_of_lead low
  have unit : (0 : Rat) < 2 ^ b := by positivity
  have positive : 0 < r := by
    have : (0 : Rat) < 2 ^ w * 2 ^ b := by positivity
    linarith
  rcases le_or_gt (a * 2 ^ b : Rat) r with more | less
  · have same : nearest w false a 1 b = inRange false a b := by
      have lowest : (2 : Rat) ^ w ≤ 2 * a := by exact_mod_cast low
      refine nearest_eq ha one_pos rfl ?_ bits ?_ <;> rw [Nat.cast_one, div_one]
      · nlinarith
      · rw [sub_self, abs_zero]
        positivity
    rw [← same]
    refine nearest_mono hw one_pos hd ?_
    rwa [value, Nat.cast_one, div_one]
  · refine (congrArg extent (nearest_eq (numerator_pos positive value) hd value least bits ?_)).ge
    rw [abs_lt]
    constructor <;> linarith

/-- The root of a number above the square of a midpoint is not rounded to less than the next number
of `w` bits. -/
theorem le_sqrt {a : Nat} {b : Int} {y : Rat} (hw : 0 < w) (low : 2 ^ w ≤ 2 * a) (bits : a < 2 ^ w)
    (value : z.toRat = y * 2 ^ (2 * b)) (least : 2 ^ w * 2 ^ w ≤ 4 * y)
    (above : ((2 * a - 1) * (2 * a - 1) : Rat) < 4 * y) :
    ∃ q, sqrt w (finite z) = some q ∧ (inRange false a b).extent ≤ q.extent := by
  have power : (0 : Rat) < 2 ^ w := by positivity
  have positive : 0 < y := by nlinarith
  obtain ⟨m, h, radicand, enough, root⟩ := sqrt_eq w (mul_pos positive (by positivity)) value
  have unit : (0 : Rat) < 2 ^ h := by positivity
  have halved : (Rounding.doubleRoot m : Rat) / (1 : Nat) * 2 ^ (h - 1) =
      Rounding.doubleRoot m * 2 ^ h / 2 := by
    rw [zpow_sub_one₀ two_ne_zero]
    push_cast
    ring
  refine ⟨_, root, ?_⟩
  by_cases deep : h + 2 < b
  · obtain ⟨c, hc, counted, radicand⟩ := counted_of_deep radicand deep
    obtain ⟨i, hi⟩ : ∃ i, 2 * a = i + 1 := ⟨2 * a - 1, by omega⟩
    have hi : (2 * a : Rat) = i + 1 := by exact_mod_cast hi
    have lower := (Rounding.doubleRoot_counted hc radicand i).1 (by nlinarith)
    have leading := (Rounding.doubleRoot_counted hc radicand (2 ^ w)).2.2 (by push_cast; linarith)
    push_cast at leading
    refine le_nearest hw low bits one_pos halved ?_ ?_ <;> rw [counted]
    · have := mul_le_mul_of_nonneg_right leading unit.le
      linarith
    · have := mul_lt_mul_of_pos_right lower unit
      have middle : (a : Rat) * (2 * c * 2 ^ h) = (i + 1) * (c * 2 ^ h) := by
        rw [← hi]
        ring
      linarith
  · -- the root has more bits over a larger unit, so it is above all numbers of `w` bits
    have square : (2 ^ (w + 2) : Nat) * 2 ^ (w + 2) ≤ m := by
      have : ((2 ^ (w + 2) * 2 ^ (w + 2) : Nat) : Rat) * 2 ^ (2 * h) ≤ m * 2 ^ (2 * h) := by
        rw [radicand]
        refine le_trans (le_of_eq ?_) enough
        push_cast
        rw [← zpow_natCast, ← zpow_add₀ two_ne_zero, ← zpow_add₀ two_ne_zero]
        congr 1
        push_cast
        ring
      exact_mod_cast le_of_mul_le_mul_right this (by positivity)
    have twice := (Rounding.doubleRoot_side m (2 ^ (w + 2))).2.2 square
    have twice : (2 * 2 ^ (w + 2) : Rat) ≤ Rounding.doubleRoot m := by exact_mod_cast twice
    have step : (2 : Rat) ^ b ≤ 2 ^ h * 2 ^ (2 : Int) := by
      rw [← zpow_add₀ two_ne_zero]
      exact zpow_le_zpow_right₀ one_le_two (by omega)
    have far : (2 : Rat) ^ w * 2 ^ b ≤ Rounding.doubleRoot m * 2 ^ h / 2 :=
      calc (2 : Rat) ^ w * 2 ^ b ≤ 2 ^ w * (2 ^ h * 2 ^ (2 : Int)) := by gcongr
        _ = 2 * 2 ^ (w + 2) * 2 ^ h / 2 := by
          rw [pow_add]
          norm_num
          ring
        _ ≤ Rounding.doubleRoot m * 2 ^ h / 2 := by gcongr
    have highest : (a : Rat) < 2 ^ w := by exact_mod_cast bits
    have place : (0 : Rat) < 2 ^ b := by positivity
    exact le_nearest hw low bits one_pos halved (by nlinarith) (by nlinarith)

theorem abs_eq (value : z.toRat = signed sign r) (hr : 0 < r) :
    (finite z).abs.Denotes false r := by
  obtain ⟨negative, -⟩ := numerator_of_toRat hr value
  have negative : (finite z).isNegative = sign := negative
  rw [abs, negative]
  cases sign with
  | false => exact ⟨z, rfl, value⟩
  | true => exact ⟨-z, rfl, by rw [Dyadic.toRat_neg, value]; exact neg_neg r⟩

/-- The root of a number that is not below the rounded square of a float is not below the float. -/
theorem abs_le_sqrt (hw : 0 < w) (kept : round w (finite z) = finite z)
    (square : mul w (finite z) (finite z) = some x) (nonzero : x.isZero = false)
    (large : x.extent ≤ s.extent) (root : sqrt w s = some t) :
    (finite z).abs.extent ≤ t.extent := by
  cases s with
  | infinite u =>
    cases u with
    | true => cases root
    | false =>
      cases root
      exact le_top
  | finite v =>
    have square := Option.some.inj ((mul_self w z).symm.trans square)
    have number : z ≠ 0 := by
      rintro rfl
      rw [← square] at nonzero
      cases nonzero
    obtain ⟨r, hr, value⟩ := exists_denotes number
    have float : IsFloat w r := isFloat_of_nearest hw one_pos hr ⟨z, kept, value⟩
    have positive := isNegative_nearest w ((numerator z).natAbs * (numerator z).natAbs) 1
      (scale z + scale z)
    rw [square] at positive
    cases x with
    | infinite u =>
      cases u with
      | true => cases positive
      | false => exact absurd (top_le_iff.mp large) (extent_finite_ne_top v)
    | finite q =>
      have other : q ≠ 0 := by
        rintro rfl
        cases nonzero
      obtain ⟨p, hp, hq⟩ := exists_denotes other
      rw [show decide (numerator q < 0) = false from positive] at hq
      obtain ⟨⟨a, b, low, bits, rfl⟩, least, most⟩ := float
      obtain ⟨-, y, counted, ⟨above, -⟩, bottom⟩ := square_rounded hw low bits one_pos
        (square_value value hr) hp ⟨q, square, hq⟩
      have unit : (0 : Rat) < 2 ^ (2 * b) := by positivity
      have more : y ≤ v.toRat / 2 ^ (2 * b) := by
        rw [le_div_iff₀ unit, ← counted]
        have value : q.toRat = p := hq
        exact value ▸ extent_finite_le.mp large
      obtain ⟨t', root', le⟩ := le_sqrt hw low bits
        (div_mul_cancel₀ v.toRat unit.ne').symm (by linarith) (by linarith)
      cases root.symm.trans root'
      have same : inRange false a b = (finite z).abs :=
        (denotes_of_bounds false (Rounding.pos_of_lead low) least most).eq (abs_eq value hr)
      rwa [← same]

theorem isNegative_sqrt (root : sqrt w x = some y) : y.isNegative = false := by
  cases x with
  | infinite s =>
    cases s with
    | true => cases root
    | false =>
      cases root
      rfl
  | finite a =>
    rw [sqrt] at root
    dsimp only at root
    split at root
    · cases root
    split at root
    · cases root
      rfl
    · cases root
      exact isNegative_nearest ..

theorem extent_le_abs (x : ExtDyadic) : x.extent ≤ x.abs.extent ∧ x.neg.extent ≤ x.abs.extent := by
  rw [abs]
  split
  · rename_i negative
    have below : x.extent ≤ (finite 0).extent :=
      (not_le.mp fun nonneg => by rw [extent_nonneg_iff.mp nonneg] at negative; cases negative).le
    exact ⟨below.trans (extent_neg_le below), le_rfl⟩
  · rename_i nonneg
    have above : (finite 0).extent ≤ x.extent :=
      extent_nonneg_iff.mpr (Bool.eq_false_of_not_eq_true nonneg)
    exact ⟨le_rfl, (extent_neg_le above).trans above⟩

end ExtDyadic

/-! ## 3. Widths -/

/-- A number of some bits is one of more bits. -/
theorem IsFloat.mono {w w' : Nat} {r : Rat} (h : IsFloat w r) (le : w ≤ w') : IsFloat w' r := by
  obtain ⟨⟨a, b, low, high, value⟩, large, small⟩ := h
  obtain ⟨k, rfl⟩ := Nat.exists_eq_add_of_le le
  refine ⟨⟨a * 2 ^ k, b - k, ?_, ?_, ?_⟩, large, small⟩
  · rw [pow_add, ← Nat.mul_assoc]
    exact Nat.mul_le_mul_right _ low
  · rw [pow_add]
    exact Nat.mul_lt_mul_of_pos_right high (Nat.two_pow_pos k)
  · rw [value, zpow_sub₀ two_ne_zero, zpow_natCast]
    push_cast
    field_simp

namespace Rounding

/-- A natural rounded to 53 bits. -/
def rounded53 (n : Nat) : Nat :=
  halfEven n (2 ^ (n.log2 - 52)) * 2 ^ (n.log2 - 52)

theorem rounded53_between {n : Nat} (hn : n ≠ 0) (large : 52 ≤ n.log2) :
    2 ^ n.log2 ≤ rounded53 n ∧ rounded53 n ≤ 2 ^ (n.log2 + 1) := by
  have unit := Nat.two_pow_pos (n.log2 - 52)
  have low : 2 ^ 52 * 2 ^ (n.log2 - 52) = 2 ^ n.log2 := by
    rw [← pow_add]
    congr 1
    omega
  have high : 2 ^ 53 * 2 ^ (n.log2 - 52) = 2 ^ (n.log2 + 1) := by
    rw [← pow_add]
    congr 1
    omega
  have order {k l : Nat} (h : k ≤ l) :
      halfEven k (2 ^ (n.log2 - 52)) ≤ halfEven l (2 ^ (n.log2 - 52)) :=
    halfEven_mono unit unit (div_le_div_of_nonneg_right (by exact_mod_cast h) (Nat.cast_nonneg _))
  constructor
  · have := order (low.le.trans (Nat.log2_self_le hn))
    rw [halfEven_mul_self unit] at this
    exact low ▸ Nat.mul_le_mul_right _ this
  · have := order (Nat.lt_log2_self.le.trans high.ge)
    rw [halfEven_mul_self unit] at this
    exact high ▸ Nat.mul_le_mul_right _ this

theorem rounded53_mono {n n' : Nat} (large : 52 ≤ n.log2) (le : n ≤ n') :
    rounded53 n ≤ rounded53 n' := by
  have hn : n ≠ 0 := by
    rintro rfl
    exact absurd large (by decide)
  have hn' : n' ≠ 0 := by omega
  have places : n.log2 ≤ n'.log2 := (Nat.le_log2 hn').mpr ((Nat.log2_self_le hn).trans le)
  rcases places.lt_or_eq with less | same
  · calc rounded53 n ≤ 2 ^ (n.log2 + 1) := (rounded53_between hn large).2
      _ ≤ 2 ^ n'.log2 := Nat.pow_le_pow_right two_pos less
      _ ≤ rounded53 n' := (rounded53_between hn' (by omega)).1
  · unfold rounded53
    rw [same]
    have unit := Nat.two_pow_pos (n'.log2 - 52)
    exact Nat.mul_le_mul_right _ (halfEven_mono unit unit
      (div_le_div_of_nonneg_right (by exact_mod_cast le) (Nat.cast_nonneg _)))

end Rounding

namespace MPFloat

variable {d d' : Nat}

theorem width_mono (le : d ≤ d') : width d ≤ width d' := by
  have digits : max d 1 * 7480317065143153 ≤ max d' 1 * 7480317065143153 :=
    Nat.mul_le_mul_right _ (by omega)
  have large : 52 ≤ (max d 1 * 7480317065143153).log2 :=
    (Nat.le_log2 (by omega)).mpr (le_trans (by norm_num) (Nat.le_mul_of_pos_left _ (by omega)))
  have rounded := Rounding.rounded53_mono large digits
  have bits (d : Nat) : bitsFor d =
      (Rounding.rounded53 (max d 1 * 7480317065143153) + 2251799813685247) /
        2251799813685248 + 64 := rfl
  have order : bitsFor d ≤ bitsFor d' := by
    rw [bits, bits]
    omega
  unfold width
  omega

/-! ## 4. Steps of the formula -/

/-- A finite float as the operations leave it: it has no more bits than its precision gives. -/
structure Held (x : MPFloat) : Prop where
  finite : x.isFinite = true
  kept : x.withDigits x.digits = x

/-- Such a float is zero or a sign and a number of so many bits. -/
theorem Held.cases {x : MPFloat} (h : x.Held) : x.value = .finite 0 ∨
    ∃ negative r, x.value.Denotes negative r ∧ IsFloat (width x.digits) r := by
  obtain ⟨digits, value⟩ := x
  have kept : value.round (width digits) = value := congrArg MPFloat.value h.kept
  cases value with
  | infinite s => exact absurd h.finite Bool.false_ne_true
  | finite z =>
    by_cases zero : z = 0
    · exact .inl (congrArg ExtDyadic.finite zero)
    · obtain ⟨r, hr, denotes⟩ := ExtDyadic.exists_denotes zero
      exact .inr ⟨_, r, ⟨z, rfl, denotes⟩,
        ExtDyadic.isFloat_of_nearest (width_pos digits) one_pos hr ⟨z, kept, denotes⟩⟩

/-- It is kept by every larger precision as well. -/
theorem Held.round {x : MPFloat} (h : x.Held) (le : x.digits ≤ d) :
    x.value.round (width d) = x.value := by
  rcases h.cases with zero | ⟨negative, r, value, float⟩
  · rw [zero]
    rfl
  · exact ExtDyadic.round_exact (float.mono (width_mono le)) value

/-- The square of a finite float is a number of its precision that is not negative. -/
theorem exists_square {x : MPFloat} (finite : x.isFinite = true) :
    ∃ s, x.mul x = .ok ⟨x.digits, s⟩ ∧ x.value.mul (width x.digits) x.value = some s ∧
      s.isNegative = false ∧ s.round (width x.digits) = s := by
  obtain ⟨digits, value⟩ := x
  cases value with
  | infinite s => cases finite
  | finite z =>
    have square := ExtDyadic.mul_self (width digits) z
    refine ⟨_, ?_, square, ExtDyadic.isNegative_nearest .., ?_⟩
    · rw [mul, binary_eq, square]
      rfl
    · exact ExtDyadic.round_nearest (width_pos digits) one_pos ..

theorem binary_eq_ok {f : Nat → ExtDyadic → ExtDyadic → Option ExtDyadic} {x y s : MPFloat}
    (h : binary f x y = .ok s) : s.digits = max x.digits y.digits ∧
      f (width (max x.digits y.digits)) x.value y.value = some s.value := by
  unfold binary checked at h
  dsimp only at h
  split at h
  · rename_i value
    cases h
    exact ⟨rfl, value⟩
  · cases h

theorem sqrt_eq_ok {x t : MPFloat} (root : x.sqrt = .ok t) :
    x.value.sqrt (width x.digits) = some t.value := by
  unfold sqrt unary checked at root
  split at root
  · cases root
  split at root
  · rename_i value
    cases root
    exact value
  · cases root

/-- A sum without a negative infinity. -/
theorem exists_add {x y : MPFloat} (hx : x.isNegative = false)
    (hy : y.isFinite = true ∨ y.isNegative = false) : ∃ s, x.add y = .ok s := by
  obtain ⟨s, sum⟩ : ∃ s, x.value.add (width (max x.digits y.digits)) y.value = some s := by
    unfold isNegative at hx hy
    unfold isFinite at hy
    generalize x.value = a at *
    generalize y.value = b at *
    cases a with
    | finite a =>
      cases b with
      | finite b =>
        rw [ExtDyadic.add]
        split
        · exact ⟨_, rfl⟩
        split
        · exact ⟨_, rfl⟩
        split
        · exact ⟨_, rfl⟩
        split
        · exact ⟨_, rfl⟩
        · exact ⟨_, rfl⟩
      | infinite t => exact ⟨_, rfl⟩
    | infinite u =>
      cases hx
      cases b with
      | finite b => exact ⟨_, rfl⟩
      | infinite t =>
        rcases hy with finite | sign
        · cases finite
        · cases sign
          exact ⟨_, rfl⟩
  refine ⟨⟨max x.digits y.digits, s⟩, ?_⟩
  unfold add binary
  dsimp only
  rw [sum]
  rfl

/-- The root of a half, which is missing only if the number is negative. -/
theorem exists_half (x : MPFloat) (d : Nat) : ∃ half, x.div (ofInt 2 d) = .ok half ∧
    ((∃ root, half.sqrt = .ok root ∧ root.isNegative = false) ∨
      half.sqrt = .error (.domain .rootOfNegative) ∧ x.isNegative = true) := by
  have two := ofInt_two d
  obtain ⟨q, quotient⟩ : ∃ q, x.value.div (width (max x.digits d)) (ofInt 2 d).value = some q := by
    obtain ⟨y, hy, value⟩ := two
    obtain ⟨-, -, natural⟩ := ExtDyadic.numerator_of_toRat two_pos value
    rw [hy]
    cases x.value with
    | finite z => exact ⟨_, if_neg (Int.natAbs_pos.mp natural)⟩
    | infinite s => exact ⟨_, rfl⟩
  refine ⟨⟨max x.digits d, q⟩, ?_, ?_⟩
  · have nonzero : (ofInt 2 d).isZero = false := two.isZero two_pos
    unfold div binary
    rw [nonzero, if_neg Bool.false_ne_true]
    dsimp only
    rw [show max x.digits (ofInt 2 d).digits = max x.digits d from rfl, quotient]
    rfl
  · cases sign : q.isNegative with
    | false =>
      obtain ⟨root, hroot⟩ := exists_sqrt (x := ⟨max x.digits d, q⟩) sign
      exact .inl ⟨root, hroot, ExtDyadic.isNegative_sqrt (sqrt_eq_ok hroot)⟩
    | true =>
      refine .inr ⟨?_, Bool.eq_true_of_not_eq_false fun nonneg => ?_⟩
      · unfold sqrt isNegative
        rw [sign]
        rfl
      · have := ExtDyadic.isNegative_div nonneg (two.isNegative two_pos) quotient
        cases this.symm.trans sign

end MPFloat

/-! ## 5. The root -/

namespace Complex

variable {z : Complex} {m : MPFloat}

/-- The magnitude is the root of a sum of squares. -/
theorem exists_abs {s t : MPFloat} (hs : z.re.mul z.re = .ok s) (ht : z.im.mul z.im = .ok t)
    (signRe : s.isNegative = false) (signIm : t.isNegative = false) :
    ∃ sum m, s.add t = .ok sum ∧ sum.sqrt = .ok m ∧ z.abs = .ok m ∧ m.isNegative = false := by
  obtain ⟨sum, hsum⟩ := MPFloat.exists_add signRe (.inr signIm)
  have opposite : t.value.neg.extent ≤ (ExtDyadic.finite 0).extent :=
    ExtDyadic.extent_neg_le (ExtDyadic.extent_nonneg_iff.mpr signIm)
  have sign : sum.isNegative = false := ExtDyadic.isNegative_add
    (opposite.trans (ExtDyadic.extent_nonneg_iff.mpr signRe)) (MPFloat.binary_eq_ok hsum).2
  obtain ⟨m, hm⟩ := MPFloat.exists_sqrt sign
  refine ⟨sum, m, hsum, hm, ?_, ExtDyadic.isNegative_sqrt (MPFloat.sqrt_eq_ok hm)⟩
  unfold abs
  exact bind_eq_ok.mpr ⟨_, hs, bind_eq_ok.mpr ⟨_, ht, bind_eq_ok.mpr ⟨_, hsum, hm⟩⟩⟩

/-- A root in the half plane of the principal one, on the side of the number itself. -/
structure Principal (z root : Complex) : Prop where
  re : root.re.isNegative = false
  im : root.im.isNegative = true → z.im.isNegative = true

theorem Principal.of_roots {re im : MPFloat} (hre : re.isNegative = false)
    (him : im.isNegative = false) :
    z.Principal ⟨re, if z.im.isNegative then im.neg else im⟩ := by
  refine ⟨hre, fun negative => ?_⟩
  by_contra other
  dsimp only at negative
  rw [if_neg other, him] at negative
  cases negative

theorem compare_abs_iff {x : MPFloat} :
    m.compareWith x.abs = .lt ↔ m.value.extent < x.value.abs.extent :=
  ExtDyadic.compareWith_lt_iff

/-- A number whose sum with another one is negative is below the opposite of that. -/
theorem lt_neg_of_sum {x s : MPFloat} (sum : m.add x = .ok s) (negative : s.isNegative = true) :
    m.value.extent < x.value.neg.extent :=
  not_le.mp fun le => by
    have := ExtDyadic.isNegative_add le (MPFloat.binary_eq_ok sum).2
    cases this.symm.trans negative

/-- There is a principal root unless the magnitude is below the real part without its sign. -/
theorem sqrt_cases (magnitude : z.abs = .ok m) (sign : m.isNegative = false)
    (re : z.re.isFinite = true) :
    (∃ root, z.sqrt = .ok root ∧ z.Principal root) ∨
      z.sqrt = .error (.domain .rootOfNegative) ∧ m.compareWith z.re.abs = .lt := by
  unfold sqrt
  split
  · rename_i zero
    obtain ⟨zeroRe, zeroIm⟩ := Bool.and_eq_true_iff.mp zero
    refine .inl ⟨z, rfl, ?_, fun negative => negative⟩
    unfold MPFloat.isNegative
    rw [of_decide_eq_true zeroRe]
    rfl
  · have re' : z.re.neg.isFinite = true := by
      unfold MPFloat.isFinite at re
      unfold MPFloat.isFinite MPFloat.neg
      cases value : z.re.value with
      | finite a => rfl
      | infinite s =>
        rw [value] at re
        cases re
    obtain ⟨sum, hsum⟩ := MPFloat.exists_add (y := z.re) sign (.inl re)
    obtain ⟨difference, hdifference⟩ := MPFloat.exists_add (y := z.re.neg) sign (.inl re')
    have hdifference : m.sub z.re = .ok difference := hdifference
    obtain ⟨half, hhalf, ⟨root, hroot, rootSign⟩ | ⟨failed, negative⟩⟩ :=
      MPFloat.exists_half sum z.digits
    · obtain ⟨half', hhalf', ⟨root', hroot', rootSign'⟩ | ⟨failed, negative⟩⟩ :=
        MPFloat.exists_half difference z.digits
      · left
        refine ⟨_, ?_, .of_roots rootSign rootSign'⟩
        rw [magnitude, ok_bind, hsum, ok_bind, hhalf, ok_bind, hroot, ok_bind, hdifference, ok_bind,
          hhalf', ok_bind, hroot']
        rfl
      · right
        constructor
        · rw [magnitude, ok_bind, hsum, ok_bind, hhalf, ok_bind, hroot, ok_bind, hdifference,
            ok_bind, hhalf', ok_bind, failed]
          rfl
        · have below := lt_neg_of_sum (x := z.re.neg) hdifference negative
          rw [MPFloat.neg, ExtDyadic.neg_neg_eq] at below
          exact compare_abs_iff.mpr (below.trans_le (ExtDyadic.extent_le_abs _).1)
    · right
      constructor
      · rw [magnitude, ok_bind, hsum, ok_bind, hhalf, ok_bind, failed]
        rfl
      · exact compare_abs_iff.mpr
          ((lt_neg_of_sum hsum negative).trans_le (ExtDyadic.extent_le_abs _).2)

/-- The magnitude is not below the real part if the sum of the squares is not below the square of
the real part, rounded at the precision of the sum. -/
theorem abs_not_lt {sum square : MPFloat} (re : z.re.Held) (le : z.re.digits ≤ sum.digits)
    (wide : z.re.value.mul (MPFloat.width sum.digits) z.re.value = some square.value)
    (nonzero : square.isZero = false) (large : square.compareWith sum ≠ .gt)
    (root : sum.sqrt = .ok m) : m.compareWith z.re.abs ≠ .lt := by
  rw [Ne, compare_abs_iff, not_lt]
  have kept := re.round le
  have large : square.value.extent ≤ sum.value.extent := ExtDyadic.compareWith_ne_gt_iff.mp large
  have root := MPFloat.sqrt_eq_ok root
  have finite := re.finite
  unfold MPFloat.isFinite at finite
  generalize z.re.value = a at *
  cases a with
  | infinite s => cases finite
  | finite a => exact ExtDyadic.abs_le_sqrt (MPFloat.width_pos _) kept wide nonzero large root

/-- There is a principal root if the real part is squared at the width of the root and its square
does not vanish. -/
theorem exists_principal (re : z.re.Held) (im : z.im.isFinite = true)
    (width : MPFloat.width z.digits = MPFloat.width z.re.digits)
    (vanishes : ∀ s, z.re.mul z.re = .ok s → s.isZero = true → z.re.isZero = true) :
    ∃ root, z.sqrt = .ok root ∧ z.Principal root := by
  obtain ⟨s, hs, square, signRe, keptRe⟩ := MPFloat.exists_square re.finite
  obtain ⟨t, ht, -, signIm, -⟩ := MPFloat.exists_square im
  obtain ⟨sum, m, hsum, root, magnitude, sign⟩ := exists_abs hs ht signRe signIm
  refine (sqrt_cases magnitude sign re.finite).resolve_right fun short => ?_
  obtain ⟨digits, total⟩ := MPFloat.binary_eq_ok hsum
  have digits : sum.digits = z.digits := digits
  rw [← digits] at width
  cases nonzero : s.isZero with
  | true =>
    have zero : z.re.value = .finite 0 := of_decide_eq_true (vanishes _ hs nonzero)
    have below := compare_abs_iff.mp short.2
    rw [zero] at below
    exact below.not_ge (ExtDyadic.extent_nonneg_iff.mpr sign)
  | false =>
    rw [← width] at square keptRe
    have product : z.re.value.mul (MPFloat.width sum.digits) z.re.value =
        some (MPFloat.mk z.re.digits s).value := square
    refine abs_not_lt re (digits ▸ le_max_left ..) product nonzero ?_ root short.2
    refine ExtDyadic.compareWith_ne_gt_iff.mpr (ExtDyadic.le_add (w := MPFloat.width sum.digits)
      keptRe signRe signIm (MPFloat.width_pos _) ?_)
    rw [digits]
    exact total

/-- The parts of a complex number may have different precisions. The magnitude of finite parts
exists and is not negative, and there is a principal root unless the magnitude is below the real
part without its sign; then the one failure is that of a real root of a negative number. It does not
come to that if the real part is not squared at a smaller width than that of the root and its square
does not vanish, nor if the sum of the squares makes up for the rounding of the square of the real
part. -/
theorem sqrt_principal (z : Complex) (re : z.re.Held) (im : z.im.isFinite = true) :
    ∃ s t sum m, z.re.mul z.re = .ok s ∧ z.im.mul z.im = .ok t ∧ s.add t = .ok sum ∧
      z.abs = .ok m ∧ m.isNegative = false ∧
      ((∃ root, z.sqrt = .ok root ∧ z.Principal root) ∨
        z.sqrt = .error (.domain .rootOfNegative) ∧ m.compareWith z.re.abs = .lt) ∧
      (MPFloat.width z.digits = MPFloat.width z.re.digits → (s.isZero = true → z.re.isZero = true) →
        ∃ root, z.sqrt = .ok root ∧ z.Principal root) ∧
      ∀ square, (z.re.withDigits z.digits).mul (z.re.withDigits z.digits) = .ok square →
        square.isZero = false → square.compareWith sum ≠ .gt →
        ∃ root, z.sqrt = .ok root ∧ z.Principal root := by
  obtain ⟨s, hs, -, signRe, -⟩ := MPFloat.exists_square re.finite
  obtain ⟨t, ht, -, signIm, -⟩ := MPFloat.exists_square im
  obtain ⟨sum, m, hsum, root, magnitude, sign⟩ := exists_abs hs ht signRe signIm
  have outcome := sqrt_cases magnitude sign re.finite
  refine ⟨⟨_, s⟩, ⟨_, t⟩, sum, m, hs, ht, hsum, magnitude, sign, outcome, fun width vanishes =>
    exists_principal re im width fun s' hs' => ?_, fun square hsquare nonzero large =>
    outcome.resolve_right fun short => ?_⟩
  · cases hs.symm.trans hs'
    exact vanishes
  · have digits : sum.digits = z.digits := (MPFloat.binary_eq_ok hsum).1
    have wide : z.re.digits ≤ sum.digits := digits ▸ le_max_left ..
    have value := (MPFloat.binary_eq_ok hsquare).2
    have kept : (z.re.withDigits z.digits).value = z.re.value := re.round (le_max_left ..)
    have same : max (z.re.withDigits z.digits).digits (z.re.withDigits z.digits).digits =
        sum.digits := (Nat.max_self _).trans digits.symm
    rw [kept, same] at value
    exact abs_not_lt re wide value nonzero large root short.2

/-- Parts of one precision. -/
theorem sqrt_principal_integer : ∃ root,
    sqrt ⟨⟨20, .finite (.ofInt 18446744073709551617)⟩, .zero 20⟩ = .ok root ∧
      root.re.isNegative = false := by
  obtain ⟨s, t, sum, m, hs, -, -, -, -, -, equal, -⟩ := sqrt_principal
    ⟨⟨20, .finite (.ofInt 18446744073709551617)⟩, .zero 20⟩ ⟨rfl, by decide +kernel⟩ rfl
  have nonzero : ((MPFloat.mul ⟨20, .finite (.ofInt 18446744073709551617)⟩
      ⟨20, .finite (.ofInt 18446744073709551617)⟩).toOption.map MPFloat.isZero) = some false := by
    decide +kernel
  rw [hs] at nonzero
  obtain ⟨root, hroot, principal⟩ := equal rfl fun zero => by
    cases zero.symm.trans (Option.some.inj nonzero)
  exact ⟨root, hroot, principal.re⟩

/-- A real part of one digit beside an imaginary part of twenty: the square of the real part is
rounded down at its own width, and its root, which is taken at the larger one, is below it. -/
theorem sqrt_short : MPFloat.Held ⟨1, .finite (.ofInt 18446744073709551617)⟩ ∧
    MPFloat.Held (.zero 20) ∧
    sqrt ⟨⟨1, .finite (.ofInt 18446744073709551617)⟩, .zero 20⟩ =
      .error (.domain .rootOfNegative) := by
  refine ⟨⟨rfl, by decide +kernel⟩, ⟨rfl, by decide +kernel⟩, ?_⟩
  decide +kernel

end Complex
end StackCalc
