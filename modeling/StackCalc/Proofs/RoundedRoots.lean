import Mathlib.Data.Nat.Sqrt
import StackCalc.Proofs.Nearest

/-! # Roots of rounded squares

A number of `w` bits is squared, the square is rounded to `w` bits, and so is the root of that. Both
roundings together leave the number as it was: the first one moves the square by so little that its
root stays between the two neighbouring midpoints, and the second one goes to the number between
them. -/

namespace StackCalc

/-! ## 1. Integer roots -/

namespace Rounding

variable {n d k : Nat}

theorem descend_eq (n guess : Nat) : descend n guess = Nat.sqrt.iter n guess := by
  fun_induction descend with
  | case1 guess next less ih =>
    rw [ih, Nat.sqrt.iter.eq_1 n guess, Nat.add_comm guess, dif_pos less]
  | case2 guess next more => rw [Nat.sqrt.iter, Nat.add_comm guess, dif_neg more]

theorem floorSqrt_eq (n : Nat) : floorSqrt n = Nat.sqrt n := by
  unfold floorSqrt Nat.sqrt
  split
  · rfl
  · exact descend_eq ..

/-- The root of a natural that is a square. -/
theorem exactSqrt?_eq_some_iff : exactSqrt? n = some k ↔ k * k = n := by
  unfold exactSqrt?
  dsimp only
  rw [floorSqrt_eq]
  constructor
  · intro h
    split at h
    · rename_i square
      cases h
      exact square
    · cases h
  · rintro rfl
    rw [Nat.sqrt_eq, if_pos rfl]

/-- The double of the integer root, and one more if the root is not exact. -/
def doubleRoot (m : Nat) : Nat :=
  let r := floorSqrt m
  if r * r = m then 2 * r else 2 * r + 1

/-- The double root lies on the same side of every even number as that of the exact root. -/
theorem doubleRoot_side (m g : Nat) : (g * g < m → 2 * g < doubleRoot m) ∧
    (m < g * g → doubleRoot m < 2 * g) ∧ (g * g ≤ m → 2 * g ≤ doubleRoot m) := by
  obtain ⟨r, root⟩ : ∃ r, floorSqrt m = r := ⟨_, rfl⟩
  have isRoot : r = Nat.sqrt m := root ▸ floorSqrt_eq m
  have least (h : g * g ≤ m) : g ≤ r := isRoot ▸ Nat.le_sqrt.mpr h
  have greatest (h : m < g * g) : r < g := isRoot ▸ Nat.sqrt_lt.mpr h
  have double : doubleRoot m = 2 * r ∧ r * r = m ∨ doubleRoot m = 2 * r + 1 := by
    rw [doubleRoot, root]
    by_cases exact : r * r = m
    · exact .inl ⟨if_pos exact, exact⟩
    · exact .inr (if_neg exact)
  refine ⟨fun less => ?_, fun more => ?_, fun le => ?_⟩
  · have := least less.le
    rcases double with ⟨hp, square⟩ | hp
    · have : g ≠ r := fun same => less.ne (same ▸ square)
      omega
    · omega
  · have := greatest more
    omega
  · have := least le
    omega

/-- The same for a radicand that counts in squares of the `c`-th part of a unit. -/
theorem doubleRoot_counted {m c : Nat} {y : Rat} (hc : 0 < c) (counted : (m : Rat) = y * (c * c))
    (g : Nat) : ((g * g : Rat) < y → (2 * (g * c) : Rat) < doubleRoot m) ∧
      (y < g * g → (doubleRoot m : Rat) < 2 * (g * c)) ∧
      ((g * g : Rat) ≤ y → (2 * (g * c) : Rat) ≤ doubleRoot m) := by
  obtain ⟨less, more, le⟩ := doubleRoot_side m (g * c)
  have unit : (0 : Rat) < c * c := by positivity
  have square : ((g * c * (g * c) : Nat) : Rat) = g * g * (c * c) := by
    push_cast
    ring
  refine ⟨fun h => ?_, fun h => ?_, fun h => ?_⟩
  · have : ((g * c * (g * c) : Nat) : Rat) < m := by
      rw [square, counted]
      exact mul_lt_mul_of_pos_right h unit
    exact_mod_cast less (by exact_mod_cast this)
  · have : (m : Rat) < (g * c * (g * c) : Nat) := by
      rw [square, counted]
      exact mul_lt_mul_of_pos_right h unit
    exact_mod_cast more (by exact_mod_cast this)
  · have : ((g * c * (g * c) : Nat) : Rat) ≤ m := by
      rw [square, counted]
      exact mul_le_mul_of_nonneg_right h unit.le
    exact_mod_cast le (by exact_mod_cast this)

/-! ## 2. The nearest natural -/

theorem halfEven_eq (hd : 0 < d) (near : |(n : Rat) / d - k| < 1 / 2) : halfEven n d = k := by
  have close : |(halfEven n d : Rat) - k| < 1 :=
    calc |(halfEven n d : Rat) - k| ≤ |(halfEven n d : Rat) - n / d| + |(n : Rat) / d - k| :=
          abs_sub_le _ _ _
      _ < 1 := by linarith [halfEven_error (n := n) hd]
  have close : |(halfEven n d : Int) - k| < 1 := by exact_mod_cast close
  have := Int.abs_lt_one_iff.mp close
  omega

/-- A quotient of `w` bits before the point is rounded to a natural of as many, or to the next power
of two. -/
theorem halfEven_between {w : Nat} (hw : 0 < w) (hd : 0 < d) (low : (2 : Rat) ^ w ≤ 2 * (n / d))
    (high : (n : Rat) / d < 2 ^ w) : 2 ^ w ≤ 2 * halfEven n d ∧ halfEven n d ≤ 2 ^ w := by
  obtain ⟨below, above⟩ := abs_le.mp (halfEven_error (n := n) hd)
  have lower : (2 : Rat) ^ w < 2 * halfEven n d + 2 := by linarith
  have upper : (halfEven n d : Rat) < 2 ^ w + 1 := by linarith
  have lower : 2 ^ w < 2 * halfEven n d + 2 := by exact_mod_cast lower
  have upper : halfEven n d < 2 ^ w + 1 := by exact_mod_cast upper
  have even : 2 ^ w = 2 * 2 ^ (w - 1) := (mul_pow_sub_one hw.ne' 2).symm
  omega

theorem floorLog2_eq {l : Int} (hn : 0 < n) (hd : 0 < d) (low : (2 : Rat) ^ l ≤ n / d)
    (high : (n : Rat) / d < 2 ^ (l + 1)) : floorLog2 n d = l := by
  obtain ⟨low', high'⟩ := floorLog2_spec hn hd
  have above := (zpow_lt_zpow_iff_right₀ (one_lt_two (α := Rat))).mp (low'.trans_lt high)
  have below := (zpow_lt_zpow_iff_right₀ (one_lt_two (α := Rat))).mp (low.trans_lt high')
  omega

theorem pos_of_lead {w : Nat} (lead : 2 ^ w ≤ 2 * n) : 0 < n := by
  have := Nat.two_pow_pos w
  omega

end Rounding

/-! ## 3. The numbers that floats hold -/

/-- A positive number that a float of `w` bits holds: one of so many bits, the leading one of which
is set, with an exponent in range. -/
structure IsFloat (w : Nat) (r : Rat) : Prop where
  bits : ∃ (a : Nat) (b : Int), 2 ^ w ≤ 2 * a ∧ a < 2 ^ w ∧ r = a * 2 ^ b
  large : 2 ^ (-ExtDyadic.maxExponent - 1) ≤ r
  small : r < 2 ^ ExtDyadic.maxExponent

theorem IsFloat.pos {w : Nat} {r : Rat} (h : IsFloat w r) : 0 < r :=
  lt_of_lt_of_le (by positivity) h.large

/-- A natural of up to `w` bits is shifted to where the leading one is set. -/
theorem exists_bits {w n : Nat} (pos : 0 < n) (bits : n < 2 ^ w) :
    ∃ (a : Nat) (b : Int), 2 ^ w ≤ 2 * a ∧ a < 2 ^ w ∧ (n : Rat) = a * 2 ^ b := by
  have place : n.log2 < w := (Nat.log2_lt pos.ne').mpr bits
  obtain ⟨k, hk⟩ : ∃ k, w = n.log2 + 1 + k := Nat.exists_eq_add_of_le place
  refine ⟨n * 2 ^ k, -k, ?_, ?_, ?_⟩
  · rw [hk, pow_add, pow_succ, ← Nat.mul_assoc, Nat.mul_comm 2 n]
    exact Nat.mul_le_mul_right _ (Nat.mul_le_mul_right 2 (Nat.log2_self_le pos.ne'))
  · rw [hk, pow_add]
    exact Nat.mul_lt_mul_of_pos_right Nat.lt_log2_self (Nat.two_pow_pos k)
  · rw [zpow_neg, zpow_natCast]
    push_cast
    field_simp

theorem IsFloat.natCast {w n : Nat} (pos : 0 < n) (bits : n < 2 ^ w)
    (small : (n : Rat) < 2 ^ ExtDyadic.maxExponent) : IsFloat w n := by
  refine ⟨exists_bits pos bits, ?_, small⟩
  have one : (1 : Rat) ≤ n := by exact_mod_cast pos
  exact (zpow_le_one_of_nonpos₀ one_le_two (by decide)).trans one

/-- Doubling a number does not change its bits. -/
theorem IsFloat.double {w : Nat} {r : Rat} (h : IsFloat w r)
    (small : 2 * r < 2 ^ ExtDyadic.maxExponent) : IsFloat w (2 * r) := by
  obtain ⟨a, b, low, high, value⟩ := h.bits
  refine ⟨⟨a, b + 1, low, high, ?_⟩, ?_, small⟩
  · rw [value, zpow_add_one₀ two_ne_zero]
    ring
  · linarith [h.pos, h.large]

namespace ExtDyadic

variable {w n d : Nat} {negative : Bool} {e : Int} {r t : Rat}

/-- A number is rounded to the one of `w` bits that differs from it by less than half a unit of the
last place. -/
theorem nearest_eq {a : Nat} {b : Int} (hn : 0 < n) (hd : 0 < d) (value : (n : Rat) / d * 2 ^ e = t)
    (low : 2 ^ w * 2 ^ b ≤ 2 * t) (bits : a < 2 ^ w) (near : |t - a * 2 ^ b| < 2 ^ b / 2) :
    nearest w negative n d e = inRange negative a b := by
  have unit : (0 : Rat) < 2 ^ b := by positivity
  have scale : (0 : Rat) < 2 ^ e := by positivity
  have top : (a : Rat) + 1 ≤ 2 ^ w := by exact_mod_cast bits
  have high : t < 2 ^ w * 2 ^ b := by
    have := (abs_lt.mp near).2
    nlinarith
  have place : Rounding.floorLog2 n d = w - 1 + b - e := by
    refine Rounding.floorLog2_eq hn hd ?_ ?_
    · rw [← mul_le_mul_iff_left₀ scale, value, ← zpow_add₀ two_ne_zero, sub_add_cancel,
        zpow_add₀ two_ne_zero, zpow_sub₀ two_ne_zero, zpow_natCast]
      linarith
    · rw [← mul_lt_mul_iff_left₀ scale, value, ← zpow_add₀ two_ne_zero,
        show ((w : Int) - 1 + b - e + 1 + e) = w + b by ring, zpow_add₀ two_ne_zero, zpow_natCast]
      exact high
  rw [nearest, if_neg hn.ne', place]
  dsimp only
  have shift : (w : Int) - 1 - (w - 1 + b - e) = e - b := by ring
  rw [shift, sub_sub_cancel]
  congr 1
  refine Rounding.halfEven_eq ?_ ?_
  · rw [Nat.shiftLeft_eq]
    positivity
  · have moved : (n : Rat) / d * 2 ^ (e - b) - a = (t - a * 2 ^ b) / 2 ^ b := by
      rw [← value, zpow_sub₀ two_ne_zero]
      field_simp
    rw [shifted_div, moved, abs_div, abs_of_pos unit, div_lt_iff₀ unit]
    linarith

/-- The number that is rounded is a quotient of `w` bits before the point, over a unit. -/
theorem nearest_quotient (negative : Bool) (w : Nat) (hn : 0 < n) (hd : 0 < d)
    (value : (n : Rat) / d * 2 ^ e = t) :
    ∃ (a b : Nat) (c : Int), 0 < b ∧
      nearest w negative n d e = inRange negative (Rounding.halfEven a b) c ∧
      (a : Rat) / b * 2 ^ c = t ∧ (2 : Rat) ^ w ≤ 2 * (a / b) ∧ (a : Rat) / b < 2 ^ w := by
  let l := Rounding.floorLog2 n d
  let s : Int := w - 1 - l
  obtain ⟨low, high⟩ := Rounding.floorLog2_spec hn hd
  refine ⟨n <<< s.toNat, d <<< (-s).toNat, e - s, ?_, if_neg hn.ne', ?_, ?_, ?_⟩
  · rw [Nat.shiftLeft_eq]
    positivity
  · rw [shifted_div, ← value, mul_assoc, ← zpow_add₀ two_ne_zero, add_sub_cancel]
  · have power : (2 : Rat) ^ w = 2 * (2 ^ l * 2 ^ s) := by
      rw [← zpow_add₀ two_ne_zero, ← zpow_one_add₀ two_ne_zero, ← zpow_natCast]
      congr 1
      ring
    rw [shifted_div, power]
    gcongr
  · have power : (2 : Rat) ^ w = 2 ^ (l + 1) * 2 ^ s := by
      rw [← zpow_add₀ two_ne_zero, ← zpow_natCast]
      congr 1
      ring
    rw [shifted_div, power]
    gcongr

/-- Rounding leaves a natural of `w` bits, or the next power of two, with an error of half a
unit. -/
theorem nearest_spec (negative : Bool) (hw : 0 < w) (hn : 0 < n) (hd : 0 < d)
    (value : (n : Rat) / d * 2 ^ e = t) :
    ∃ (m : Nat) (c : Int), nearest w negative n d e = inRange negative m c ∧
      2 ^ w ≤ 2 * m ∧ m ≤ 2 ^ w ∧ 2 ^ w * 2 ^ c ≤ 2 * t ∧ t < 2 ^ w * 2 ^ c ∧
      |t - m * 2 ^ c| ≤ 2 ^ c / 2 := by
  obtain ⟨a, b, c, hb, rounded, rfl, low, high⟩ := nearest_quotient negative w hn hd value
  obtain ⟨large, small⟩ := Rounding.halfEven_between hw hb low high
  have unit : (0 : Rat) < 2 ^ c := by positivity
  refine ⟨Rounding.halfEven a b, c, rounded, large, small, by nlinarith, by gcongr, ?_⟩
  calc |(a : Rat) / b * 2 ^ c - Rounding.halfEven a b * 2 ^ c|
      = |(Rounding.halfEven a b : Rat) - a / b| * 2 ^ c := by
        rw [← sub_mul, abs_mul, abs_of_pos unit, abs_sub_comm]
    _ ≤ 1 / 2 * 2 ^ c := mul_le_mul_of_nonneg_right (Rounding.halfEven_error hb) unit.le
    _ = 2 ^ c / 2 := by ring

/-- Numbers too large for their exponent are infinite, and those too small are zero. -/
theorem inRange_cases {m : Nat} (negative : Bool) (hm : 0 < m) (e : Int) :
    inRange negative m e = infinite negative ∧ 2 ^ maxExponent ≤ (m * 2 ^ e : Rat) ∨
    inRange negative m e = finite 0 ∧ (m * 2 ^ e : Rat) < 2 ^ (-maxExponent - 1) ∨
    Denotes (inRange negative m e) negative (m * 2 ^ e) ∧
      2 ^ (-maxExponent - 1) ≤ (m * 2 ^ e : Rat) ∧ (m * 2 ^ e : Rat) < 2 ^ maxExponent := by
  obtain ⟨place, next⟩ := Rounding.two_pow_log2 hm
  have low : (2 : Rat) ^ ((m.log2 : Int) + e) ≤ m * 2 ^ e := by
    rw [zpow_add₀ two_ne_zero]
    gcongr
  have high : (m : Rat) * 2 ^ e < 2 ^ ((m.log2 : Int) + 1 + e) := by
    rw [zpow_add₀ two_ne_zero]
    gcongr
  by_cases top : maxExponent < (m.log2 : Int) + 1 + e
  · refine .inl ⟨if_pos top, le_trans ?_ low⟩
    exact zpow_le_zpow_right₀ one_le_two (by omega)
  by_cases bottom : (m.log2 : Int) + 1 + e < -maxExponent
  · refine .inr (.inl ⟨(if_neg top).trans (if_pos bottom), lt_of_lt_of_le high ?_⟩)
    exact zpow_le_zpow_right₀ one_le_two (by omega)
  · refine .inr (.inr ⟨denotes_inRange (by unfold maxExponent at *; omega), le_trans ?_ low,
      lt_of_lt_of_le high ?_⟩)
    · exact zpow_le_zpow_right₀ one_le_two (by omega)
    · exact zpow_le_zpow_right₀ one_le_two (by omega)

theorem denotes_of_bounds {m : Nat} (negative : Bool) (hm : 0 < m)
    (large : 2 ^ (-maxExponent - 1) ≤ (m * 2 ^ e : Rat))
    (small : (m * 2 ^ e : Rat) < 2 ^ maxExponent) :
    Denotes (inRange negative m e) negative (m * 2 ^ e) := by
  rcases inRange_cases negative hm e with ⟨_, above⟩ | ⟨_, below⟩ | ⟨denotes, _⟩
  · exact absurd small above.not_gt
  · exact absurd large below.not_ge
  · exact denotes

/-- A number that is left of one in a range is that number. -/
theorem bounds_of_denotes {sign : Bool} {m : Nat} (hm : 0 < m) (hr : 0 < r)
    (h : Denotes (inRange negative m e) sign r) :
    r = m * 2 ^ e ∧ 2 ^ (-maxExponent - 1) ≤ r ∧ r < 2 ^ maxExponent := by
  obtain ⟨y, hy, value⟩ := h
  have size : |y.toRat| = r := by rw [value, abs_signed hr.le]
  rcases inRange_cases negative hm e with ⟨above, _⟩ | ⟨below, _⟩ | ⟨⟨z, hz, same⟩, bounds⟩
  · rw [above] at hy
    cases hy
  · rw [below] at hy
    cases hy
    rw [Dyadic.toRat_zero, abs_zero] at size
    exact absurd size hr.ne
  · rw [hz] at hy
    cases hy
    have magnitude : r = m * 2 ^ e := by rw [← size, same, abs_signed (by positivity)]
    exact ⟨magnitude, magnitude ▸ bounds⟩

theorem numerator_pos (ht : 0 < t) (value : (n : Rat) / d * 2 ^ e = t) : 0 < n := by
  rw [Nat.pos_iff_ne_zero]
  rintro rfl
  simp [← value] at ht

/-- Rounding gives a float. -/
theorem isFloat_of_nearest {sign : Bool} (hw : 0 < w) (hd : 0 < d) (hr : 0 < r)
    (h : Denotes (nearest w negative n d e) sign r) : IsFloat w r := by
  have hn : 0 < n := by
    rw [Nat.pos_iff_ne_zero]
    rintro rfl
    obtain ⟨y, hy, value⟩ := h
    cases hy
    have size : |signed sign r| = r := abs_signed hr.le
    rw [← value, Dyadic.toRat_zero, abs_zero] at size
    exact hr.ne size
  obtain ⟨m, c, rounded, low, high, _⟩ := nearest_spec (e := e) negative hw hn hd rfl
  have hm := Rounding.pos_of_lead low
  rw [rounded] at h
  obtain ⟨magnitude, large, small⟩ := bounds_of_denotes hm hr h
  refine ⟨?_, large, small⟩
  rcases high.lt_or_eq with less | carry
  · exact ⟨m, c, low, less, magnitude⟩
  · refine ⟨2 ^ (w - 1), c + 1, (mul_pow_sub_one hw.ne' 2).ge, ?_, ?_⟩
    · exact Nat.pow_lt_pow_right one_lt_two (by omega)
    · have half : (2 : Rat) ^ w = 2 * 2 ^ (w - 1) := (mul_pow_sub_one hw.ne' 2).symm
      rw [magnitude, carry, zpow_add_one₀ two_ne_zero]
      push_cast
      rw [half]
      ring

/-- A float is rounded to itself. -/
theorem nearest_exact (negative : Bool) (float : IsFloat w r) (hd : 0 < d)
    (value : (n : Rat) / d * 2 ^ e = r) : Denotes (nearest w negative n d e) negative r := by
  have hn := numerator_pos float.pos value
  obtain ⟨⟨a, b, low, high, rfl⟩, large, small⟩ := float
  have ha := Rounding.pos_of_lead low
  have unit : (0 : Rat) < 2 ^ b := by positivity
  have low : (2 : Rat) ^ w ≤ 2 * a := by exact_mod_cast low
  rw [nearest_eq hn hd value (by nlinarith) high (by rw [sub_self, abs_zero]; positivity)]
  exact denotes_of_bounds negative ha large small

theorem nearestInt_exact {m : Int} (float : IsFloat w r)
    (value : (m : Rat) * 2 ^ e = signed negative r) : Denotes (nearestInt w m e) negative r := by
  obtain ⟨sign, magnitude, _⟩ := integer_of_signed (by positivity) float.pos value
  rw [nearestInt, sign]
  refine nearest_exact negative float one_pos ?_
  rw [Nat.cast_one, div_one]
  exact magnitude

theorem round_exact (float : IsFloat w r) (hx : x.Denotes negative r) : round w x = x := by
  obtain ⟨z, rfl, value⟩ := hx
  exact (nearestInt_exact float (toRat_eq z ▸ value)).eq ⟨z, rfl, value⟩

/-! ## 4. Squares and their roots -/

/-- The rounded square of a number of `w` bits lies between the squares of the midpoints beside the
number, and is not below the square of the smallest such number. -/
theorem square_between {a m : Nat} {j : Int} (low : (2 : Rat) ^ w ≤ 2 * a)
    (high : (a : Rat) + 1 ≤ 2 ^ w) (large : (2 : Rat) ^ w ≤ 2 * m)
    (last : (2 : Rat) ^ w * 2 ^ j ≤ 2 * (a * a)) (top : (a * a : Rat) < 2 ^ w * 2 ^ j)
    (near : |(a * a : Rat) - m * 2 ^ j| ≤ 2 ^ j / 2) :
    ((2 * a - 1) * (2 * a - 1) < 4 * (m * 2 ^ j : Rat) ∧
      4 * (m * 2 ^ j) < (2 * a + 1) * (2 * a + 1 : Rat)) ∧
      2 ^ w * 2 ^ w ≤ 4 * (m * 2 ^ j : Rat) := by
  have power : (0 : Rat) < 2 ^ w := by positivity
  have unit : (2 : Rat) ^ j ≤ 2 * a - 1 := by
    refine le_of_mul_le_mul_left ?_ power
    nlinarith
  have places : (2 : Rat) ^ w ≤ 2 * 2 ^ j := by
    have : (2 : Rat) ^ (w : Int) < 2 ^ (j + 2) := by
      rw [zpow_natCast, zpow_add₀ two_ne_zero]
      refine lt_of_mul_lt_mul_left ?_ power.le
      nlinarith
    have := (zpow_lt_zpow_iff_right₀ (one_lt_two (α := Rat))).mp this
    rw [← zpow_natCast, ← zpow_one_add₀ two_ne_zero]
    exact zpow_le_zpow_right₀ one_le_two (by omega)
  obtain ⟨below, above⟩ := abs_le.mp near
  refine ⟨⟨by nlinarith, by nlinarith⟩, ?_⟩
  calc (2 : Rat) ^ w * 2 ^ w ≤ 2 * m * (2 * 2 ^ j) :=
        mul_le_mul large places power.le (by positivity)
    _ = 4 * (m * 2 ^ j) := by ring

theorem two_zpow_double (k : Int) : (2 : Rat) ^ (2 * k) = 2 ^ k * 2 ^ k := by
  rw [two_mul, zpow_add₀ two_ne_zero]

/-- The radicand is scaled by an even power of two until its root has two bits more than `w`. -/
theorem sqrt_eq {z : Dyadic} {q : Rat} (w : Nat) (hq : 0 < q) (value : z.toRat = q) :
    ∃ (m : Nat) (h : Int), (m : Rat) * 2 ^ (2 * h) = q ∧ (2 : Rat) ^ (2 * (h + w + 2)) ≤ q ∧
      sqrt w (finite z) = some (nearest w false (Rounding.doubleRoot m) 1 (h - 1)) := by
  have value : z.toRat = signed false q := value
  obtain ⟨sign, magnitude, nonzero⟩ := numerator_of_toRat hq value
  have sign : ¬ numerator z < 0 := of_decide_eq_false sign
  have natural : (numerator z).toNat = (numerator z).natAbs := by omega
  let odd := (scale z % 2).toNat
  let h : Int := (scale z - odd) / 2 - (w + 2 : Nat)
  have even : 2 * (h + w + 2) = scale z - odd := by omega
  refine ⟨(numerator z).toNat <<< (2 * (w + 2) + odd), h, ?_, ?_, ?_⟩
  · have power : ((2 * (w + 2) + odd : Nat) : Int) + 2 * h = scale z := by
      push_cast
      omega
    rw [natural, Nat.shiftLeft_eq, Nat.cast_mul, Nat.cast_pow, Nat.cast_ofNat, mul_assoc,
      ← zpow_natCast, ← zpow_add₀ two_ne_zero, power, magnitude]
  · have one : (1 : Rat) ≤ (numerator z).natAbs := by exact_mod_cast nonzero
    calc (2 : Rat) ^ (2 * (h + w + 2)) ≤ 2 ^ scale z :=
          zpow_le_zpow_right₀ one_le_two (by omega)
      _ ≤ (numerator z).natAbs * 2 ^ scale z := le_mul_of_one_le_left (by positivity) one
      _ = q := magnitude
  · rw [sqrt, if_neg sign, if_neg (by omega)]
    rfl

/-- A radicand that counts in squares of a unit far below `2 ^ b`, so that the halves of that are
multiples of the unit. -/
theorem counted_of_deep {m : Nat} {b h : Int} {y : Rat}
    (radicand : (m : Rat) * 2 ^ (2 * h) = y * 2 ^ (2 * b)) (deep : h + 2 < b) :
    ∃ c : Nat, 0 < c ∧ (2 : Rat) ^ b = 2 * c * 2 ^ h ∧ (m : Rat) = 4 * y * (c * c) := by
  have unit : (0 : Rat) < 2 ^ h := by positivity
  obtain ⟨j, hj⟩ : ∃ j : Nat, b = h + j + 1 := ⟨(b - h - 1).toNat, by omega⟩
  have place : (2 : Rat) ^ b = 2 * (2 ^ j : Nat) * 2 ^ h := by
    rw [hj, zpow_add_one₀ two_ne_zero, zpow_add₀ two_ne_zero, zpow_natCast]
    push_cast
    ring
  refine ⟨2 ^ j, Nat.two_pow_pos j, place, mul_right_cancel₀ (mul_pos unit unit).ne' ?_⟩
  rw [← two_zpow_double, radicand, two_zpow_double, two_zpow_double, place]
  ring

/-- The radicand counts in squares of a unit of which the midpoints of `w` bits are multiples. -/
theorem sqrt_grid {z : Dyadic} {b : Int} {y : Rat} (hy : 0 < y) (small : y < 2 ^ w * 2 ^ w)
    (value : z.toRat = y * 2 ^ (2 * b)) :
    ∃ (m c : Nat) (h : Int), 0 < c ∧ (2 : Rat) ^ b = 2 * c * 2 ^ h ∧ (m : Rat) = 4 * y * (c * c) ∧
      sqrt w (finite z) = some (nearest w false (Rounding.doubleRoot m) 1 (h - 1)) := by
  obtain ⟨m, h, radicand, enough, root⟩ := sqrt_eq w (mul_pos hy (by positivity)) value
  have deep : h + 2 < b := by
    have : (2 : Rat) ^ (2 * (h + w + 2)) < 2 ^ (2 * (w + b)) := by
      refine enough.trans_lt ?_
      rw [mul_add, zpow_add₀ two_ne_zero, two_zpow_double w, zpow_natCast]
      gcongr
    have := (zpow_lt_zpow_iff_right₀ one_lt_two).mp this
    omega
  obtain ⟨c, hc, place, counted⟩ := counted_of_deep radicand deep
  exact ⟨m, c, h, hc, place, counted, root⟩

/-- A root between two neighbouring midpoints is rounded to the number between them. -/
theorem sqrt_of_between {z : Dyadic} {a : Nat} {b : Int} {y : Rat} (ha : 0 < a) (bits : a < 2 ^ w)
    (value : z.toRat = y * 2 ^ (2 * b)) (least : 2 ^ w * 2 ^ w ≤ 4 * y)
    (between : (2 * a - 1) * (2 * a - 1) < 4 * y ∧ 4 * y < (2 * a + 1) * (2 * a + 1 : Rat)) :
    sqrt w (finite z) = some (inRange false a b) := by
  obtain ⟨below, above⟩ := between
  have power : (0 : Rat) < 2 ^ w := by positivity
  have top : (a : Rat) + 1 ≤ 2 ^ w := by exact_mod_cast bits
  have positive : 0 < y := by nlinarith
  have small : y < 2 ^ w * 2 ^ w := by nlinarith
  obtain ⟨m, c, h, hc, place, counted, root⟩ := sqrt_grid positive small value
  have unit : (0 : Rat) < 2 ^ h := by positivity
  -- the midpoint below the number, in halves of its unit
  obtain ⟨i, hi⟩ : ∃ i, 2 * a = i + 1 := ⟨2 * a - 1, by omega⟩
  have hi' : (2 * a : Rat) = i + 1 := by exact_mod_cast hi
  have lower := (Rounding.doubleRoot_counted hc counted i).1 (by nlinarith)
  have upper := (Rounding.doubleRoot_counted hc counted (2 * a + 1)).2.1 (by push_cast; linarith)
  have leading := (Rounding.doubleRoot_counted hc counted (2 ^ w)).2.2 (by push_cast; linarith)
  rw [root]
  generalize Rounding.doubleRoot m = p at lower upper leading
  push_cast at upper leading
  have exact : (p : Rat) / (1 : Nat) * 2 ^ (h - 1) = p * 2 ^ h / 2 := by
    rw [zpow_sub_one₀ two_ne_zero]
    push_cast
    ring
  have nonzero : 0 < p := by
    have : (0 : Rat) < p := lt_of_lt_of_le (by positivity) leading
    exact_mod_cast this
  refine congrArg some (nearest_eq nonzero one_pos exact ?_ bits ?_)
  · rw [place]
    have := mul_le_mul_of_nonneg_right leading unit.le
    linarith
  · have moved : (p : Rat) * 2 ^ h / 2 - a * 2 ^ b = (p - 2 * (i + 1) * c) * (2 ^ h / 2) := by
      rw [place, ← hi']
      ring
    rw [moved, abs_mul, abs_of_pos (half_pos unit), place, show
      (2 : Rat) * c * 2 ^ h / 2 = 2 * c * (2 ^ h / 2) by ring]
    refine mul_lt_mul_of_pos_right (abs_lt.mpr ?_) (half_pos unit)
    constructor
    · linarith
    · rw [hi'] at upper
      linarith

/-- The rounded square of `a · 2 ^ b` in units of `2 ^ (2 * b)`. It is half the exact one at
least. -/
theorem square_rounded {a : Nat} {b : Int} {s : Rat} (hw : 0 < w) (low : 2 ^ w ≤ 2 * a)
    (bits : a < 2 ^ w) (hd : 0 < d) (value : (n : Rat) / d * 2 ^ e = a * 2 ^ b * (a * 2 ^ b))
    (hs : 0 < s) (square : (nearest w false n d e).Denotes false s) :
    (a * 2 ^ b * (a * 2 ^ b) : Rat) < 2 * s ∧ ∃ y, s = y * 2 ^ (2 * b) ∧
      ((2 * a - 1) * (2 * a - 1) < 4 * y ∧ 4 * y < (2 * a + 1) * (2 * a + 1 : Rat)) ∧
      2 ^ w * 2 ^ w ≤ 4 * y := by
  have ha : (0 : Rat) < a := by exact_mod_cast Rounding.pos_of_lead low
  have hn := numerator_pos (by positivity) value
  obtain ⟨m, c, rounded, large, _, last, top, error⟩ := nearest_spec false hw hn hd value
  have hm := Rounding.pos_of_lead large
  rw [rounded] at square
  obtain ⟨magnitude, -⟩ := bounds_of_denotes hm hs square
  have large : (2 : Rat) ^ w ≤ 2 * m := by exact_mod_cast large
  have place : (0 : Rat) < 2 ^ c := by positivity
  refine ⟨by rw [magnitude]; nlinarith, ?_⟩
  -- everything is counted in the unit of the exact square
  have unit : (0 : Rat) < 2 ^ (2 * b) := by positivity
  have moved : (2 : Rat) ^ c = 2 ^ (c - 2 * b) * 2 ^ (2 * b) := by
    rw [← zpow_add₀ two_ne_zero, sub_add_cancel]
  have product : (a : Rat) * 2 ^ b * (a * 2 ^ b) = a * a * 2 ^ (2 * b) := by
    rw [two_zpow_double]
    ring
  rw [product, moved] at last top error
  have distance : |(a * a : Rat) - m * 2 ^ (c - 2 * b)| ≤ 2 ^ (c - 2 * b) / 2 := by
    have factored : (a * a : Rat) * 2 ^ (2 * b) - m * (2 ^ (c - 2 * b) * 2 ^ (2 * b)) =
        (a * a - m * 2 ^ (c - 2 * b)) * 2 ^ (2 * b) := by ring
    rw [factored, abs_mul, abs_of_pos unit] at error
    exact le_of_mul_le_mul_right (by linarith) unit
  refine ⟨m * 2 ^ (c - 2 * b), by rw [magnitude, moved, mul_assoc], ?_⟩
  exact square_between (by exact_mod_cast low) (by exact_mod_cast bits)
    large (le_of_mul_le_mul_right (by linarith) unit)
    (lt_of_mul_lt_mul_right (by linarith) unit.le) distance

/-- A float is the rounded root of its rounded square, and the square is half the exact one at
least. -/
theorem sqrt_nearest_square {z : Dyadic} {s : Rat} (hw : 0 < w) (float : IsFloat w r) (hd : 0 < d)
    (value : (n : Rat) / d * 2 ^ e = r * r) (hs : 0 < s) (hz : z.toRat = s)
    (square : nearest w false n d e = finite z) :
    r * r < 2 * s ∧ ∃ q, sqrt w (finite z) = some q ∧ q.Denotes false r := by
  obtain ⟨⟨a, b, low, bits, rfl⟩, least, most⟩ := float
  have ha := Rounding.pos_of_lead low
  obtain ⟨half, y, counted, between, bottom⟩ :=
    square_rounded hw low bits hd value hs ⟨z, square, hz⟩
  exact ⟨half, inRange false a b, sqrt_of_between ha bits (hz.trans counted) bottom between,
    denotes_of_bounds false ha least most⟩

end ExtDyadic
end StackCalc
