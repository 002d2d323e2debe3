import StackCalc.ExtDyadic
import StackCalc.Proofs.Nearness

/-! # Rounding to a binary width

A number that is rounded to `w` bits is near the exact one up to the share `2 ^ -w`, as long as its
exponent is in range. -/

namespace StackCalc

/-- A number with a sign. -/
def signed (negative : Bool) (r : Rat) : Rat := if negative then -r else r

theorem abs_signed {negative : Bool} {r : Rat} (hr : 0 ≤ r) : |signed negative r| = r := by
  unfold signed
  split
  · rw [abs_neg, abs_of_nonneg hr]
  · exact abs_of_nonneg hr

theorem signed_neg_iff {negative : Bool} {r : Rat} (hr : 0 < r) :
    signed negative r < 0 ↔ negative = true := by
  cases negative <;> simp [signed, hr, hr.le]

theorem signed_natAbs (n : Int) : signed (decide (n < 0)) n.natAbs = n := by
  rw [signed, Nat.cast_natAbs, Int.cast_abs]
  split
  · rename_i negative
    rw [abs_of_neg (Int.cast_lt_zero.mpr (of_decide_eq_true negative)), neg_neg]
  · rename_i nonneg
    rw [decide_eq_true_iff, not_lt] at nonneg
    exact abs_of_nonneg (Int.cast_nonneg nonneg)

/-- The sign and the magnitude of an integer over a unit. -/
theorem integer_of_signed {n : Int} {u r : Rat} {negative : Bool} (hu : 0 < u) (hr : 0 < r)
    (h : n * u = signed negative r) :
    decide (n < 0) = negative ∧ (n.natAbs : Rat) * u = r ∧ 0 < n.natAbs := by
  have magnitude : (n.natAbs : Rat) * u = r := by
    rw [Nat.cast_natAbs, Int.cast_abs, ← abs_of_pos hu, ← abs_mul, h, abs_signed hr.le]
  have sign : n < 0 ↔ negative = true := by
    rw [← signed_neg_iff hr, ← h, ← not_le, ← not_le, mul_nonneg_iff_of_pos_right hu]
    exact_mod_cast Iff.rfl
  refine ⟨by cases negative <;> simp [sign], magnitude, ?_⟩
  have : (0 : Rat) < n.natAbs := pos_of_mul_pos_left (magnitude ▸ hr) hu.le
  exact_mod_cast this

/-- A positive number not above `2 ^ b` and not below `2 ^ -b`. -/
def InReach (b : Nat) (t : Rat) : Prop := (2 : Rat) ^ (-b : Int) ≤ t ∧ t ≤ 2 ^ (b : Int)

namespace InReach

variable {b c : Nat} {s t : Rat}

theorem pos (h : InReach b t) : 0 < t := lt_of_lt_of_le (by positivity) h.1

theorem mono (h : InReach b t) (hbc : b ≤ c) : InReach c t :=
  ⟨(zpow_le_zpow_right₀ one_le_two (by omega)).trans h.1,
    h.2.trans (zpow_le_zpow_right₀ one_le_two (by omega))⟩

/-- A number near one that is within bounds is within the next ones. -/
theorem near {ε : Rat} (h : InReach b t) (hs : Near ε s t) (hε : ε ≤ 1 / 2) :
    InReach (b + 1) s := by
  have ht := h.pos
  have lower := hs.ge ht
  have upper := hs.le ht
  have down : (2 : Rat) ^ (-(b + 1 : Nat) : Int) * 2 = 2 ^ (-b : Int) := by
    rw [← zpow_add_one₀ two_ne_zero]
    congr 1
    omega
  have up : (2 : Rat) ^ ((b + 1 : Nat) : Int) = 2 ^ (b : Int) * 2 := by
    rw [← zpow_add_one₀ two_ne_zero]
    congr 1
  obtain ⟨h₁, h₂⟩ := h
  constructor
  · nlinarith
  · nlinarith

theorem mul (hs : InReach b s) (ht : InReach c t) : InReach (b + c) (s * t) := by
  have sPos := hs.pos
  have tPos := ht.pos
  constructor
  · rw [Nat.cast_add, neg_add, zpow_add₀ two_ne_zero]
    exact mul_le_mul hs.1 ht.1 (by positivity) sPos.le
  · rw [Nat.cast_add, zpow_add₀ two_ne_zero]
    exact mul_le_mul hs.2 ht.2 tPos.le (by positivity)

theorem inv (h : InReach b t) : InReach b t⁻¹ := by
  have power : (0 : Rat) < 2 ^ (-b : Int) := by positivity
  refine ⟨?_, ?_⟩
  · rw [zpow_neg]
    exact inv_anti₀ h.pos h.2
  · rw [← neg_neg (b : Int), zpow_neg]
    exact inv_anti₀ power h.1

/-- A positive natural that is not too large. -/
theorem ofNat {n : Nat} (hn : 0 < n) (bound : n ≤ 2 ^ b) : InReach b n := by
  have one_le : (1 : Rat) ≤ n := by exact_mod_cast hn
  refine ⟨le_trans (zpow_le_one_of_nonpos₀ one_le_two (by omega)) one_le, ?_⟩
  rw [zpow_natCast]
  exact_mod_cast bound

theorem tenPow (k : Nat) : InReach (4 * k) ((10 : Rat) ^ k) := by
  have bound : 10 ^ k ≤ 2 ^ (4 * k) := by
    rw [Nat.pow_mul]
    exact Nat.pow_le_pow_left (by omega) k
  have := ofNat (Nat.pow_pos (by omega)) bound
  rwa [Nat.cast_pow, Nat.cast_ofNat] at this

theorem tenZPow (k : Int) : InReach (4 * k.natAbs) ((10 : Rat) ^ k) := by
  rcases le_total 0 k with hk | hk
  · rw [← Int.natAbs_of_nonneg hk, zpow_natCast]
    exact tenPow k.natAbs
  · rw [← neg_neg k, ← Int.ofNat_natAbs_of_nonpos hk, zpow_neg, zpow_natCast, Int.natAbs_neg,
      Int.natAbs_natCast]
    exact (tenPow k.natAbs).inv

/-- A leading place of a number. -/
theorem lead (h : InReach b t) {l : Int} (low : (2 : Rat) ^ l ≤ t) (high : t < 2 ^ (l + 1)) :
    l.natAbs ≤ b + 1 := by
  have above : l ≤ b := (zpow_le_zpow_iff_right₀ one_lt_two).mp (low.trans h.2)
  have below : -b < l + 1 := (zpow_lt_zpow_iff_right₀ one_lt_two).mp (lt_of_le_of_lt h.1 high)
  omega

end InReach

namespace ExtDyadic

/-! ## 1. Dyadic numbers -/

theorem toRat_eq (x : Dyadic) : x.toRat = numerator x * 2 ^ scale x := by
  cases x with
  | zero => simp [numerator, scale]
  | ofOdd n k hn => exact Dyadic.toRat_ofOdd_eq_mul_two_pow

theorem toRat_scaled (m e : Int) : (scaled m e).toRat = m * 2 ^ e := by
  unfold scaled
  dsimp only
  split
  · rename_i kept
    rw [Dyadic.toRat_ofIntWithPrec_eq_mul_two_pow, neg_neg, add_comm,
      zpow_add₀ two_ne_zero, ← mul_assoc, zpow_natCast]
    rw [Int.shiftLeft_eq] at kept
    exact congrArg (· * (2 : Rat) ^ e) (by exact_mod_cast kept)
  · rw [Dyadic.toRat_ofIntWithPrec_eq_mul_two_pow, neg_neg]

/-- A number is `± r`. -/
def Denotes (x : ExtDyadic) (negative : Bool) (r : Rat) : Prop :=
  ∃ y, x = finite y ∧ y.toRat = signed negative r

/-- The sign and the magnitude of a dyadic number other than zero. -/
theorem numerator_of_toRat {y : Dyadic} {negative : Bool} {r : Rat} (hr : 0 < r)
    (h : y.toRat = signed negative r) :
    decide (numerator y < 0) = negative ∧ ((numerator y).natAbs : Rat) * 2 ^ scale y = r ∧
      0 < (numerator y).natAbs :=
  integer_of_signed (by positivity) hr (toRat_eq y ▸ h)

section Dyadic

variable {x y : ExtDyadic} {z : Dyadic} {e : Int} {negative : Bool} {r : Rat}

theorem numerator_neg (z : Dyadic) : numerator (-z) = -numerator z := by
  cases z <;> rfl

theorem scale_neg (z : Dyadic) : scale (-z) = scale z := by
  cases z <;> rfl

theorem numerator_eq_zero_iff : numerator z = 0 ↔ z = 0 := by
  refine ⟨fun h => Dyadic.toRat_inj.mp ?_, fun h => h ▸ rfl⟩
  rw [toRat_eq, h]
  simp

theorem numerator_neg_iff : numerator z < 0 ↔ z.toRat < 0 := by
  have unit : (0 : Rat) < 2 ^ scale z := by positivity
  rw [toRat_eq, ← not_le, ← not_le, mul_nonneg_iff_of_pos_right unit]
  exact_mod_cast Iff.rfl

/-- A number other than zero has a sign and a magnitude. -/
theorem exists_denotes (nonzero : z ≠ 0) : ∃ r, 0 < r ∧
    z.toRat = signed (decide (numerator z < 0)) r := by
  have other : z.toRat ≠ 0 := fun h =>
    nonzero (Dyadic.toRat_inj.mp (h.trans Dyadic.toRat_zero.symm))
  refine ⟨|z.toRat|, abs_pos.mpr other, ?_⟩
  by_cases sign : z.toRat < 0
  · rw [decide_eq_true (numerator_neg_iff.mpr sign), abs_of_neg sign]
    exact (neg_neg _).symm
  · rw [decide_eq_false (mt numerator_neg_iff.mp sign), abs_of_nonneg (not_lt.mp sign)]
    rfl

theorem Denotes.eq (hx : x.Denotes negative r) (hy : y.Denotes negative r) : x = y := by
  obtain ⟨x, rfl, vx⟩ := hx
  obtain ⟨y, rfl, vy⟩ := hy
  exact congrArg finite (Dyadic.toRat_inj.mp (vx.trans vy.symm))

theorem Denotes.isNegative (h : x.Denotes negative r) (hr : 0 < r) : x.isNegative = negative := by
  obtain ⟨z, rfl, value⟩ := h
  exact (numerator_of_toRat hr value).1

theorem Denotes.isZero (h : x.Denotes negative r) (hr : 0 < r) : x.isZero = false := by
  obtain ⟨z, rfl, value⟩ := h
  obtain ⟨_, _, natural⟩ := numerator_of_toRat hr value
  refine decide_eq_false fun zero => ?_
  cases zero
  exact absurd natural (by decide)

/-- A dyadic number over a scale that is not above its own. -/
theorem toRat_over (le : e ≤ scale z) :
    ((numerator z <<< (scale z - e).toNat : Int) : Rat) * 2 ^ e = z.toRat := by
  obtain ⟨k, hk⟩ := Int.le.dest le
  rw [toRat_eq, ← hk, zpow_add₀ two_ne_zero, Int.shiftLeft_eq, add_sub_cancel_left,
    Int.toNat_natCast, zpow_natCast]
  push_cast
  ring

end Dyadic

/-! ## 2. Rounding -/

/-- Rounding does not make a number negative. -/
theorem isNegative_nearest (w n d : Nat) (e : Int) :
    (nearest w false n d e).isNegative = false := by
  have range (m : Nat) (e : Int) : (inRange false m e).isNegative = false := by
    rw [inRange]
    split
    · rfl
    split
    · rfl
    · refine decide_eq_false fun sign => ?_
      rw [numerator_neg_iff, toRat_scaled] at sign
      have : (0 : Rat) ≤ (m : Int) * 2 ^ e := by positivity
      exact this.not_gt sign
  rw [nearest]
  split
  · rfl
  · exact range _ _

/-- A number in range is what it is. -/
theorem denotes_inRange {negative : Bool} {m : Nat} {e : Int}
    (range : ((m.log2 : Int) + 1 + e).natAbs ≤ 2147483647) :
    Denotes (inRange negative m e) negative (m * 2 ^ e) := by
  unfold inRange
  dsimp only
  rw [if_neg (by unfold maxExponent; omega), if_neg (by unfold maxExponent; omega)]
  refine ⟨_, rfl, ?_⟩
  rw [toRat_scaled]
  cases negative <;> simp [signed]

/-- A quotient of `w` bits before the point is rounded to a natural of as many bits, or of one more
if it is the next power of two. -/
theorem halfEven_bits {w n d : Nat} (hw : 0 < w) (hd : 0 < d)
    (large : (2 : Rat) ^ ((w : Int) - 1) ≤ n / d) (small : (n : Rat) / d < 2 ^ (w : Int)) :
    w - 1 ≤ (Rounding.halfEven n d).log2 ∧ (Rounding.halfEven n d).log2 ≤ w ∧
      Near (2 ^ (-w : Int)) (Rounding.halfEven n d) (n / d) := by
  let m := Rounding.halfEven n d
  obtain ⟨above, below⟩ := abs_le.mp (Rounding.halfEven_error (n := n) hd)
  have lower : 2 ^ (w - 1) ≤ m := by
    have power : (2 : Rat) ^ ((w : Int) - 1) = ((2 ^ (w - 1) : Nat) : Rat) := by
      push_cast
      rw [← zpow_natCast]
      congr 1
      omega
    have : ((2 ^ (w - 1) : Nat) : Rat) < m + 1 := by linarith
    have : 2 ^ (w - 1) < m + 1 := by exact_mod_cast this
    omega
  have upper : m < 2 ^ (w + 1) := by
    have : (m : Rat) < 2 ^ (w : Int) + 1 := by linarith
    have : m < 2 ^ w + 1 := by exact_mod_cast this
    have : 2 ^ (w + 1) = 2 * 2 ^ w := Nat.pow_succ'
    have := Nat.two_pow_pos w
    omega
  have hm : m ≠ 0 := by
    have := Nat.two_pow_pos (w - 1)
    omega
  refine ⟨(Nat.le_log2 hm).mpr lower, Nat.lt_succ_iff.mp ((Nat.log2_lt hm).mpr upper), ?_⟩
  refine (Rounding.near_halfEven hd (by positivity) large).mono (le_of_eq ?_)
  rw [zpow_sub₀ two_ne_zero, zpow_one, zpow_neg]
  field_simp

/-- A quotient is rounded to a natural with the leading place of `w` bits, scaled back. -/
theorem nearest_bits {w n d : Nat} (negative : Bool) (e : Int) (hw : 0 < w) (hn : 0 < n)
    (hd : 0 < d) :
    let s : Int := (w : Int) - 1 - Rounding.floorLog2 n d
    ∃ m, nearest w negative n d e = inRange negative m (e - s) ∧ w - 1 ≤ m.log2 ∧ m.log2 ≤ w ∧
      Near (2 ^ (-w : Int)) m (n / d * 2 ^ s) := by
  intro s
  obtain ⟨low, high⟩ := Rounding.floorLog2_spec hn hd
  let l := Rounding.floorLog2 n d
  have hds : 0 < d <<< (-s).toNat := by
    rw [Nat.shiftLeft_eq]
    positivity
  -- the quotient that is rounded has its leading place where `w` bits have it
  have large : (2 : Rat) ^ ((w : Int) - 1) ≤ n / d * 2 ^ s := by
    rw [show ((w : Int) - 1) = l + s by omega, zpow_add₀ two_ne_zero]
    gcongr
  have small : (n : Rat) / d * 2 ^ s < 2 ^ (w : Int) := by
    rw [show (w : Int) = (l + 1) + s by omega, zpow_add₀ two_ne_zero]
    gcongr
  rw [← shifted_div] at large small ⊢
  exact ⟨_, by rw [nearest, if_neg hn.ne'], halfEven_bits hw hds large small⟩

/-- A number in range is rounded to one near it. -/
theorem nearest_near {w b n d : Nat} (negative : Bool) {e : Int} (hw : 0 < w)
    (range : b + 3 ≤ 2147483647) (hd : 0 < d) (within : InReach b (n / d * 2 ^ e)) :
    ∃ r, Denotes (nearest w negative n d e) negative r ∧
      Near (2 ^ (-w : Int)) r (n / d * 2 ^ e) := by
  have power : (0 : Rat) < 2 ^ e := by positivity
  have hn : 0 < n := by
    rw [Nat.pos_iff_ne_zero]
    rintro rfl
    simpa using within.pos
  obtain ⟨low, high⟩ := Rounding.floorLog2_spec hn hd
  let l := Rounding.floorLog2 n d
  let s : Int := (w : Int) - 1 - l
  have place : (l + e).natAbs ≤ b + 1 := by
    refine within.lead ?_ ?_
    · rw [zpow_add₀ two_ne_zero]
      gcongr
    · rw [add_right_comm, zpow_add₀ two_ne_zero]
      gcongr
  obtain ⟨m, rounded, bits₁, bits₂, near⟩ := nearest_bits negative e hw hn hd
  refine ⟨m * 2 ^ (e - s), rounded ▸ denotes_inRange (by omega), ?_⟩
  have moved : (n : Rat) / d * 2 ^ e = n / d * 2 ^ s * 2 ^ (e - s) := by
    rw [mul_assoc, ← zpow_add₀ two_ne_zero]
    congr 2
    omega
  rw [moved]
  exact near.mul_right _

/-! ## 3. Integers and quotients -/

/-- An integer other than zero is rounded to one near it. -/
theorem ofInt_near {w b : Nat} {n : Int} (hw : 0 < w) (range : b + 3 ≤ 2147483647)
    (within : InReach b n.natAbs) :
    ∃ r, Denotes (ofInt w n) (decide (n < 0)) r ∧ Near (2 ^ (-w : Int)) r n.natAbs := by
  have same : ((n.natAbs : Rat) / (1 : Nat)) * 2 ^ (0 : Int) = n.natAbs := by simp
  have near := nearest_near (n := n.natAbs) (d := 1) (e := 0) (decide (n < 0)) hw range one_pos
    (same.symm ▸ within)
  rwa [same] at near

/-- The quotient of two numbers is near the exact one. -/
theorem div_near {w b : Nat} {x y : ExtDyadic} {sx sy : Bool} {rx ry : Rat} (hw : 0 < w)
    (range : b + 3 ≤ 2147483647) (hx : x.Denotes sx rx) (hy : y.Denotes sy ry) (hrx : 0 < rx)
    (hry : 0 < ry) (within : InReach b (rx / ry)) :
    ∃ q r, div w x y = some q ∧ q.Denotes (sx != sy) r ∧ Near (2 ^ (-w : Int)) r (rx / ry) := by
  obtain ⟨x, rfl, hx⟩ := hx
  obtain ⟨y, rfl, hy⟩ := hy
  obtain ⟨negx, magx, _⟩ := numerator_of_toRat hrx hx
  obtain ⟨negy, magy, posy⟩ := numerator_of_toRat hry hy
  have quotient : ((numerator x).natAbs : Rat) / (numerator y).natAbs * 2 ^ (scale x - scale y) =
      rx / ry := by
    rw [← magx, ← magy, zpow_sub₀ two_ne_zero]
    exact (mul_div_mul_comm _ _ _ _).symm
  obtain ⟨r, denotes, near⟩ := nearest_near (sx != sy) hw range posy (quotient.symm ▸ within)
  refine ⟨_, r, ?_, denotes, quotient ▸ near⟩
  rw [div, if_neg (Int.natAbs_pos.mp posy), negx, negy]

end ExtDyadic
end StackCalc
