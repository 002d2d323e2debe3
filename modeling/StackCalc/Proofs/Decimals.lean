import Mathlib.Data.Rat.Lemmas
import StackCalc.Decimal
import StackCalc.Proofs.Nearest
import StackCalc.Proofs.Numerals

/-! # Decimal numbers and their digits

A decimal number in normal form is known from its value, and its digits tell between which powers of
ten it is. A number of no more than `d` digits is found again by rounding any number near it to `d`
digits. -/

namespace StackCalc.Decimal

variable {x v : Decimal} {m : Nat} {e : Int}

/-- The number without its sign. -/
def magnitude (v : Decimal) : Rat := v.mantissa * 10 ^ v.exponent

/-- The number that a decimal denotes. -/
def value (v : Decimal) : Rat := signed v.negative v.magnitude

/-- A number other than zero whose mantissa has no factor ten. -/
def Normal (v : Decimal) : Prop := v.mantissa % 10 ≠ 0

instance (v : Decimal) : Decidable v.Normal := inferInstanceAs (Decidable (_ ≠ _))

/-! ## 1. Normal form -/

theorem ten_zpow_pos (e : Int) : (0 : Rat) < 10 ^ e := zpow_pos (by norm_num) e

theorem ten_pow_mul_zpow (k : Nat) (e : Int) : (10 : Rat) ^ k * 10 ^ e = 10 ^ (k + e) := by
  rw [zpow_add₀ (by norm_num), zpow_natCast]

theorem Normal.pos (h : v.Normal) : 0 < v.mantissa := by
  unfold Normal at h
  omega

theorem magnitude_pos (h : 0 < v.mantissa) : 0 < v.magnitude := by
  have : (0 : Rat) < v.mantissa := by exact_mod_cast h
  exact mul_pos this (ten_zpow_pos _)

theorem mantissa_pos (h : 0 < v.magnitude) : 0 < v.mantissa := by
  rw [Nat.pos_iff_ne_zero]
  intro none
  simp [magnitude, none] at h

theorem magnitude_nonneg (v : Decimal) : 0 ≤ v.magnitude :=
  mul_nonneg (Nat.cast_nonneg _) (ten_zpow_pos _).le

/-- A number over a smaller power of ten. -/
theorem magnitude_over {f : Int} (hf : f ≤ v.exponent) :
    v.magnitude = ((v.mantissa * 10 ^ (v.exponent - f).toNat : Nat) : Rat) * 10 ^ f := by
  unfold magnitude
  push_cast
  rw [mul_assoc, ten_pow_mul_zpow]
  congr 2
  omega

theorem stripZeros_spec (hm : 0 < m) (e : Int) :
    (stripZeros m e).1 % 10 ≠ 0 ∧
      ((stripZeros m e).1 : Rat) * 10 ^ (stripZeros m e).2 = m * 10 ^ e := by
  fun_induction stripZeros m e with
  | case1 m e h ih =>
    obtain ⟨normal, same⟩ := ih (by omega)
    refine ⟨normal, same.trans ?_⟩
    have tens : (m : Rat) = (m / 10 : Nat) * 10 := by
      have : m = m / 10 * 10 := by omega
      exact_mod_cast this
    rw [tens, add_comm, zpow_add₀ (by norm_num), zpow_one, ← mul_assoc]
  | case2 m e h => exact ⟨by omega, rfl⟩

theorem normalize_of_normal (h : v.Normal) : v.normalize = v := by
  have kept : stripZeros v.mantissa v.exponent = (v.mantissa, v.exponent) := by
    unfold stripZeros
    exact dif_neg fun hm => h hm.2
  unfold normalize
  rw [if_neg h.pos.ne', kept]

theorem normalize_spec (h : 0 < v.mantissa) :
    v.normalize.Normal ∧ v.normalize.magnitude = v.magnitude ∧
      v.normalize.negative = v.negative := by
  unfold normalize
  rw [if_neg h.ne']
  obtain ⟨normal, same⟩ := stripZeros_spec h v.exponent
  exact ⟨normal, same, rfl⟩

theorem normal_of_normalize (h : v.normalize = v) : v = zero ∨ v.Normal := by
  rcases Nat.eq_zero_or_pos v.mantissa with hm | hm
  · rw [normalize, if_pos hm] at h
    exact .inl h.symm
  · rw [← h]
    exact .inr (normalize_spec hm).1

/-- A signed word of 64 bits holds the exponent. -/
def InWord (e : Int) : Prop := -9223372036854775808 ≤ e ∧ e < 9223372036854775808

instance (e : Int) : Decidable (InWord e) := inferInstanceAs (Decidable (_ ∧ _))

theorem inRange_iff_inWord : Word.int64.inRange e ↔ InWord e := by
  rw [Word.inRange_int64, InWord]
  omega

theorem hold_eq_ok_iff : v.hold = .ok x ↔ InWord v.exponent ∧ x = v := by
  rw [hold, ← inRange_iff_inWord, Word.hold]
  split
  · rename_i fits
    exact ⟨fun h => ⟨fits, (Except.ok.inj h).symm⟩, fun h => h.2 ▸ rfl⟩
  · rename_i out
    exact ⟨nofun, fun h => absurd h.1 out⟩

theorem hold_of_inWord (h : InWord v.exponent) : v.hold = .ok v := hold_eq_ok_iff.mpr ⟨h, rfl⟩

theorem hold_of_not_inWord (h : ¬ InWord v.exponent) : v.hold = .error .overflow := by
  rw [hold, Word.hold, if_neg (mt inRange_iff_inWord.mp h)]
  rfl

/-- Of two numbers in normal form with one value none has the smaller exponent. -/
theorem exponent_le (hx : x.Normal) (h : x.magnitude = v.magnitude) :
    v.exponent ≤ x.exponent := by
  by_contra above
  rw [magnitude_over (v := v) (f := x.exponent) (by omega)] at h
  have same := mul_right_cancel₀ (ten_zpow_pos _).ne' h
  have same : x.mantissa = v.mantissa * 10 ^ (v.exponent - x.exponent).toNat := by
    exact_mod_cast same
  obtain ⟨j, hj⟩ : ∃ j, (v.exponent - x.exponent).toNat = j + 1 :=
    ⟨(v.exponent - x.exponent).toNat - 1, by omega⟩
  refine hx ?_
  rw [same, hj, Nat.pow_succ, ← Nat.mul_assoc, Nat.mul_mod_left]

/-- A number in normal form is known from its sign and its value. -/
theorem eq_of_magnitude (hx : x.Normal) (hv : v.Normal) (sign : x.negative = v.negative)
    (h : x.magnitude = v.magnitude) : x = v := by
  have exponents : x.exponent = v.exponent :=
    le_antisymm (exponent_le hv h.symm) (exponent_le hx h)
  have mantissas : x.mantissa = v.mantissa := by
    unfold magnitude at h
    rw [exponents] at h
    exact_mod_cast mul_right_cancel₀ (ten_zpow_pos _).ne' h
  cases x
  cases v
  simp_all

theorem value_of_mantissa (h : v.mantissa = 0) : v.value = 0 := by
  simp [value, magnitude, signed, h]

theorem value_ne_zero (h : v.Normal) : v.value ≠ 0 := by
  have positive := magnitude_pos h.pos
  rw [← abs_pos, value, abs_signed positive.le]
  exact positive

/-- A number in normal form is known from what it denotes. -/
theorem eq_of_value (hx : x = zero ∨ x.Normal) (hv : v = zero ∨ v.Normal)
    (h : x.value = v.value) : x = v := by
  have none : zero.value = 0 := value_of_mantissa rfl
  rcases hx with rfl | hx <;> rcases hv with rfl | hv
  · rfl
  · exact absurd (h.symm.trans none) (value_ne_zero hv)
  · exact absurd (h.trans none) (value_ne_zero hx)
  · have hx₀ := magnitude_pos hx.pos
    have hv₀ := magnitude_pos hv.pos
    have same : x.magnitude = v.magnitude := by
      rw [← abs_signed hx₀.le, ← abs_signed hv₀.le]
      exact congrArg abs h
    have sign : x.negative = true ↔ v.negative = true := by
      rw [← signed_neg_iff hx₀, ← signed_neg_iff hv₀]
      exact iff_of_eq (congrArg (· < 0) h)
    exact eq_of_magnitude hx hv (Bool.eq_iff_iff.mpr sign) same

/-! ## 2. Digits -/

theorem magnitude_bounds (h : 0 < v.mantissa) :
    (10 : Rat) ^ (v.digitCount - 1) * 10 ^ v.exponent ≤ v.magnitude ∧
      v.magnitude + 10 ^ v.exponent ≤ 10 ^ v.digitCount * 10 ^ v.exponent := by
  obtain ⟨lower, upper⟩ := Numeral.digits_bounds h
  have power := ten_zpow_pos v.exponent
  have lower : (10 : Rat) ^ (v.digitCount - 1) ≤ v.mantissa := by exact_mod_cast lower
  have upper : (v.mantissa : Rat) + 1 ≤ 10 ^ v.digitCount := by exact_mod_cast upper
  unfold magnitude
  constructor <;> nlinarith

/-- A power of ten with more digits is not in normal form, so a mantissa up to a power of ten has no
more digits than zeros follow the one. -/
theorem digitCount_le {d : Nat} (hv : v.Normal) (hd : 0 < d) (bound : v.mantissa ≤ 10 ^ d) :
    v.digitCount ≤ d := by
  by_contra many
  have digits : 10 ^ d ≤ v.mantissa :=
    (Nat.pow_le_pow_right (by omega) (Nat.le_sub_one_of_lt (Nat.lt_of_not_le many))).trans
      (Numeral.digits_bounds hv.pos).1
  refine hv ?_
  rw [le_antisymm bound digits]
  exact Nat.mod_eq_zero_of_dvd (dvd_pow_self 10 hd.ne')

theorem eq_of_multiples {a b : Nat} {u : Rat} (hu : 0 < u) (h : |a * u - b * u| < u) : a = b := by
  rw [← sub_mul, abs_mul, abs_of_pos hu, mul_lt_iff_lt_one_left hu] at h
  have h : |(a : Int) - b| < 1 := by exact_mod_cast h
  have := Int.abs_lt_one_iff.mp h
  omega

/-- A share so small that `d` digits tell numbers apart that differ by more. -/
theorem share_le {d : Nat} {ε : Rat} (hε : 0 ≤ ε) (small : 4 * ε * 10 ^ d < 1) : ε ≤ 1 / 2 := by
  have one_le : (1 : Rat) ≤ 10 ^ d := one_le_pow₀ (by norm_num)
  nlinarith

/-- A natural up to `10 ^ d` has no more than `d` digits in normal form. -/
theorem digitCount_normalize_le {negative : Bool} {m d : Nat} {e : Int} (hm : 0 < m) (hd : 0 < d)
    (bound : m ≤ 10 ^ d) : (normalize ⟨negative, m, e⟩).digitCount ≤ d := by
  obtain ⟨normal, same, -⟩ := normalize_spec (v := ⟨negative, m, e⟩) hm
  have value : magnitude ⟨negative, m, e⟩ = m * 10 ^ e := rfl
  have above : e ≤ (normalize ⟨negative, m, e⟩).exponent := exponent_le normal same
  rw [value, magnitude_over above] at same
  have same := mul_right_cancel₀ (ten_zpow_pos e).ne' same
  have same : (normalize ⟨negative, m, e⟩).mantissa *
      10 ^ ((normalize ⟨negative, m, e⟩).exponent - e).toNat = m := by exact_mod_cast same
  refine digitCount_le normal hd ?_
  exact (Nat.le_mul_of_pos_right _ (Nat.pow_pos (by norm_num))).trans (same.le.trans bound)

theorem magnitude_le {d : Nat} (h : 0 < v.mantissa) (count : v.digitCount ≤ d) :
    v.magnitude + 10 ^ v.exponent ≤ 10 ^ d * 10 ^ v.exponent := by
  have power := ten_zpow_pos v.exponent
  have digits : (10 : Rat) ^ v.digitCount ≤ 10 ^ d := pow_le_pow_right₀ (by norm_num) count
  have upper := (magnitude_bounds h).2
  nlinarith

/-- Two numbers of no more than `d` digits that are near by a small share of such a digit are
equal. -/
theorem magnitude_eq_of_near {d : Nat} {ε : Rat} (hx : 0 < x.mantissa) (hv : 0 < v.mantissa)
    (xCount : x.digitCount ≤ d) (vCount : v.digitCount ≤ d) (hε : 0 ≤ ε)
    (small : 4 * ε * 10 ^ d < 1) (near : Near ε x.magnitude v.magnitude) :
    x.magnitude = v.magnitude := by
  have vPos := magnitude_pos hv
  have half := near.le_two_mul vPos (share_le hε small)
  unfold Near at near
  rw [abs_of_pos vPos] at near
  -- both are multiples of the smaller one of their last places
  rcases le_total x.exponent v.exponent with order | order
  · have unit := ten_zpow_pos x.exponent
    have bound := magnitude_le hx xCount
    have close : |x.magnitude - v.magnitude| < 10 ^ x.exponent := by
      calc |x.magnitude - v.magnitude| ≤ ε * v.magnitude := near
        _ ≤ ε * (2 * (10 ^ d * 10 ^ x.exponent)) := by
          have : v.magnitude ≤ 2 * (10 ^ d * 10 ^ x.exponent) := by linarith
          gcongr
        _ < 10 ^ x.exponent := by nlinarith
    rw [magnitude_over (v := v) order] at close ⊢
    exact congrArg (fun k : Nat => (k : Rat) * 10 ^ x.exponent) (eq_of_multiples unit close)
  · have unit := ten_zpow_pos v.exponent
    have bound := magnitude_le hv vCount
    have close : |x.magnitude - v.magnitude| < 10 ^ v.exponent := by
      calc |x.magnitude - v.magnitude| ≤ ε * v.magnitude := near
        _ ≤ ε * (10 ^ d * 10 ^ v.exponent) := by
          have : v.magnitude ≤ 10 ^ d * 10 ^ v.exponent := by linarith
          gcongr
        _ < 10 ^ v.exponent := by nlinarith
    rw [magnitude_over (v := x) order] at close ⊢
    exact congrArg (fun k : Nat => (k : Rat) * 10 ^ v.exponent) (eq_of_multiples unit close)

/-- A number of no more than `d` digits is a multiple of the last one of `d` places of a number near
it. -/
theorem place_le_exponent {d : Nat} {ε : Rat} (hd : 0 < d) (hx : 0 < x.mantissa)
    (hv : 0 < v.mantissa) (xCount : d < x.digitCount) (vCount : v.digitCount ≤ d) (hε : 0 ≤ ε)
    (small : 4 * ε * 10 ^ d < 1) (near : Near ε x.magnitude v.magnitude) :
    x.exponent + (x.digitCount - d : Nat) ≤ v.exponent := by
  by_contra below
  let f := x.exponent + (x.digitCount - d : Nat) - 1
  have unit := ten_zpow_pos f
  -- the leading digit of the near number is at a place that this number does not reach
  have reached : (10 : Rat) ^ d * 10 ^ f ≤ x.magnitude := by
    refine le_trans (le_of_eq ?_) (magnitude_bounds hx).1
    rw [ten_pow_mul_zpow, ten_pow_mul_zpow]
    congr 1
    omega
  have short : v.magnitude + 10 ^ f ≤ 10 ^ d * 10 ^ f := by
    have upper := magnitude_le hv vCount
    have lower : (10 : Rat) ^ v.exponent ≤ 10 ^ f := zpow_le_zpow_right₀ (by norm_num) (by omega)
    have one_le : (1 : Rat) ≤ 10 ^ d := one_le_pow₀ (by norm_num)
    nlinarith
  have vPos := magnitude_pos hv
  have upper := near.le vPos
  have missed : ε * v.magnitude ≤ ε * (10 ^ d * 10 ^ f) := by
    have : v.magnitude ≤ 10 ^ d * 10 ^ f := by linarith
    gcongr
  nlinarith

/-- The mantissa over the digits that are dropped. -/
theorem mantissa_div (x : Decimal) (drop : Nat) :
    (x.mantissa : Rat) / (Nat.pow 10 drop : Nat) =
      x.magnitude / 10 ^ (x.exponent + (drop : Int)) := by
  have tens : ((Nat.pow 10 drop : Nat) : Rat) = 10 ^ (drop : Int) := by
    rw [zpow_natCast]
    exact Nat.cast_pow 10 drop
  have place := ten_zpow_pos x.exponent
  rw [tens, magnitude, zpow_add₀ (by norm_num)]
  field_simp

/-- Dropping digits finds a multiple of the last place that is left, if it is near. -/
theorem halfUp_of_near {d k drop : Nat} {ε : Rat} (hx : 0 < x.mantissa)
    (count : x.digitCount = d + drop) (hε : 0 ≤ ε) (small : 4 * ε * 10 ^ d < 1) (hk : 0 < k)
    (near : Near ε x.magnitude (k * 10 ^ (x.exponent + (drop : Int)))) :
    Rounding.halfUp x.mantissa (Nat.pow 10 drop) = k := by
  have unit := ten_zpow_pos (x.exponent + (drop : Int))
  have above : x.magnitude ≤ 10 ^ d * 10 ^ (x.exponent + (drop : Int)) := by
    have upper := (magnitude_bounds hx).2
    have place := ten_zpow_pos x.exponent
    have digits : (10 : Rat) ^ x.digitCount * 10 ^ x.exponent =
        10 ^ d * 10 ^ (x.exponent + (drop : Int)) := by
      rw [ten_pow_mul_zpow, ten_pow_mul_zpow]
      congr 1
      omega
    linarith
  have positive : (0 : Rat) < k * 10 ^ (x.exponent + (drop : Int)) := by
    have : (0 : Rat) < k := by exact_mod_cast hk
    positivity
  have half := near.le_two_mul positive (share_le hε small)
  refine Rounding.halfUp_eq (Nat.pow_pos (by norm_num)) ?_
  rw [mantissa_div, ← mul_div_cancel_right₀ (k : Rat) unit.ne', ← sub_div, abs_div, abs_of_pos unit,
    div_lt_iff₀ unit]
  unfold Near at near
  rw [abs_of_pos positive] at near
  nlinarith

/-! ## 3. Rounding -/

/-- A number in normal form with a given sign that is near a positive number. -/
structure Approaches (x : Decimal) (negative : Bool) (ε t : Rat) : Prop where
  normal : x.Normal
  sign : x.negative = negative
  near : Near ε x.magnitude t

/-- What approaches a number approaches the numbers that it is near. -/
theorem Approaches.trans {negative : Bool} {ε δ γ s t : Rat} (h : x.Approaches negative ε s)
    (near : Near δ s t) (hε : 0 ≤ ε) (sum : ε + δ + ε * δ ≤ γ) : x.Approaches negative γ t :=
  ⟨h.normal, h.sign, (h.near.trans near hε).mono sum⟩

/-- A change of the exponent changes the number that is approached. -/
theorem Approaches.shift {negative : Bool} {ε t : Rat} (h : x.Approaches negative ε t) (k : Int) :
    Approaches { x with exponent := x.exponent - k } negative ε (t * 10 ^ (-k)) where
  normal := h.normal
  sign := h.sign
  near := by
    have moved := h.near.mul_right (10 ^ (-k))
    rwa [magnitude, mul_assoc, ← zpow_add₀ (by norm_num), ← sub_eq_add_neg] at moved

/-- Rounding to `d` digits finds the number of no more than `d` digits that is approached. -/
theorem Approaches.nearestSig_eq {d : Nat} {ε : Rat} (hd : 0 < d) (hv : v.Normal)
    (h : x.Approaches v.negative ε v.magnitude) (count : v.digitCount ≤ d) (hε : 0 ≤ ε)
    (small : 4 * ε * 10 ^ d < 1) : x.nearestSig d = v := by
  have hx := h.normal.pos
  unfold nearestSig
  dsimp only
  rw [Nat.max_eq_left hd]
  split
  · exact eq_of_magnitude h.normal hv h.sign
      (magnitude_eq_of_near hx hv.pos (by omega) count hε small h.near)
  · have order := place_le_exponent hd hx hv.pos (by omega) count hε small h.near
    let drop := x.digitCount - d
    let k := v.mantissa * 10 ^ (v.exponent - (x.exponent + drop)).toNat
    have positive : 0 < k := Nat.mul_pos hv.pos (Nat.pow_pos (by norm_num))
    have multiple : v.magnitude = k * 10 ^ (x.exponent + (drop : Int)) := magnitude_over order
    have near : Near ε x.magnitude (k * 10 ^ (x.exponent + (drop : Int))) := multiple ▸ h.near
    have kept := halfUp_of_near hx (by omega) hε small positive near
    obtain ⟨normal, same, negative⟩ := normalize_spec
      (v := ⟨x.negative, k, x.exponent + (drop : Int)⟩) positive
    have found := eq_of_magnitude normal hv (negative.trans h.sign) (same.trans multiple.symm)
    rwa [← kept] at found

/-- The number that is rounded is a quotient of `sig` digits before the point, over a power of
ten. -/
theorem ofQuotient_eq {b n d : Nat} (negative : Bool) (sig : Nat) (range : b < 10000000000)
    (hd : 0 < d) (within : InReach b (n / d)) :
    ∃ (k l : Nat) (s : Int), 0 < l ∧
      ofQuotient negative sig n d = normalize ⟨negative, Rounding.halfEven k l, s⟩ ∧
      (k : Rat) / l * 10 ^ s = n / d ∧ (10 : Rat) ^ (sig - 1 : Int) ≤ k / l ∧
      (k : Rat) / l < 10 ^ (sig : Int) := by
  have hn : 0 < n := by
    rw [Nat.pos_iff_ne_zero]
    rintro rfl
    simpa using within.pos
  obtain ⟨low, high⟩ := Rounding.floorLog2_spec hn hd
  have place := within.lead low high
  let s : Int := (sig : Int) - 1 - Rounding.floorLog10 n d
  refine ⟨n * Nat.pow 10 s.toNat, d * Nat.pow 10 (-s).toNat, -s,
    Nat.mul_pos hd (Nat.pow_pos (by norm_num)), by rw [ofQuotient, if_neg hn.ne'], ?_, ?_, ?_⟩
  · rw [scaled_div, mul_assoc, ← zpow_add₀ (by norm_num), add_neg_cancel, zpow_zero, mul_one]
  · rw [scaled_div, show ((sig : Int) - 1) = Rounding.floorLog10 n d + s by omega,
      zpow_add₀ (by norm_num)]
    have := Rounding.floorLog10_le hn hd (by omega)
    gcongr
  · rw [scaled_div, show (sig : Int) = Rounding.floorLog10 n d + 1 + s by omega,
      zpow_add₀ (by norm_num)]
    have := Rounding.lt_floorLog10 hn hd (by omega)
    gcongr

/-- A quotient is rounded to a number near it. -/
theorem ofQuotient_approaches {sig b n d : Nat} (negative : Bool) (hsig : 0 < sig)
    (range : b < 10000000000) (hd : 0 < d) (within : InReach b (n / d)) :
    (ofQuotient negative sig n d).Approaches negative (10 ^ (1 - sig : Int) / 2) (n / d) := by
  obtain ⟨k, l, s, hl, rounded, value, large, -⟩ := ofQuotient_eq negative sig range hd within
  have near := Rounding.near_halfEven hl (ten_zpow_pos _) large
  have share : (1 : Rat) / (2 * 10 ^ ((sig : Int) - 1)) = 10 ^ (1 - sig : Int) / 2 := by
    rw [← neg_sub, zpow_neg]
    field_simp
  have below : (10 : Rat) ^ (1 - sig : Int) ≤ 1 :=
    zpow_le_one_of_nonpos₀ (by norm_num) (by omega)
  rw [share] at near
  have positive : 0 < Rounding.halfEven k l := by
    have : (0 : Rat) < Rounding.halfEven k l :=
      near.pos (lt_of_lt_of_le (ten_zpow_pos _) large) (by linarith)
    exact_mod_cast this
  obtain ⟨normal, same, sign⟩ := normalize_spec
    (v := ⟨negative, Rounding.halfEven k l, s⟩) positive
  rw [rounded]
  refine ⟨normal, sign, ?_⟩
  rw [same, ← value]
  exact near.mul_right (10 ^ s)

/-- Rounding keeps a number that starts before a power of ten from that power on. -/
theorem ten_pow_le_halfEven {j k l : Nat} (hl : 0 < l) (low : (10 : Rat) ^ j ≤ k / l) :
    10 ^ j ≤ Rounding.halfEven k l := by
  have order : Rounding.halfEven (10 ^ j * 1) 1 ≤ Rounding.halfEven k l :=
    Rounding.halfEven_mono one_pos hl (by push_cast; simpa using low)
  rwa [Rounding.halfEven_mul_self one_pos] at order

/-- Rounding does not pass the power of ten that a number is below. -/
theorem halfEven_le_ten_pow {j k l : Nat} (hl : 0 < l) (high : (k : Rat) / l ≤ 10 ^ j) :
    Rounding.halfEven k l ≤ 10 ^ j := by
  have order : Rounding.halfEven k l ≤ Rounding.halfEven (10 ^ j * 1) 1 :=
    Rounding.halfEven_mono hl one_pos (by push_cast; simpa using high)
  rwa [Rounding.halfEven_mul_self one_pos] at order

/-- What has no more than `j + 1` places is below what has the first one of them at a larger power
of ten. -/
theorem scaled_le {a b : Rat} {j : Nat} {s t : Int} (less : s < t) (most : a ≤ 10 ^ (j + 1))
    (least : 10 ^ j ≤ b) : a * 10 ^ s ≤ b * 10 ^ t := by
  have unit := ten_zpow_pos s
  have unit' := ten_zpow_pos t
  have step : (10 : Rat) * 10 ^ s ≤ 10 ^ t := by
    rw [← zpow_one_add₀ (by norm_num)]
    exact zpow_le_zpow_right₀ (by norm_num) (by omega)
  calc a * 10 ^ s ≤ 10 ^ (j + 1) * 10 ^ s := by gcongr
    _ = 10 ^ j * (10 * 10 ^ s) := by ring
    _ ≤ 10 ^ j * 10 ^ t := by gcongr
    _ ≤ b * 10 ^ t := by gcongr

/-- The larger of two quotients does not have the smaller rounding. -/
theorem ofQuotient_mono {sig b n d n' d' : Nat} (negative negative' : Bool) (hsig : 0 < sig)
    (range : b < 10000000000) (hd : 0 < d) (hd' : 0 < d') (within : InReach b (n / d))
    (within' : InReach b (n' / d')) (h : (n : Rat) / d ≤ n' / d') :
    (ofQuotient negative sig n d).magnitude ≤ (ofQuotient negative' sig n' d').magnitude := by
  obtain ⟨k, l, s, hl, rounded, value, low, high⟩ := ofQuotient_eq negative sig range hd within
  obtain ⟨k', l', s', hl', rounded', value', low', high'⟩ :=
    ofQuotient_eq negative' sig range hd' within'
  obtain ⟨j, rfl⟩ : ∃ j, sig = j + 1 := ⟨sig - 1, by omega⟩
  rw [Nat.cast_add_one, add_sub_cancel_right, zpow_natCast] at low low'
  rw [zpow_natCast] at high high'
  have positive := lt_of_lt_of_le (Nat.pow_pos (by norm_num)) (ten_pow_le_halfEven hl low)
  have positive' := lt_of_lt_of_le (Nat.pow_pos (by norm_num)) (ten_pow_le_halfEven hl' low')
  rw [rounded, rounded', (normalize_spec (v := ⟨negative, Rounding.halfEven k l, s⟩) positive).2.1,
    (normalize_spec (v := ⟨negative', Rounding.halfEven k' l', s'⟩) positive').2.1]
  show (Rounding.halfEven k l : Rat) * 10 ^ s ≤ Rounding.halfEven k' l' * 10 ^ s'
  rw [← value, ← value'] at h
  rcases lt_trichotomy s s' with less | rfl | more
  · exact scaled_le less (by exact_mod_cast halfEven_le_ten_pow hl high.le)
      (by exact_mod_cast ten_pow_le_halfEven hl' low')
  · have unit := ten_zpow_pos s
    have order := Rounding.halfEven_mono hl hl' (le_of_mul_le_mul_right h unit)
    exact mul_le_mul_of_nonneg_right (by exact_mod_cast order) unit.le
  · -- then the smaller quotient would be the larger one
    have unit' := ten_zpow_pos s'
    have : (k' : Rat) / l' * 10 ^ s' < 10 ^ (j + 1) * 10 ^ s' := by gcongr
    have := scaled_le more le_rfl low
    linarith

/-! ## 4. Fractions -/

theorem signed_natCast (negative : Bool) (n : Nat) :
    signed negative n = ((if negative then -(n : Int) else n : Int) : Rat) := by
  cases negative <;> simp [signed]

/-- The number as a quotient of integers. -/
theorem value_eq_div (v : Decimal) :
    v.value = ((if v.negative then -(v.mantissa : Int) else v.mantissa) *
      10 ^ v.exponent.toNat : Int) / (10 ^ (-v.exponent).toNat : Int) := by
  have split : signed v.negative v.magnitude = signed v.negative v.mantissa * 10 ^ v.exponent := by
    unfold signed magnitude
    split
    · exact neg_mul_eq_neg_mul _ _
    · rfl
  rw [value, split, signed_natCast, zpow_eq_div (by norm_num)]
  push_cast
  exact (mul_div_assoc _ _ _).symm

theorem toRat?_eq (h : v.exponent.natAbs ≤ maxExponent) : v.toRat? = some v.value := by
  unfold toRat?
  dsimp only
  rw [if_neg (by omega), value_eq_div]
  split
  · rename_i whole
    rw [show v.exponent.natAbs = v.exponent.toNat by omega,
      show (-v.exponent).toNat = 0 by omega]
    simp
  · rename_i fraction
    rw [show v.exponent.natAbs = (-v.exponent).toNat by omega,
      show v.exponent.toNat = 0 by omega, Rat.mkRat_eq_div]
    simp

theorem toRat?_eq_none (h : maxExponent < v.exponent.natAbs) : v.toRat? = none := if_pos h

/-- The parts of the fraction in lowest terms. -/
theorem value_parts (v : Decimal) :
    v.value.num.natAbs ∣ v.mantissa * 10 ^ v.exponent.toNat ∧
      v.value.den ∣ 10 ^ (-v.exponent).toNat := by
  rw [value_eq_div, ← Rat.divInt_eq_div]
  constructor
  · have divides := Int.natAbs_dvd_natAbs.mpr (Rat.num_dvd ((if v.negative then
      -(v.mantissa : Int) else v.mantissa) * 10 ^ v.exponent.toNat)
      (pow_ne_zero (-v.exponent).toNat (by norm_num : (10 : Int) ≠ 0)))
    refine divides.trans (dvd_of_eq ?_)
    rw [Int.natAbs_mul, Int.natAbs_pow]
    split <;> simp
  · have divides := Rat.den_dvd ((if v.negative then -(v.mantissa : Int) else v.mantissa) *
      10 ^ v.exponent.toNat) (10 ^ (-v.exponent).toNat)
    exact_mod_cast divides

/-- A number in normal form is an integer if its last digit is before the point. -/
theorem isWhole_iff (h : v = zero ∨ v.Normal) : v.isWhole = true ↔ ∃ n : Int, v.value = n := by
  unfold isWhole
  rw [decide_eq_true_iff]
  constructor
  · intro whole
    have form := value_eq_div v
    rw [show (-v.exponent).toNat = 0 by omega, pow_zero, Int.cast_one, div_one] at form
    exact ⟨_, form⟩
  · rintro ⟨n, hn⟩
    rcases h with rfl | normal
    · rfl
    · have same : v.magnitude = magnitude ⟨false, n.natAbs, 0⟩ := by
        have unsigned : |v.value| = v.magnitude := abs_signed (magnitude_pos normal.pos).le
        show v.magnitude = n.natAbs * 10 ^ (0 : Int)
        rw [← unsigned, hn, zpow_zero, mul_one, Nat.cast_natAbs, Int.cast_abs]
      exact exponent_le normal same

end StackCalc.Decimal
