import StackCalc.Complex
import StackCalc.Proofs.Execution
import StackCalc.Proofs.Survival

/-! # Roots of negative floats

A negative float has a complex root, which is made from the magnitude and the real part. Their sum
and their difference are operands of real roots, so the magnitude must not fall below the number
without its sign. It does not even differ from it, since it is the rounded root of the rounded
square. The sum is then zero and the difference is exact, and so is its half. -/

namespace StackCalc

/-! ## 1. Signs -/

namespace ExtDyadic

variable {w n d : Nat} {e : Int} {x y q : ExtDyadic} {z : Dyadic} {negative : Bool} {r : Rat}

theorem isNegative_div (hx : x.isNegative = false) (hy : y.isNegative = false)
    (h : div w x y = some q) : q.isNegative = false := by
  cases x with
  | infinite s =>
    cases hx
    cases y with
    | infinite t => cases h
    | finite y =>
      have nonneg : decide (numerator y < 0) = false := hy
      rw [div, nonneg] at h
      cases h
      rfl
  | finite x =>
    cases y with
    | infinite t =>
      cases h
      rfl
    | finite y =>
      have nonnegx : decide (numerator x < 0) = false := hx
      have nonnegy : decide (numerator y < 0) = false := hy
      rw [div, nonnegx, nonnegy] at h
      split at h
      · cases h
      · cases h
        exact isNegative_nearest ..

/-! ## 2. Steps without rounding -/

/-- Two numbers over the smaller of their scales. -/
theorem aligned (x y : Dyadic) : ∃ m e : Int, (m : Rat) * 2 ^ e = x.toRat + y.toRat ∧
    ∀ w, sumFinite w x y = nearestInt w m e := by
  refine ⟨_, _, ?_, fun w => rfl⟩
  rw [Int.cast_add, add_mul, toRat_over (min_le_left _ _), toRat_over (min_le_right _ _)]

/-- Numbers of one leading place are added over their scales. -/
theorem add_eq_sumFinite {x y : Dyadic} (hx : numerator x ≠ 0) (hy : numerator y ≠ 0)
    (level : lead x = lead y) : add w (finite x) (finite y) = some (sumFinite w x y) := by
  have aligns {a b : Dyadic} (same : lead a = lead b) : negligible w a b = false := by
    rw [negligible, same, Bool.and_eq_false_iff]
    exact .inr (decide_eq_false (by omega))
  rw [add, if_neg hx, if_neg hy, aligns level, aligns level.symm]
  rfl

/-- A number other than zero and its opposite. -/
theorem add_neg_self (nonzero : z ≠ 0) : add w (finite (-z)) (finite z) = some (finite 0) := by
  have number := mt numerator_eq_zero_iff.mp nonzero
  have level : lead (-z) = lead z := by rw [lead, numerator_neg, scale_neg, Int.natAbs_neg, lead]
  rw [add_eq_sumFinite (by rwa [numerator_neg, neg_ne_zero]) number level]
  obtain ⟨m, e, sum, rounded⟩ := aligned (-z) z
  rw [Dyadic.toRat_neg, neg_add_cancel] at sum
  have zero : m = 0 := by
    have unit : (2 : Rat) ^ e ≠ 0 := by positivity
    exact_mod_cast (mul_eq_zero.mp sum).resolve_right unit
  rw [rounded, zero]
  rfl

/-- Taking a number from its opposite doubles that. -/
theorem neg_sub_self (float : IsFloat w (2 * r)) (hr : 0 < r) (value : (-z).toRat = r) :
    ∃ s, sub w (finite (-z)) (finite z) = some s ∧ s.Denotes false (2 * r) := by
  have opposite : (-z).toRat = signed false r := value
  obtain ⟨_, _, natural⟩ := numerator_of_toRat hr opposite
  have number : numerator (-z) ≠ 0 := Int.natAbs_pos.mp natural
  obtain ⟨m, e, sum, rounded⟩ := aligned (-z) (-z)
  refine ⟨_, add_eq_sumFinite number number rfl, ?_⟩
  rw [rounded]
  refine nearestInt_exact float ?_
  rw [sum, value, ← two_mul]
  rfl

/-- The magnitude of a quotient. -/
theorem quotient_value {x y : Dyadic} {sx sy : Bool} {rx ry : Rat} (hrx : 0 < rx) (hry : 0 < ry)
    (hx : x.toRat = signed sx rx) (hy : y.toRat = signed sy ry) :
    ((numerator x).natAbs : Rat) / (numerator y).natAbs * 2 ^ (scale x - scale y) = rx / ry := by
  rw [← (numerator_of_toRat hrx hx).2.1, ← (numerator_of_toRat hry hy).2.1, zpow_sub₀ two_ne_zero]
  exact (mul_div_mul_comm _ _ _ _).symm

theorem div_exact {sx sy : Bool} {rx ry : Rat} (hx : x.Denotes sx rx) (hy : y.Denotes sy ry)
    (hrx : 0 < rx) (hry : 0 < ry) (float : IsFloat w (rx / ry)) :
    ∃ q, div w x y = some q ∧ q.Denotes (sx != sy) (rx / ry) := by
  obtain ⟨x, rfl, hx⟩ := hx
  obtain ⟨y, rfl, hy⟩ := hy
  obtain ⟨negx, -, -⟩ := numerator_of_toRat hrx hx
  obtain ⟨negy, -, posy⟩ := numerator_of_toRat hry hy
  refine ⟨_, ?_, nearest_exact (sx != sy) float posy (quotient_value hrx hry hx hy)⟩
  rw [div, if_neg (Int.natAbs_pos.mp posy), negx, negy]

/-- The square is rounded as one of a number without a sign. -/
theorem mul_self (w : Nat) (z : Dyadic) : mul w (finite z) (finite z) =
    some (nearest w false ((numerator z).natAbs * (numerator z).natAbs) 1 (scale z + scale z)) := by
  have sign : decide (numerator z * numerator z < 0) = false :=
    decide_eq_false (mul_self_nonneg _).not_gt
  rw [mul, nearestInt, sign, Int.natAbs_mul]

theorem square_value (value : z.toRat = signed negative r) (hr : 0 < r) :
    (((numerator z).natAbs * (numerator z).natAbs : Nat) : Rat) / (1 : Nat) *
      2 ^ (scale z + scale z) = r * r := by
  obtain ⟨_, magnitude, _⟩ := numerator_of_toRat hr value
  rw [← magnitude, zpow_add₀ two_ne_zero]
  push_cast
  ring

/-- The root of the rounded square of a float, which is neither zero nor infinite. -/
theorem sqrt_mul_self {s : Dyadic} (hw : 0 < w) (float : IsFloat w r)
    (value : z.toRat = signed negative r) (square : mul w (finite z) (finite z) = some (finite s))
    (nonzero : s ≠ 0) :
    ∃ t, IsFloat w t ∧ (finite s).Denotes false t ∧ r * r < 2 * t ∧
      ∃ q, sqrt w (finite s) = some q ∧ q.Denotes false r := by
  have rounded := Option.some.inj ((mul_self w z).symm.trans square)
  have sign : decide (numerator s < 0) = false := by
    have := isNegative_nearest w ((numerator z).natAbs * (numerator z).natAbs) 1 (scale z + scale z)
    rwa [rounded] at this
  obtain ⟨t, ht, hs⟩ := exists_denotes nonzero
  rw [sign] at hs
  refine ⟨t, isFloat_of_nearest hw one_pos ht ⟨s, rounded, hs⟩, ⟨s, rfl, hs⟩, ?_⟩
  exact sqrt_nearest_square hw float one_pos (square_value value float.pos) ht hs rounded

end ExtDyadic

/-! ## 3. The root -/

theorem IsFloat.two {w : Nat} (hw : 2 ≤ w) : IsFloat w 2 := by
  refine IsFloat.natCast (n := 2) two_pos ((Nat.lt_two_pow_self (n := 2)).trans_le ?_) ?_
  · exact Nat.pow_le_pow_right two_pos hw
  · calc ((2 : Nat) : Rat) = 2 ^ (1 : Int) := by norm_num
      _ < 2 ^ ExtDyadic.maxExponent := zpow_lt_zpow_right₀ one_lt_two (by decide)

/-- A float can be doubled if its square is not too large. -/
theorem IsFloat.double_of_square {w : Nat} {r t : Rat} (h : IsFloat w r) (square : r * r < 2 * t)
    (ht : IsFloat w t) : IsFloat w (2 * r) := by
  refine h.double ?_
  by_contra large
  have large : 2 ^ ExtDyadic.maxExponent ≤ 2 * r := not_lt.mp large
  have power : (8 : Rat) ≤ 2 ^ ExtDyadic.maxExponent :=
    calc (8 : Rat) = 2 ^ (3 : Int) := by norm_num
      _ ≤ 2 ^ ExtDyadic.maxExponent := zpow_le_zpow_right₀ one_le_two (by decide)
  nlinarith [ht.small]

namespace MPFloat

variable {d : Nat}

theorem binary_eq (f : Nat → ExtDyadic → ExtDyadic → Option ExtDyadic) (x y : ExtDyadic) :
    binary f ⟨d, x⟩ ⟨d, y⟩ = checked d (f (width d) x y) := by
  rw [binary]
  dsimp only
  rw [Nat.max_self]

theorem ofInt_two (d : Nat) : (ofInt 2 d).value.Denotes false 2 := by
  have two := IsFloat.two (Nat.le_trans (by decide) (le_width d))
  exact ExtDyadic.nearestInt_exact (m := 2) (e := 0) two (by simp [signed])

theorem sqrt_of_nonneg {x y : ExtDyadic} (sign : x.isNegative = false)
    (root : x.sqrt (width d) = some y) : sqrt ⟨d, x⟩ = .ok ⟨d, y⟩ := by
  unfold sqrt isNegative unary
  dsimp only
  rw [sign, root]
  rfl

/-- A float that is not negative has a root. -/
theorem exists_sqrt {x : MPFloat} (sign : x.isNegative = false) : ∃ y, x.sqrt = .ok y := by
  obtain ⟨y, root⟩ : ∃ y, x.value.sqrt (width x.digits) = some y := by
    unfold isNegative at sign
    unfold ExtDyadic.sqrt
    split
    · rename_i infinite
      rw [infinite] at sign
      cases sign
      exact ⟨_, rfl⟩
    · rename_i z finite
      rw [finite] at sign
      dsimp only
      rw [if_neg (of_decide_eq_false sign)]
      split
      · exact ⟨_, rfl⟩
      · exact ⟨_, rfl⟩
  exact ⟨⟨x.digits, y⟩, sqrt_of_nonneg sign root⟩

theorem zero_half (d : Nat) : (zero d).div (ofInt 2 d) = .ok (zero d) := by
  refine div_of_denotes two_pos (ofInt_two d) ?_
  obtain ⟨z, hz, value⟩ := ofInt_two d
  obtain ⟨_, _, natural⟩ := ExtDyadic.numerator_of_toRat two_pos value
  rw [show ExtDyadic.ofInt (width d) 2 = .finite z from hz, ExtDyadic.div,
    if_neg (Int.natAbs_pos.mp natural)]
  rfl

/-- Half the double of a float. -/
theorem double_half {x y : ExtDyadic} {r : Rat} (float : IsFloat (width d) r)
    (hx : x.Denotes false (2 * r)) (hy : y.Denotes false r) :
    div ⟨d, x⟩ (ofInt 2 d) = .ok ⟨d, y⟩ := by
  have half : 2 * r / 2 = r := mul_div_cancel_left₀ r two_ne_zero
  obtain ⟨q, quotient, hq⟩ := ExtDyadic.div_exact (w := width d) hx (ofInt_two d)
    (mul_pos two_pos float.pos) two_pos (half.symm ▸ float)
  rw [half] at hq
  cases hq.eq hy
  exact div_of_denotes two_pos (ofInt_two d) quotient

end MPFloat

namespace Complex

open MPFloat (width checked binary_eq sqrt_of_nonneg)

variable {d : Nat} {z s : Dyadic} {r : Rat}

/-- A negative float without its sign is its magnitude. -/
theorem abs_ofReal (float : IsFloat (width d) r) (value : z.toRat = signed true r)
    (square : ExtDyadic.mul (width d) (.finite z) (.finite z) = some (.finite s))
    (nonzero : s ≠ 0) : (ofReal ⟨d, .finite z⟩).abs = .ok ⟨d, .finite (-z)⟩ := by
  obtain ⟨t, exact, hs, _, q, root, hq⟩ :=
    ExtDyadic.sqrt_mul_self (MPFloat.width_pos d) float value square nonzero
  have opposite : (-z).toRat = r := by
    rw [Dyadic.toRat_neg, value]
    exact neg_neg r
  cases hq.eq ⟨-z, rfl, opposite⟩
  have number := mt ExtDyadic.numerator_eq_zero_iff.mp nonzero
  have re : MPFloat.mul ⟨d, .finite z⟩ ⟨d, .finite z⟩ = .ok ⟨d, .finite s⟩ := by
    rw [MPFloat.mul, binary_eq, square]
    rfl
  have im : MPFloat.mul (.zero d) (.zero d) = .ok (.zero d) := binary_eq _ _ _
  have sum : MPFloat.add ⟨d, .finite s⟩ (.zero d) = .ok ⟨d, .finite s⟩ := by
    have kept : ExtDyadic.add (width d) (.finite s) (.finite 0) = some (.finite s) := by
      rw [ExtDyadic.add, if_neg number]
      exact congrArg some (ExtDyadic.round_exact exact hs)
    rw [MPFloat.add, MPFloat.zero, binary_eq, kept]
    rfl
  unfold abs
  exact bind_eq_ok.mpr ⟨_, re, bind_eq_ok.mpr ⟨_, im, bind_eq_ok.mpr ⟨_, sum,
    sqrt_of_nonneg (hs.isNegative exact.pos) root⟩⟩⟩

/-- The root of a negative float has no real part, and its imaginary part is the real root of the
float without its sign. -/
theorem sqrt_ofReal (float : IsFloat (width d) r) (value : z.toRat = signed true r)
    (square : ExtDyadic.mul (width d) (.finite z) (.finite z) = some (.finite s))
    (nonzero : s ≠ 0) : ∃ root, MPFloat.sqrt ⟨d, .finite (-z)⟩ = .ok root ∧
      (ofReal ⟨d, .finite z⟩).sqrt = .ok ⟨.zero d, root⟩ := by
  obtain ⟨t, exact, hs, double, q, root, hq⟩ :=
    ExtDyadic.sqrt_mul_self (MPFloat.width_pos d) float value square nonzero
  have opposite : (-z).toRat = r := by
    rw [Dyadic.toRat_neg, value]
    exact neg_neg r
  have hz : (ExtDyadic.finite z).Denotes true r := ⟨z, rfl, value⟩
  have hg : (ExtDyadic.finite (-z)).Denotes false r := ⟨-z, rfl, opposite⟩
  have start : (ofReal ⟨d, .finite z⟩).isZero = false := by
    rw [isZero, ofReal, MPFloat.isZero, hz.isZero float.pos]
    rfl
  -- the magnitude is the opposite of the real part, so nothing is left of their sum
  have sum : MPFloat.add ⟨d, .finite (-z)⟩ ⟨d, .finite z⟩ = .ok (.zero d) := by
    have number : z ≠ 0 := by
      rintro rfl
      exact absurd (hz.isZero float.pos) (by decide)
    rw [MPFloat.add, binary_eq, ExtDyadic.add_neg_self number]
    rfl
  -- and their difference is doubled and halved without rounding
  obtain ⟨difference, subtracted, doubled⟩ :=
    ExtDyadic.neg_sub_self (float.double_of_square double exact) float.pos opposite
  have difference : MPFloat.sub ⟨d, .finite (-z)⟩ ⟨d, .finite z⟩ = .ok ⟨d, difference⟩ := by
    rw [MPFloat.sub, binary_eq, subtracted]
    rfl
  obtain ⟨im, him⟩ := MPFloat.exists_sqrt (x := ⟨d, .finite (-z)⟩) (hg.isNegative float.pos)
  refine ⟨im, him, ?_⟩
  have none : (MPFloat.zero d).sqrt = .ok (.zero d) := rfl
  have digits : (ofReal ⟨d, .finite z⟩).digits = d := Nat.max_self d
  unfold sqrt
  rw [start, if_neg Bool.false_ne_true, digits]
  exact bind_eq_ok.mpr ⟨_, abs_ofReal float value square nonzero,
    bind_eq_ok.mpr ⟨_, sum, bind_eq_ok.mpr ⟨_, MPFloat.zero_half d, bind_eq_ok.mpr ⟨_, none,
      bind_eq_ok.mpr ⟨_, difference, bind_eq_ok.mpr ⟨_, MPFloat.double_half float doubled hg,
        bind_eq_ok.mpr ⟨_, him, rfl⟩⟩⟩⟩⟩⟩⟩

end Complex
end StackCalc
