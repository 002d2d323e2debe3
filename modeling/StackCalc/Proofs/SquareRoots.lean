import Mathlib.Data.Rat.Lemmas
import StackCalc.Proofs.CommonKinds
import StackCalc.Proofs.ComplexRoots
import StackCalc.Proofs.ExactPowers

/-! # Square roots

An exact number has an exact root if it is the square of a rational number. It is enough to look for
the roots of the numerator and of the denominator, because the square of a fraction in lowest terms
is in lowest terms. Every other root is that of a float: a float for a number that is not negative,
and a complex number for one that is, as long as the number and its square stay in the range of
floats. -/

namespace StackCalc

/-! ## 1. Exact roots -/

namespace Scalar

variable {x : Scalar} {q r : Rat} {n : Int} {k : Nat}

theorem exactSqrt?_eq_some_iff : exactSqrt? n = some k ↔ (k : Int) * k = n := by
  unfold exactSqrt?
  split
  · rename_i negative
    refine iff_of_false nofun fun square => ?_
    have := mul_self_nonneg (k : Int)
    omega
  · rename_i nonneg
    rw [Rounding.exactSqrt?_eq_some_iff]
    constructor
    · intro square
      have := congrArg (Nat.cast (R := Int)) square
      push_cast at this
      omega
    · intro square
      have : ((k * k : Nat) : Int) = n := by push_cast; exact square
      omega

theorem exactSqrt?_mul_self (n : Int) : exactSqrt? (n * n) = some n.natAbs :=
  exactSqrt?_eq_some_iff.mpr (Int.natAbs_mul_self' n)

/-- A root that is not negative is found, in reduced form. -/
theorem Denotes.perfectRoot? (h : x.Denotes q) (hr : 0 ≤ r) (square : r * r = q) :
    ∃ y, x.perfectRoot? = some y ∧ y.Denotes r ∧ y.reduce = y := by
  have num : q.num = r.num * r.num := square ▸ Rat.mul_self_num r
  have den : q.den = r.den * r.den := square ▸ Rat.mul_self_den r
  have nonneg : (r.num.natAbs : Int) = r.num := Int.natAbs_of_nonneg (Rat.num_nonneg.mpr hr)
  have numRoot : exactSqrt? q.num = some r.num.natAbs := num ▸ exactSqrt?_mul_self r.num
  cases h with
  | integer n =>
    have whole : r.den = 1 := Nat.eq_one_of_mul_eq_one_left den.symm
    rw [Rat.num_intCast] at numRoot
    refine ⟨.integer r.num.natAbs, ?_, ?_, rfl⟩
    · rw [Scalar.perfectRoot?, numRoot]
      rfl
    rw [nonneg]
    exact (Rat.ext rfl whole.symm : (r.num : Rat) = r) ▸ .integer r.num
  | rational =>
    have denRoot : exactSqrt? q.den = some r.den :=
      exactSqrt?_eq_some_iff.mpr (by exact_mod_cast den.symm)
    refine ⟨(Scalar.rational r).reduce, ?_, (Denotes.rational r).reduce, reduce_reduce _⟩
    rw [Scalar.perfectRoot?, numRoot, denRoot]
    dsimp only
    rw [nonneg, Rat.mkRat_self]

/-- Only squares have exact roots. -/
theorem Denotes.isSquare (h : x.Denotes q) {y : Scalar} (root : x.perfectRoot? = some y) :
    IsSquare q := by
  cases h with
  | integer n =>
    cases integral : exactSqrt? n with
    | none =>
      rw [Scalar.perfectRoot?, integral] at root
      cases root
    | some k => exact ⟨k, by exact_mod_cast (exactSqrt?_eq_some_iff.mp integral).symm⟩
  | rational =>
    unfold Scalar.perfectRoot? at root
    dsimp only at root
    split at root
    · rename_i a b num den
      have num := exactSqrt?_eq_some_iff.mp num
      have den := exactSqrt?_eq_some_iff.mp den
      refine ⟨a / b, ?_⟩
      rw [div_mul_div_comm, ← Rat.num_div_den q]
      congr 1
      · exact_mod_cast num.symm
      · exact_mod_cast den.symm
    · cases root

theorem abs_mul_abs (r : Rat) : r.abs * r.abs = r * r := by
  unfold Rat.abs
  split
  · rfl
  · exact neg_mul_neg r r

theorem Denotes.perfectRoot?_eq_none_iff (h : x.Denotes q) :
    x.perfectRoot? = none ↔ ¬ IsSquare q := by
  constructor
  · rintro none ⟨r, square⟩
    obtain ⟨y, root, _⟩ := h.perfectRoot? r.abs_nonneg ((abs_mul_abs r).trans square.symm)
    cases none.symm.trans root
  · exact fun other => Option.eq_none_iff_forall_ne_some.mpr fun _ root => other (h.isSquare root)

/-- Without an exact root, the root is that of the float. -/
theorem Denotes.sqrt_eq (h : x.Denotes q) (other : ¬ IsSquare q) (digits : Nat) :
    x.sqrt digits = x.toFloat digits >>= fun f =>
      if f.isNegative then do return complex (← (Complex.ofReal f).sqrt)
      else do return float (← f.sqrt) := by
  unfold Scalar.sqrt
  rw [h.perfectRoot?_eq_none_iff.mpr other]
  cases h <;> rfl

/-- Such a root is not exact, and it needs a float of the number. -/
theorem Denotes.inexact (h : x.Denotes q) (other : ¬ IsSquare q) {digits : Nat} {y : Scalar}
    (run : x.sqrt digits = .ok y) : (x.toFloat digits).isOk ∧ y.kind.isExact = false := by
  rw [h.sqrt_eq other] at run
  obtain ⟨f, float, run⟩ := bind_eq_ok.mp run
  refine ⟨congrArg Except.isOk float, ?_⟩
  split at run
  · obtain ⟨z, _, run⟩ := bind_eq_ok.mp run
    cases run
    rfl
  · obtain ⟨z, _, run⟩ := bind_eq_ok.mp run
    cases run
    rfl

end Scalar

/-! ## 2. Numbers as floats -/

namespace ExtDyadic

variable {w : Nat} {x y q : ExtDyadic} {r : Rat} {sign : Bool}

/-- A quotient that is a number other than zero is one of two numbers. -/
theorem eq_nearest_of_div (h : div w x y = some q) (hr : 0 < r) (hq : q.Denotes sign r) :
    ∃ a b s, x = finite a ∧ y = finite b ∧ 0 < (numerator b).natAbs ∧
      q = nearest w s (numerator a).natAbs (numerator b).natAbs (scale a - scale b) := by
  cases x with
  | infinite s =>
    cases y with
    | infinite t => cases h
    | finite b =>
      cases h
      obtain ⟨z, hz, _⟩ := hq
      cases hz
  | finite a =>
    cases y with
    | infinite t =>
      cases h
      exact absurd (hq.isZero hr) (by decide)
    | finite b =>
      rw [div] at h
      split at h
      · cases h
      · rename_i nonzero
        exact ⟨a, b, _, rfl, rfl, Int.natAbs_pos.mpr nonzero, (Option.some.inj h).symm⟩

theorem isFloat_div (hw : 0 < w) (h : div w x y = some q) (hr : 0 < r) (hq : q.Denotes sign r) :
    IsFloat w r := by
  obtain ⟨a, b, s, -, -, divisor, rfl⟩ := eq_nearest_of_div h hr hq
  exact isFloat_of_nearest hw divisor hr hq

end ExtDyadic

namespace MPFloat

variable {d : Nat} {n : Int} {q r : Rat} {f : MPFloat} {sign : Bool}

theorem isNegative_ofInt (hn : 0 ≤ n) : (ofInt n d).isNegative = false := by
  have sign : decide (n < 0) = false := decide_eq_false hn.not_gt
  show (ExtDyadic.nearest (width d) (decide (n < 0)) n.natAbs 1 0).isNegative = false
  rw [sign]
  exact ExtDyadic.isNegative_nearest ..

/-- A fraction that has a float is divided. -/
theorem ofRat_eq_ok (h : ofRat q d = .ok f) : f.digits = d ∧
    ExtDyadic.div (width d) (ofInt q.num d).value (ofInt q.den d).value = some f.value := by
  unfold ofRat div at h
  split at h
  · cases h
  · rw [ofInt, ofInt, binary_eq] at h
    unfold checked at h
    split at h
    · rename_i quotient
      cases h
      exact ⟨rfl, quotient⟩
    · cases h

end MPFloat

namespace Scalar

variable {x : Scalar} {q r : Rat} {d : Nat} {f : MPFloat} {sign : Bool}

/-- The float of a number that is not negative is not negative either. -/
theorem Denotes.isNegative_toFloat (h : x.Denotes q) (hq : 0 ≤ q) (run : x.toFloat d = .ok f) :
    f.isNegative = false := by
  cases h with
  | integer n =>
    cases run
    exact MPFloat.isNegative_ofInt (by exact_mod_cast hq)
  | rational =>
    obtain ⟨-, quotient⟩ := MPFloat.ofRat_eq_ok run
    exact ExtDyadic.isNegative_div (MPFloat.isNegative_ofInt (Rat.num_nonneg.mpr hq))
      (MPFloat.isNegative_ofInt (by omega)) quotient

/-- What is left of a number in a float has the bits of that. -/
theorem Denotes.isFloat_toFloat (h : x.Denotes q) (run : x.toFloat d = .ok f) :
    f.digits = d ∧ ∀ sign r, 0 < r → f.value.Denotes sign r → IsFloat (MPFloat.width d) r := by
  cases h with
  | integer n =>
    cases run
    exact ⟨rfl, fun sign r hr => ExtDyadic.isFloat_of_nearest (MPFloat.width_pos d) one_pos hr⟩
  | rational =>
    obtain ⟨digits, quotient⟩ := MPFloat.ofRat_eq_ok run
    exact ⟨digits, fun sign r => ExtDyadic.isFloat_div (MPFloat.width_pos d) quotient⟩

end Scalar

/-! ## 3. Ranges -/

theorem IsFloat.two_zpow {w : Nat} {k : Int} (hw : 0 < w) (low : -ExtDyadic.maxExponent - 1 ≤ k)
    (high : k < ExtDyadic.maxExponent) : IsFloat w (2 ^ k) := by
  refine ⟨⟨2 ^ (w - 1), k - (w - 1 : Nat), (mul_pow_sub_one hw.ne' 2).ge,
    Nat.pow_lt_pow_right one_lt_two (by omega), ?_⟩, ?_, ?_⟩
  · rw [Nat.cast_pow, Nat.cast_ofNat, ← zpow_natCast, ← zpow_add₀ two_ne_zero, add_sub_cancel]
  · exact zpow_le_zpow_right₀ one_le_two low
  · exact zpow_lt_zpow_right₀ one_lt_two high

theorem IsFloat.half {w : Nat} {r : Rat} (h : IsFloat w r)
    (large : 2 ^ (-ExtDyadic.maxExponent) ≤ r) : IsFloat w (r / 2) := by
  obtain ⟨a, b, low, bits, rfl⟩ := h.bits
  refine ⟨⟨a, b - 1, low, bits, ?_⟩, ?_, ?_⟩
  · rw [zpow_sub_one₀ two_ne_zero]
    ring
  · rw [zpow_sub_one₀ two_ne_zero]
    linarith
  · linarith [h.small, h.pos]

namespace ExtDyadic

variable {w n d : Nat} {e : Int} {x : ExtDyadic} {r t : Rat} {negative sign : Bool}

theorem Denotes.of_neg (h : x.neg.Denotes sign r) : x.Denotes (!sign) r := by
  cases x with
  | infinite s =>
    obtain ⟨y, hy, -⟩ := h
    cases hy
  | finite z =>
    obtain ⟨y, hy, value⟩ := h
    cases hy
    refine ⟨z, rfl, ?_⟩
    rw [← neg_inj, ← Dyadic.toRat_neg, value]
    cases sign <;> simp [signed]

theorem exists_of_isNegative {z : Dyadic} (negative : (finite z).isNegative = true) :
    ∃ r, 0 < r ∧ z.toRat = signed true r := by
  have number : z ≠ 0 := by
    rintro rfl
    cases negative
  obtain ⟨r, hr, value⟩ := exists_denotes number
  rw [show decide (numerator z < 0) = true from negative] at value
  exact ⟨r, hr, value⟩

/-- A number is rounded to the same magnitude without its sign. -/
theorem unsigned_of_nearest (h : (nearest w negative n d e).Denotes sign r) (hr : 0 < r) :
    (nearest w false n d e).Denotes false r := by
  have nonneg := isNegative_nearest w n d e
  cases negative with
  | false => exact (h.isNegative hr).symm.trans nonneg ▸ h
  | true =>
    rw [nearest_neg] at h
    have h := h.of_neg
    exact (h.isNegative hr).symm.trans nonneg ▸ h

/-- A number that is not below a float is not rounded to less. -/
theorem le_of_nearest (hw : 0 < w) (float : IsFloat w t) (hd : 0 < d) (le : t ≤ n / d * 2 ^ e)
    (hr : 0 < r) (h : (nearest w negative n d e).Denotes sign r) : t ≤ r := by
  obtain ⟨a, b, -, -, rfl⟩ := float.bits
  have exact := nearest_exact (n := a) (d := 1) (e := b) false float one_pos (by simp)
  have order := nearest_mono hw one_pos hd (n := a) (e := b) (by simpa using le)
  rw [extent_of_denotes exact, extent_of_denotes (unsigned_of_nearest h hr), WithBot.coe_le_coe,
    WithTop.coe_le_coe] at order
  exact order

/-- An integer other than zero is not rounded to less than one. -/
theorem one_le_ofInt (hw : 0 < w) {m : Int} (hr : 0 < r) (h : (ofInt w m).Denotes sign r) :
    1 ≤ r := by
  have hm : m ≠ 0 := by
    rintro rfl
    exact absurd (h.isZero hr) (by simp [ofInt, nearestInt, nearest, isZero])
  have one : IsFloat w 1 := IsFloat.two_zpow (k := 0) hw (by decide) (by decide)
  have natural : (1 : Rat) ≤ m.natAbs := by exact_mod_cast Int.natAbs_pos.mpr hm
  exact le_of_nearest hw one one_pos (by simpa using natural) hr h

end ExtDyadic

/-- A quotient of naturals is not larger or smaller than they can make it. -/
theorem InReach.div_nat {b n d : Nat} (hn : 0 < n) (hd : 0 < d) (num : n ≤ 2 ^ b)
    (den : d ≤ 2 ^ b) : InReach b (n / d : Rat) := by
  have one_le_num : (1 : Rat) ≤ n := by exact_mod_cast hn
  have one_le_den : (1 : Rat) ≤ d := by exact_mod_cast hd
  have num : (n : Rat) ≤ 2 ^ b := by exact_mod_cast num
  have den : (d : Rat) ≤ 2 ^ b := by exact_mod_cast den
  constructor
  · rw [zpow_neg, zpow_natCast, ← one_div]
    gcongr
  · rw [zpow_natCast]
    exact (div_le_self (by linarith) one_le_den).trans num

theorem le_of_bitLength {q : Rat} {b : Nat} (short : bitLength q ≤ b) :
    q.num.natAbs ≤ 2 ^ b ∧ q.den ≤ 2 ^ b := by
  obtain ⟨num, den⟩ := Nat.max_le.mp short
  exact ⟨(Nat.size_le.mp num).le, (Nat.size_le.mp den).le⟩

namespace Scalar

variable {x : Scalar} {q : Rat} {b d : Nat}

/-- A number of not too many bits is rounded to a float near it. -/
theorem Denotes.toFloat_near (h : x.Denotes q) (nonzero : q ≠ 0) (short : bitLength q ≤ b)
    (range : b + 4 ≤ 2147483647) (d : Nat) : ∃ y r, x.toFloat d = .ok ⟨d, y⟩ ∧
      y.Denotes (decide (q.num < 0)) r ∧ InReach (b + 1) r := by
  obtain ⟨num, den⟩ := le_of_bitLength short
  have natural : 0 < q.num.natAbs := Int.natAbs_pos.mpr (Rat.num_ne_zero.mpr nonzero)
  have small := MPFloat.share_le d
  cases h with
  | integer n =>
    rw [Rat.num_intCast] at *
    have within := InReach.ofNat natural num
    obtain ⟨r, denotes, near⟩ :=
      ExtDyadic.ofInt_near (MPFloat.width_pos d) (by omega) within
    exact ⟨_, r, rfl, denotes, within.near near (by linarith)⟩
  | rational =>
    have within := InReach.div_nat natural q.den_pos num den
    obtain ⟨y, r, run, denotes, near⟩ := MPFloat.ofRat_near d (by omega) range
      (InReach.ofNat natural num) (InReach.ofNat q.den_pos den) within
    exact ⟨y, r, run, denotes, within.near near (by linarith)⟩

/-- The float of an exact number other than zero can be halved: parts of fractions are as large as
floats at most. -/
theorem Denotes.le_toFloat (h : x.Denotes q) {f : MPFloat} (run : x.toFloat d = .ok f) {sign : Bool}
    {r : Rat} (hr : 0 < r) (hf : f.value.Denotes sign r) :
    (2 : Rat) ^ (-ExtDyadic.maxExponent) ≤ r := by
  have wide := MPFloat.width_pos d
  have least : (2 : Rat) ^ (-ExtDyadic.maxExponent) ≤ 1 :=
    zpow_le_one_of_nonpos₀ one_le_two (by decide)
  cases h with
  | integer n =>
    cases run
    exact least.trans (ExtDyadic.one_le_ofInt wide hr hf)
  | rational =>
    obtain ⟨-, quotient⟩ := MPFloat.ofRat_eq_ok run
    obtain ⟨a, b, s, num, den, divisor, rounded⟩ := ExtDyadic.eq_nearest_of_div quotient hr hf
    rw [rounded] at hf
    have nonzero : b ≠ 0 := by
      rintro rfl
      exact lt_irrefl 0 divisor
    have number : a ≠ 0 := by
      rintro rfl
      rw [ExtDyadic.nearest, if_pos (by rfl)] at hf
      exact absurd (hf.isZero hr) (by decide)
    obtain ⟨ra, hra, valueA⟩ := ExtDyadic.exists_denotes number
    obtain ⟨rb, hrb, valueB⟩ := ExtDyadic.exists_denotes nonzero
    have low : 1 ≤ ra := ExtDyadic.one_le_ofInt wide hra ⟨a, num, valueA⟩
    have high : IsFloat (MPFloat.width d) rb :=
      ExtDyadic.isFloat_of_nearest wide one_pos hrb ⟨b, den, valueB⟩
    have float : IsFloat (MPFloat.width d) (2 ^ (-ExtDyadic.maxExponent)) :=
      IsFloat.two_zpow wide (by decide) (by decide)
    refine ExtDyadic.le_of_nearest wide float divisor ?_ hr hf
    rw [ExtDyadic.quotient_value hra hrb valueA valueB, zpow_neg]
    calc (2 ^ ExtDyadic.maxExponent : Rat)⁻¹ ≤ rb⁻¹ := inv_anti₀ hrb high.small.le
      _ ≤ ra / rb := by
        rw [inv_eq_one_div]
        gcongr

end Scalar

namespace MPFloat

/-- A float whose square is neither infinite nor rounded to zero. -/
def SquareInRange (f : MPFloat) : Prop :=
  ∃ s, f.mul f = .ok s ∧ s.isFinite = true ∧ s.isZero = false

variable {d b : Nat} {x : ExtDyadic} {r : Rat} {sign : Bool}

theorem squareInRange (hx : x.Denotes sign r) (within : InReach b r)
    (range : b + b + 3 ≤ 2147483647) : SquareInRange ⟨d, x⟩ := by
  obtain ⟨z, rfl, value⟩ := hx
  have square := ExtDyadic.square_value value within.pos
  obtain ⟨t, denotes, near⟩ := ExtDyadic.nearest_near false (width_pos d) range one_pos
    (square.symm ▸ within.mul within)
  rw [square] at near
  have positive : 0 < t := near.pos (within.mul within).pos (by linarith [share_le d])
  refine ⟨⟨d, _⟩, ?_, ?_, denotes.isZero positive⟩
  · rw [mul, binary_eq, ExtDyadic.mul_self]
    rfl
  · obtain ⟨y, hy, -⟩ := denotes
    exact congrArg ExtDyadic.isFinite hy

end MPFloat

/-- A converted float keeps to its precision. -/
theorem MPFloat.Held.of_bits {f : MPFloat} (finite : f.isFinite = true)
    (bits : ∀ sign r, 0 < r → f.value.Denotes sign r → IsFloat (MPFloat.width f.digits) r) :
    f.Held := by
  refine ⟨finite, ?_⟩
  obtain ⟨d, x⟩ := f
  cases x with
  | infinite s => rfl
  | finite z =>
    rcases eq_or_ne z 0 with rfl | number
    · rfl
    · obtain ⟨r, hr, value⟩ := ExtDyadic.exists_denotes number
      exact congrArg (MPFloat.mk d)
        (ExtDyadic.round_exact (bits _ r hr ⟨z, rfl, value⟩) ⟨z, rfl, value⟩)

namespace Complex

variable {d : Nat} {z : Dyadic} {r : Rat} {root : Complex}

/-- A root needs a root of half the sum of the magnitude and the real part. -/
theorem exists_half_of_sqrt {z : Complex} {m : MPFloat} (nonzero : z.isZero = false)
    (magnitude : z.abs = .ok m) (run : z.sqrt = .ok root) :
    ∃ s half re, m.add z.re = .ok s ∧ s.div (.ofInt 2 z.digits) = .ok half ∧
      half.sqrt = .ok re := by
  unfold sqrt at run
  rw [nonzero, if_neg Bool.false_ne_true] at run
  obtain ⟨m', h, run⟩ := bind_eq_ok.mp run
  cases magnitude.symm.trans h
  obtain ⟨s, sum, run⟩ := bind_eq_ok.mp run
  obtain ⟨half, quotient, run⟩ := bind_eq_ok.mp run
  obtain ⟨re, hre, -⟩ := bind_eq_ok.mp run
  exact ⟨s, half, re, sum, quotient, hre⟩

theorem square_zero (d : Nat) : MPFloat.mul (.zero d) (.zero d) = .ok (.zero d) :=
  MPFloat.binary_eq _ _ _

/-- Nothing is left of two infinities. -/
theorem not_sqrt_infinite : (ofReal ⟨d, .infinite true⟩).sqrt ≠ .ok root := by
  intro run
  have re : MPFloat.mul ⟨d, .infinite true⟩ ⟨d, .infinite true⟩ = .ok ⟨d, .infinite false⟩ :=
    MPFloat.binary_eq _ _ _
  have sum : MPFloat.add ⟨d, .infinite false⟩ (.zero d) = .ok ⟨d, .infinite false⟩ :=
    MPFloat.binary_eq _ _ _
  have magnitude : (ofReal ⟨d, .infinite true⟩).abs = .ok ⟨d, .infinite false⟩ := by
    unfold abs
    exact bind_eq_ok.mpr ⟨_, re, bind_eq_ok.mpr ⟨_, square_zero d, bind_eq_ok.mpr ⟨_, sum, rfl⟩⟩⟩
  obtain ⟨s, _, _, left, -⟩ := exists_half_of_sqrt rfl magnitude run
  have none : MPFloat.add ⟨d, .infinite false⟩ ⟨d, .infinite true⟩ =
      .error (.domain .notANumber) := MPFloat.binary_eq _ _ _
  cases none.symm.trans left

/-- Where the square of a negative float vanishes, so does the magnitude, and the negative float is
left. -/
theorem not_sqrt_vanished (float : IsFloat (MPFloat.width d) r) (value : z.toRat = signed true r)
    (half : IsFloat (MPFloat.width d) (r / 2))
    (square : MPFloat.mul ⟨d, .finite z⟩ ⟨d, .finite z⟩ = .ok (.zero d)) :
    (ofReal ⟨d, .finite z⟩).sqrt ≠ .ok root := by
  intro run
  have denotes : (ExtDyadic.finite z).Denotes true r := ⟨z, rfl, value⟩
  have start : (ofReal ⟨d, .finite z⟩).isZero = false := by
    rw [isZero, ofReal, MPFloat.isZero, denotes.isZero float.pos]
    rfl
  have magnitude : (ofReal ⟨d, .finite z⟩).abs = .ok (.zero d) := by
    have sum : MPFloat.add (.zero d) (.zero d) = .ok (.zero d) := MPFloat.binary_eq _ _ _
    unfold abs
    exact bind_eq_ok.mpr ⟨_, square, bind_eq_ok.mpr ⟨_, square_zero d,
      bind_eq_ok.mpr ⟨_, sum, rfl⟩⟩⟩
  have sum : MPFloat.add (.zero d) ⟨d, .finite z⟩ = .ok ⟨d, .finite z⟩ := by
    have kept : ExtDyadic.add (MPFloat.width d) (.finite 0) (.finite z) = some (.finite z) :=
      congrArg some (ExtDyadic.round_exact float denotes)
    rw [MPFloat.add, MPFloat.zero, MPFloat.binary_eq, kept]
    rfl
  obtain ⟨q, quotient, hq⟩ := ExtDyadic.div_exact (w := MPFloat.width d) denotes
    (MPFloat.ofInt_two d) float.pos two_pos half
  have halved : MPFloat.div ⟨d, .finite z⟩ (.ofInt 2 d) = .ok ⟨d, q⟩ :=
    MPFloat.div_of_denotes two_pos (MPFloat.ofInt_two d) quotient
  obtain ⟨s, h, re, hs, hh, root⟩ := exists_half_of_sqrt start magnitude run
  cases sum.symm.trans hs
  rw [show (ofReal ⟨d, .finite z⟩).digits = d from Nat.max_self d] at hh
  cases halved.symm.trans hh
  have negative : MPFloat.isNegative ⟨d, q⟩ = true := hq.isNegative half.pos
  rw [MPFloat.sqrt, if_pos negative] at root
  cases root

/-- A converted negative float has a complex root if and only if it is finite and its square does
not vanish. -/
theorem exists_sqrt_ofReal_iff {f : MPFloat} (negative : f.isNegative = true)
    (bits : ∀ sign r, 0 < r → f.value.Denotes sign r → IsFloat (MPFloat.width f.digits) r)
    (deep : ∀ sign r, 0 < r → f.value.Denotes sign r →
      (2 : Rat) ^ (-ExtDyadic.maxExponent) ≤ r) :
    (∃ root, (ofReal f).sqrt = .ok root) ↔
      f.isFinite = true ∧ ∃ s, f.mul f = .ok s ∧ s.isZero = false := by
  constructor
  · rintro ⟨root, run⟩
    obtain ⟨d, x⟩ := f
    cases x with
    | infinite s =>
      cases negative
      exact absurd run not_sqrt_infinite
    | finite z =>
      obtain ⟨s, square, -⟩ := MPFloat.exists_square (x := ⟨d, .finite z⟩) rfl
      refine ⟨rfl, _, square, ?_⟩
      by_contra vanished
      obtain ⟨r, hr, value⟩ := ExtDyadic.exists_of_isNegative negative
      have float := bits true r hr ⟨z, rfl, value⟩
      have zero : s = .finite 0 := of_decide_eq_true (Bool.eq_true_of_not_eq_false vanished)
      subst zero
      exact not_sqrt_vanished float value (float.half (deep true r hr ⟨z, rfl, value⟩)) square run
  · rintro ⟨finite, s, square, nonzero⟩
    obtain ⟨root, run, -⟩ := exists_principal (z := ofReal f) (.of_bits finite bits) rfl
      (congrArg MPFloat.width (Nat.max_self f.digits)) fun s' square' zero => by
        cases square.symm.trans square'
        cases nonzero.symm.trans zero
    exact ⟨root, run⟩

end Complex

/-- A negative float in range has a root without a real part. -/
theorem Complex.exists_sqrt_ofReal {f : MPFloat} (negative : f.isNegative = true)
    (bits : ∀ sign r, 0 < r → f.value.Denotes sign r → IsFloat (MPFloat.width f.digits) r)
    (range : f.SquareInRange) :
    ∃ root, f.neg.sqrt = .ok root ∧ (ofReal f).sqrt = .ok ⟨.zero f.digits, root⟩ := by
  obtain ⟨d, x⟩ := f
  obtain ⟨s, square, finite, nonzero⟩ := range
  rw [MPFloat.mul, MPFloat.binary_eq] at square
  cases x with
  | infinite sign =>
    cases square
    cases finite
  | finite z =>
    obtain ⟨r, hr, value⟩ := ExtDyadic.exists_of_isNegative negative
    rw [ExtDyadic.mul_self] at square
    cases square
    cases rounded : ExtDyadic.nearest (MPFloat.width d) false
      ((ExtDyadic.numerator z).natAbs * (ExtDyadic.numerator z).natAbs) 1
      (ExtDyadic.scale z + ExtDyadic.scale z) with
    | infinite sign =>
      rw [rounded] at finite
      cases finite
    | finite t =>
      refine sqrt_ofReal (bits true r hr ⟨z, rfl, value⟩) value
        ((ExtDyadic.mul_self _ z).trans (congrArg some rounded)) ?_
      rintro rfl
      rw [rounded] at nonzero
      cases nonzero

namespace Value

/-- A value whose float is negative, with a square in range. -/
def SquareInRange (digits : Nat) (v : Value) : Prop :=
  ∃ f, v.toFloat digits = .ok f ∧ f.isNegative = true ∧ f.SquareInRange

/-- A value whose float is negative and finite, with a square that does not vanish. -/
def RootInRange (digits : Nat) (v : Value) : Prop :=
  ∃ f, v.toFloat digits = .ok f ∧ f.isNegative = true ∧ f.isFinite = true ∧
    ∃ s, f.mul f = .ok s ∧ s.isZero = false

variable {x : Scalar} {q r : Rat} {digits : Nat}

theorem sqrt_scalar {y : Scalar} (run : x.sqrt digits = .ok y) :
    (scalar x).sqrt digits = .ok (scalar y) :=
  congrArg (Except.map scalar) run

/-- A root that is not negative is the reduced value of its number. -/
theorem sqrt_eq_ofRat (h : x.Denotes q) (hr : 0 ≤ r) (square : r * r = q) (digits : Nat) :
    (scalar x).sqrt digits = .ok (ofRat r) := by
  obtain ⟨y, root, denotes, reduced⟩ := h.perfectRoot? hr square
  rw [← denotes.eq_ofRat reduced]
  refine sqrt_scalar ?_
  unfold Scalar.sqrt
  rw [root]

/-- The absolute value of a reduced number is reduced. -/
theorem abs_eq_ofRat (h : x.Denotes q) (reduced : x.reduce = x) :
    (scalar x).abs = .ok (ofRat q.abs) := by
  obtain ⟨y, absolute, denotes⟩ := h.abs
  have kept : y.reduce = y := by
    cases h with
    | integer n =>
      cases absolute
      rfl
    | rational =>
      cases absolute
      have den : q.abs.den = q.den := by
        unfold Rat.abs
        split <;> rfl
      unfold Scalar.reduce at reduced ⊢
      dsimp only at reduced ⊢
      rw [den]
      split at reduced
      · cases reduced
      · rename_i fraction
        exact if_neg fraction
  rw [← denotes.eq_ofRat kept]
  exact congrArg (Except.map scalar) absolute

/-- The root of the square of a number is the number without its sign. -/
theorem sqrt_mul_self (h : x.Denotes q) (reduced : x.reduce = x) (digits : Nat) :
    ∃ w, (scalar x).mul digits (scalar x) = .ok w ∧ w.sqrt digits = (scalar x).abs := by
  obtain ⟨y, product, square⟩ := h.mul (d := digits) h
  refine ⟨scalar y, congrArg (Except.map scalar) product, ?_⟩
  rw [sqrt_eq_ofRat square q.abs_nonneg (Scalar.abs_mul_abs q), abs_eq_ofRat h reduced]

/-- An exact number has a float unless it is a fraction both of whose parts are out of range. -/
theorem toFloat_isOk_iff (h : x.Denotes q) :
    (x.toFloat digits).isOk ↔ ¬ (scalar x).OutOfRange digits := by
  cases h with
  | integer n =>
    refine iff_of_true rfl ?_
    rintro ⟨p, fraction, _⟩
    cases fraction
  | rational =>
    have run : ((Scalar.rational q).toFloat digits).isOk = (MPFloat.ofRat q digits).isOk := rfl
    have range : (scalar (.rational q)).OutOfRange digits ↔ _ := outOfRange_rational
    rw [run, MPFloat.ofRat_isOk_iff, range]
    simp only [not_and_or, Bool.not_eq_false]

theorem not_isSquare (negative : q < 0) : ¬ IsSquare q := fun square =>
  negative.not_ge square.nonneg

/-- The root of a number that is no square is the real root of its float. -/
theorem sqrt_of_toFloat (h : x.Denotes q) (other : ¬ IsSquare q) {f root : MPFloat}
    (run : x.toFloat digits = .ok f) (sign : f.isNegative = false) (real : f.sqrt = .ok root) :
    (scalar x).sqrt digits = .ok (float root) := by
  refine sqrt_scalar ?_
  rw [h.sqrt_eq other, run, ok_bind, sign, if_neg Bool.false_ne_true, real]
  rfl

/-- The root of a negative number is the complex root of its float. -/
theorem sqrt_of_negative (h : x.Denotes q) (negative : q < 0) {f : MPFloat} {root : Complex}
    (run : x.toFloat digits = .ok f) (sign : f.isNegative = true)
    (principal : (Complex.ofReal f).sqrt = .ok root) :
    (scalar x).sqrt digits = .ok (complex root) := by
  refine sqrt_scalar ?_
  rw [h.sqrt_eq (not_isSquare negative), run, ok_bind, sign, if_pos rfl, principal]
  rfl

/-- A number that is not negative and not a square has a float for its root. -/
theorem sqrt_float_iff (h : x.Denotes q) (nonneg : 0 ≤ q) (other : ¬ IsSquare q) :
    (∃ f, (scalar x).sqrt digits = .ok (float f)) ↔ ¬ (scalar x).OutOfRange digits := by
  rw [← toFloat_isOk_iff h]
  constructor
  · rintro ⟨f, run⟩
    obtain ⟨y, root, -⟩ := map_eq_ok.mp run
    exact (h.inexact other root).1
  · intro ok
    obtain ⟨f, run⟩ := isOk_iff_exists.mp ok
    have sign := h.isNegative_toFloat nonneg run
    obtain ⟨root, hroot⟩ := MPFloat.exists_sqrt sign
    exact ⟨root, sqrt_of_toFloat h other run sign hroot⟩

/-- A negative number in range has a complex root without a real part. -/
theorem sqrt_complex (h : x.Denotes q) (negative : q < 0)
    (range : (scalar x).SquareInRange digits) :
    ∃ root, (scalar x).sqrt digits = .ok (complex ⟨.zero digits, root⟩) := by
  obtain ⟨f, run, sign, square⟩ := range
  obtain ⟨rfl, bits⟩ := h.isFloat_toFloat run
  obtain ⟨root, -, hroot⟩ := Complex.exists_sqrt_ofReal sign bits square
  exact ⟨_, sqrt_of_negative h negative run sign hroot⟩

/-- A negative number has a complex root if and only if its root is in range. -/
theorem sqrt_complex_iff (h : x.Denotes q) (negative : q < 0) :
    (∃ z, (scalar x).sqrt digits = .ok (complex z)) ↔ (scalar x).RootInRange digits := by
  constructor
  · rintro ⟨z, run⟩
    obtain ⟨y, root, same⟩ := map_eq_ok.mp run
    cases same
    rw [h.sqrt_eq (not_isSquare negative)] at root
    obtain ⟨f, float, branch⟩ := bind_eq_ok.mp root
    obtain ⟨rfl, bits⟩ := h.isFloat_toFloat float
    split at branch
    · rename_i sign
      obtain ⟨r, root, -⟩ := bind_eq_ok.mp branch
      exact ⟨f, float, sign, (Complex.exists_sqrt_ofReal_iff sign bits fun _ _ hr hf =>
        h.le_toFloat float hr hf).mp ⟨r, root⟩⟩
    · obtain ⟨r, -, result⟩ := bind_eq_ok.mp branch
      cases result
  · rintro ⟨f, float, sign, range⟩
    obtain ⟨rfl, bits⟩ := h.isFloat_toFloat float
    obtain ⟨r, root⟩ := (Complex.exists_sqrt_ofReal_iff sign bits fun _ _ hr hf =>
      h.le_toFloat float hr hf).mpr range
    exact ⟨r, sqrt_of_negative h negative float sign root⟩

/-- Numbers of up to a thousand million bits are in range. -/
theorem inRange_of_bitLength (h : x.Denotes q) (short : bitLength q ≤ 10 ^ 9) :
    ¬ (scalar x).OutOfRange digits ∧ (q < 0 → (scalar x).SquareInRange digits) := by
  constructor
  · rw [← toFloat_isOk_iff h]
    rcases eq_or_ne q 0 with rfl | nonzero
    · cases h with
      | integer n => rfl
      | rational => exact MPFloat.ofRat_isOk_iff.mpr (.inl rfl)
    · obtain ⟨y, r, run, _⟩ := h.toFloat_near nonzero short (by norm_num) digits
      exact congrArg Except.isOk run
  · intro negative
    obtain ⟨y, r, run, denotes, within⟩ :=
      h.toFloat_near negative.ne short (by norm_num) digits
    rw [decide_eq_true (Rat.num_neg.mpr negative)] at denotes
    exact ⟨⟨digits, y⟩, run, denotes.isNegative within.pos,
      MPFloat.squareInRange denotes within (by norm_num)⟩

/-- An odd power of a number that is no square is no square. -/
theorem not_isSquare_pow {k : Nat} (other : ¬ IsSquare q) (odd : Odd k) : ¬ IsSquare (q ^ k) := by
  obtain ⟨m, rfl⟩ := odd
  have nonzero : q ≠ 0 := by
    rintro rfl
    exact other (IsSquare.zero)
  intro square
  have power : q ^ (2 * m + 1) / (q ^ m * q ^ m) = q := by
    field_simp
    ring
  exact other (power ▸ square.div (.mul_self (q ^ m)))

theorem isFinite_ofInt_pow {n : Int} {k : Nat} (hn : 2 ≤ n) (large : ExtDyadic.maxExponent ≤ k) :
    (MPFloat.ofInt (n ^ k) digits).isFinite = false := by
  have power : (2 : Rat) ^ ExtDyadic.maxExponent ≤ (n ^ k).natAbs := by
    have positive : 0 ≤ n ^ k := by positivity
    calc (2 : Rat) ^ ExtDyadic.maxExponent ≤ 2 ^ (k : Int) :=
          zpow_le_zpow_right₀ one_le_two large
      _ = 2 ^ k := zpow_natCast 2 k
      _ ≤ (n : Rat) ^ k := by
        gcongr
        exact_mod_cast hn
      _ = (n ^ k).natAbs := by
        rw [Nat.cast_natAbs, abs_of_nonneg positive, Int.cast_pow]
  have rounded : ExtDyadic.ofInt (MPFloat.width digits) (n ^ k) = .infinite _ :=
    ExtDyadic.nearest_eq_infinite (MPFloat.width_pos digits) one_pos (by simpa using power)
  exact congrArg ExtDyadic.isFinite rounded

theorem isFinite_den_pow {k : Nat} (den : 2 ≤ q.den) (large : ExtDyadic.maxExponent ≤ k) :
    (MPFloat.ofInt (q ^ k).den digits).isFinite = false := by
  rw [Rat.den_pow, Nat.cast_pow]
  exact isFinite_ofInt_pow (by exact_mod_cast den) large

/-- Both parts of a large power are beyond the range of floats. -/
theorem outOfRange_pow {k : Nat} (num : 2 ≤ q.num) (den : 2 ≤ q.den)
    (large : ExtDyadic.maxExponent ≤ k) : (rational (q ^ k)).OutOfRange digits := by
  refine outOfRange_rational.mpr ⟨?_, isFinite_den_pow den large⟩
  rw [Rat.num_pow]
  exact isFinite_ofInt_pow num large

/-- A fraction whose denominator alone is beyond the range of floats is rounded to zero. -/
theorem ofRat_eq_zero (num : (MPFloat.ofInt q.num digits).isFinite = true)
    (den : (MPFloat.ofInt q.den digits).isFinite = false) :
    MPFloat.ofRat q digits = .ok (.zero digits) := by
  obtain ⟨f, run⟩ := isOk_iff_exists.mp (MPFloat.ofRat_isOk_iff.mpr (.inl num))
  obtain ⟨rfl, quotient⟩ := MPFloat.ofRat_eq_ok run
  rw [run]
  unfold MPFloat.isFinite at num den
  generalize (MPFloat.ofInt q.num f.digits).value = n at *
  generalize (MPFloat.ofInt q.den f.digits).value = d at *
  cases n with
  | infinite s => cases num
  | finite a =>
    cases d with
    | finite b => cases den
    | infinite s =>
      obtain ⟨p, x⟩ := f
      cases quotient
      rfl

/-- The root of a negative fraction that is rounded to zero is a float. -/
theorem sqrt_of_vanished (negative : q < 0) (num : (MPFloat.ofInt q.num digits).isFinite = true)
    (den : (MPFloat.ofInt q.den digits).isFinite = false) :
    ∃ f, (rational q).sqrt digits = .ok (float f) := by
  have sign : (MPFloat.zero digits).isNegative = false := rfl
  obtain ⟨f, root⟩ := MPFloat.exists_sqrt sign
  exact ⟨f, sqrt_of_toFloat (.rational q) (not_isSquare negative) (ofRat_eq_zero num den) sign root⟩

/-- The square root of an exact number is exact if and only if the number is the square of a
rational number, and it is then the reduced value of the root that is not negative. Any other root
is a float for a number that is not negative, unless it is a fraction both of whose parts are beyond
the range of floats, and a complex number for a negative one, unless the float of that is infinite
or its square vanishes. It takes more than a thousand million bits to leave these ranges. -/
theorem sqrt_exact (digits : Nat) (v : Value) (exact : v.kind.isExact) :
    ∃ q, v.toRat? = some q ∧
      (∀ r, 0 ≤ r → r * r = q → v.sqrt digits = .ok (ofRat r)) ∧
      ((∃ w, v.sqrt digits = .ok w ∧ w.kind.isExact) ↔ IsSquare q) ∧
      (0 ≤ q → ¬ IsSquare q →
        ((∃ f, v.sqrt digits = .ok (float f)) ↔ ¬ v.OutOfRange digits)) ∧
      (q < 0 → ((∃ z, v.sqrt digits = .ok (complex z)) ↔ v.RootInRange digits)) ∧
      (q < 0 → v.SquareInRange digits →
        ∃ root, v.sqrt digits = .ok (complex ⟨.zero digits, root⟩)) ∧
      (bitLength q ≤ 10 ^ 9 → ¬ v.OutOfRange digits ∧ (q < 0 → v.SquareInRange digits)) ∧
      (v.reduce = v → ∃ w, v.mul digits v = .ok w ∧ w.sqrt digits = v.abs) := by
  obtain ⟨x, q, rfl, denotes, number⟩ := exact_denotes exact
  refine ⟨q, number, fun r hr square => sqrt_eq_ofRat denotes hr square digits, ⟨?_, ?_⟩,
    fun nonneg other => sqrt_float_iff denotes nonneg other,
    fun negative => sqrt_complex_iff denotes negative,
    fun negative range => sqrt_complex denotes negative range, inRange_of_bitLength denotes,
    fun reduced => sqrt_mul_self denotes (scalar.inj reduced) digits⟩
  · rintro ⟨w, run, kind⟩
    by_contra other
    obtain ⟨y, root, rfl⟩ := map_eq_ok.mp run
    exact Bool.false_ne_true ((denotes.inexact other root).2.symm.trans kind)
  · rintro ⟨r, square⟩
    have run := sqrt_eq_ofRat denotes r.abs_nonneg
      ((Scalar.abs_mul_abs r).trans square.symm) digits
    refine ⟨_, run, ?_⟩
    unfold ofRat
    split <;> rfl

/-- A fraction that is a square, an integer that is none, a negative integer, and the root of the
square of a negative fraction. -/
theorem sqrt_exact_cases :
    (rational (9 / 4)).sqrt 32 = .ok (rational (3 / 2)) ∧
    (∃ f, (integer 2).sqrt 32 = .ok (float f)) ∧
    (∃ root, (integer (-4)).sqrt 32 = .ok (complex ⟨.zero 32, root⟩)) ∧
    ∃ w, (rational (-2 / 3)).mul 32 (rational (-2 / 3)) = .ok w ∧
      w.sqrt 32 = .ok (rational (2 / 3)) := by
  obtain ⟨q₁, hq₁, square, _⟩ := sqrt_exact 32 (rational (9 / 4)) rfl
  obtain ⟨q₂, hq₂, _, _, other, _, _, short₂, _⟩ := sqrt_exact 32 (integer 2) rfl
  obtain ⟨q₃, hq₃, _, _, _, _, negative, short₃, _⟩ := sqrt_exact 32 (integer (-4)) rfl
  obtain ⟨q₄, hq₄, _, _, _, _, _, _, opposite⟩ := sqrt_exact 32 (rational (-2 / 3)) rfl
  cases hq₁
  cases hq₂
  cases hq₃
  cases hq₄
  refine ⟨?_, ?_, ?_, ?_⟩
  · rw [square (3 / 2) (by norm_num) (by norm_num), ofRat, if_neg (by decide +kernel)]
  · have root : (Scalar.integer 2).perfectRoot? = none := by decide +kernel
    have bits : bitLength (2 : Int) ≤ 10 ^ 9 := by
      rw [bitLength, ← Scalar.natBits_eq_size, ← Scalar.natBits_eq_size]
      decide +kernel
    exact (other (by norm_num) ((Scalar.Denotes.integer 2).perfectRoot?_eq_none_iff.mp root)).mpr
      (short₂ bits).1
  · have bits : bitLength (-4 : Int) ≤ 10 ^ 9 := by
      rw [bitLength, ← Scalar.natBits_eq_size, ← Scalar.natBits_eq_size]
      decide +kernel
    have below : ((-4 : Int) : Rat) < 0 := by norm_num
    exact negative below ((short₃ bits).2 below)
  · have fraction : (rational (-2 / 3)).reduce = rational (-2 / 3) :=
      congrArg scalar (if_neg (by decide +kernel))
    have absolute : (rational (-2 / 3)).abs = .ok (rational (2 / 3)) := by
      refine congrArg (fun q => Except.ok (rational q)) ?_
      decide +kernel
    exact absolute ▸ opposite fraction

/-- Beyond the range of floats, a positive fraction that is no square has no float for its root, and
a negative one has a float. -/
theorem sqrt_of_large_powers :
    (0 ≤ (3 / 2 : Rat) ^ 2147483647 ∧ ¬ IsSquare ((3 / 2 : Rat) ^ 2147483647) ∧
      ¬ ∃ f, (rational ((3 / 2) ^ 2147483647)).sqrt 32 = .ok (float f)) ∧
    (-1 / 2 : Rat) ^ 2147483647 < 0 ∧
      ∃ f, (rational ((-1 / 2) ^ 2147483647)).sqrt 32 = .ok (float f) := by
  have odd : Odd 2147483647 := by decide
  have nonneg : 0 ≤ (3 / 2 : Rat) ^ 2147483647 := by positivity
  have negative : (-1 / 2 : Rat) ^ 2147483647 < 0 := odd.pow_neg (by norm_num)
  have other : ¬ IsSquare (3 / 2 : Rat) :=
    (Scalar.Denotes.rational (3 / 2)).perfectRoot?_eq_none_iff.mp (by decide +kernel)
  have power := not_isSquare_pow other odd
  refine ⟨⟨nonneg, power, fun root => ?_⟩, negative, sqrt_of_vanished negative ?_
    (isFinite_den_pow (by decide +kernel) le_rfl)⟩
  · exact (sqrt_float_iff (.rational _) nonneg power).mp root
      (outOfRange_pow (by decide +kernel) (by decide +kernel) le_rfl)
  · rw [Rat.num_pow, show (-1 / 2 : Rat).num = -1 by decide +kernel, odd.neg_one_pow]
    rfl

end Value
end StackCalc
