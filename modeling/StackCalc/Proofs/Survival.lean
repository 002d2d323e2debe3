import StackCalc.Proofs.CorrectRounding
import StackCalc.Proofs.Literals
import StackCalc.Value.Lattice

/-! # Decimal numbers in floats

A decimal number of as many digits as a float is good for survives in it, whether it is read from
its text or divided as a fraction. The roundings on the way change the number by a share that the
guard bits keep below the last digit, and rounding to the digits of the float undoes the change. -/

namespace StackCalc

/-! ## 1. Widths -/

namespace MPFloat

variable {d : Nat}

theorem le_width (d : Nat) : 64 ≤ width d := by
  have guard : 64 ≤ bitsFor d := Nat.le_add_left _ _
  unfold width
  omega

theorem width_pos (d : Nat) : 0 < width d := Nat.lt_of_lt_of_le (by decide) (le_width d)

/-- What is left behind by rounding to the bits of a float is a small share. -/
theorem share_le (d : Nat) : (2 : Rat) ^ (-width d : Int) ≤ 1 / 1024 := by
  have bits := le_width d
  calc (2 : Rat) ^ (-width d : Int) ≤ 2 ^ (-10 : Int) := zpow_le_zpow_right₀ one_le_two (by omega)
    _ = 1 / 1024 := by norm_num

/-- The bits of a float, from the product of its digits and the binary logarithm of ten, which is
taken to 53 bits. -/
theorem bitsFor_bounds (hd : 0 < d) : 64 ≤ bitsFor d ∧
    d * 7480317065143153 * 9007199254740991 ≤
      (bitsFor d - 64) * 2251799813685248 * 9007199254740992 ∧
    (bitsFor d - 65) * 2251799813685248 * 9007199254740992 ≤
      d * 7480317065143153 * 9007199254740993 := by
  let n := d * 7480317065143153
  let s := n.log2 - 52
  have place : 2 ^ (s + 52) ≤ n := by
    have lead : 52 ≤ n.log2 := (Nat.le_log2 (by omega)).mpr (by omega)
    rw [show s + 52 = n.log2 by omega]
    exact Nat.log2_self_le (by omega)
  rw [pow_add] at place
  obtain ⟨above, below⟩ := Rounding.halfEven_bounds n (2 ^ s) (Nat.two_pow_pos s)
  have form : bitsFor d = (Rounding.halfEven n (2 ^ s) * 2 ^ s + 2251799813685247) /
      2251799813685248 + 64 := by
    unfold bitsFor
    rw [Nat.max_eq_left hd]
    rfl
  rw [form]
  generalize Rounding.halfEven n (2 ^ s) * 2 ^ s = product at above below
  omega

/-- A float holds 61 bits more than its digits need, and shows twenty digits more, one of which is
lost to the place before the point. -/
theorem width_bounds (hd : 0 < d) (large : d ≤ 10000) :
    196 * d + 59 * 61 ≤ 59 * width d ∧ d + 20 ≤ ExtDyadic.shownDigits (width d) ∧
      ExtDyadic.shownDigits (width d) ≤ 100000 := by
  have bits := bitsFor_bounds hd
  unfold width ExtDyadic.shownDigits
  omega

/-- What is left behind by rounding to the bits of a float, and by rounding to the digits that it
shows, are small shares of its own last digit. -/
theorem shares (hd : 0 < d) (large : d ≤ 10000) :
    (2 : Rat) ^ (-width d : Int) ≤ (10 ^ d)⁻¹ / 1024 ∧
      (10 : Rat) ^ (1 - ExtDyadic.shownDigits (width d) : Int) ≤ (10 ^ d)⁻¹ / 1024 := by
  obtain ⟨bits, shown, _⟩ := width_bounds hd large
  constructor
  · have bases : (10 : Nat) ^ 59 ≤ 2 ^ 196 := by decide +kernel
    have bases : (10 : Rat) ^ 59 ≤ (2 : Rat) ^ 196 := by exact_mod_cast bases
    have powers : (10 : Rat) ^ (d : Int) ≤ 2 ^ ((width d : Int) - 61) :=
      Rounding.ten_zpow_le_of_pow (a := 59) (b := 196) (by norm_num)
        (zpow_le_zpow_left₀ (by omega) (by positivity) bases) (by omega)
    rw [zpow_sub₀ two_ne_zero, le_div_iff₀ (by positivity), zpow_natCast, zpow_natCast] at powers
    rw [zpow_neg, zpow_natCast, ← one_div, ← one_div, div_div,
      div_le_div_iff₀ (by positivity) (by positivity), one_mul, one_mul]
    refine le_trans ?_ powers
    gcongr
    norm_num
  · calc (10 : Rat) ^ (1 - ExtDyadic.shownDigits (width d) : Int)
        ≤ 10 ^ (-d - 19 : Int) := zpow_le_zpow_right₀ (by norm_num) (by omega)
      _ = (10 ^ d)⁻¹ / 10 ^ 19 := by
        rw [zpow_sub₀ (by norm_num), zpow_neg, zpow_natCast]
        norm_cast
      _ ≤ (10 ^ d)⁻¹ / 1024 := by
        gcongr
        norm_num

/-! ## 2. What a float keeps -/

/-- A float gives a decimal number back: as a fraction, as an integer if it is one, and as a text of
its own number of digits. -/
structure Keeps (x : MPFloat) (v : Decimal) : Prop where
  rational : x.toRat? = some v.value
  integral : x.isIntegral = true ↔ ∃ n : Int, v.value = n
  narrowed : ∀ w, (Value.float x).narrow? .integer = some w ↔
    ∃ n : Int, v.value = n ∧ w = .integer n
  format : v.render x.digits = .ok (x.format x.digits)

/-- A float is narrowed to the integer that its own digits denote. -/
theorem narrow?_float {x : MPFloat} {q : Rat} (h : x.toRat? = some q) (w : Value) :
    (Value.float x).narrow? .integer = some w ↔ ∃ n : Int, q = n ∧ w = .integer n := by
  have narrowed : (Value.float x).narrow? .integer =
      (if q.den = 1 then some (Scalar.integer q.num) else none).map Value.scalar := by
    show ((x.toRat?.bind fun q =>
      if q.den = 1 then some (Scalar.integer q.num) else none).map Value.scalar) = _
    rw [h]
    rfl
  rw [narrowed]
  constructor
  · intro some
    split at some
    · rename_i whole
      refine ⟨q.num, Rat.ext rfl whole, ?_⟩
      exact (Option.some.inj some).symm
    · cases some
  · rintro ⟨n, rfl, rfl⟩
    rfl

/-- A float keeps the number that its shown digits are rounded to. -/
theorem keeps_of_round {x : MPFloat} {s v : Decimal} (normal : v = .zero ∨ v.Normal)
    (exponent : v.exponent.natAbs ≤ Decimal.maxExponent) (count : v.digitCount ≤ 10000)
    (shown : x.toDecimal = some s) (round : s.nearestSig x.digits = v) : x.Keeps v := by
  have rational : x.toRat? = some v.value := by
    rw [toRat?, shown, Option.bind_some, round, Decimal.toRat?_eq exponent]
  refine ⟨rational, ?_, narrow?_float rational, ?_⟩
  · rw [isIntegral, shown]
    dsimp only
    rw [round]
    exact Decimal.isWhole_iff normal
  · rw [format, shown]
    dsimp only
    rw [round]
    refine Decimal.render_eq_text (.inr ?_) x.digits
    unfold Decimal.maxExponent at exponent
    unfold Decimal.InWord
    omega

variable {v : Decimal}

theorem ten_pow_le (k : Nat) : 10 ^ k ≤ 2 ^ (4 * k) := by
  rw [Nat.pow_mul]
  exact Nat.pow_le_pow_left (by norm_num) k

theorem mantissa_le (hv : 0 < v.mantissa) (count : v.digitCount ≤ d) :
    v.mantissa ≤ 2 ^ (4 * d) :=
  calc v.mantissa ≤ 10 ^ v.digitCount := (Numeral.digits_bounds hv).2.le
    _ ≤ 10 ^ d := Nat.pow_le_pow_right (by norm_num) count
    _ ≤ 2 ^ (4 * d) := ten_pow_le d

/-- A number of no more digits than a float is good for is not too large for it. -/
theorem inReach_magnitude (hv : 0 < v.mantissa) (large : d ≤ 10000) (count : v.digitCount ≤ d)
    (exponent : v.exponent.natAbs ≤ 100000) : InReach 440000 v.magnitude :=
  ((InReach.ofNat hv (mantissa_le hv count)).mul (InReach.tenZPow v.exponent)).mono (by omega)

/-- Neither are its numerator and its denominator. -/
theorem inReach_parts (hv : 0 < v.mantissa) (large : d ≤ 10000) (count : v.digitCount ≤ d)
    (exponent : v.exponent.natAbs ≤ 100000) (nonzero : 0 < v.value.num.natAbs) :
    InReach 440000 v.value.num.natAbs ∧ InReach 440000 v.value.den := by
  obtain ⟨num, den⟩ := v.value_parts
  constructor
  · refine (InReach.ofNat nonzero ?_).mono (b := 4 * d + 4 * v.exponent.toNat) (by omega)
    rw [Nat.pow_add]
    have power : 0 < 10 ^ v.exponent.toNat := Nat.pow_pos (by norm_num)
    exact (Nat.le_of_dvd (Nat.mul_pos hv power) num).trans
      (Nat.mul_le_mul (mantissa_le hv count) (ten_pow_le _))
  · refine (InReach.ofNat v.value.den_pos ?_).mono (b := 4 * (-v.exponent).toNat) (by omega)
    exact (Nat.le_of_dvd (Nat.pow_pos (by norm_num)) den).trans (ten_pow_le _)

/-- A float near a number keeps it. -/
theorem keeps_of_near {x : ExtDyadic} {r : Rat} (hd : 0 < d) (large : d ≤ 10000) (hv : v.Normal)
    (count : v.digitCount ≤ d) (exponent : v.exponent.natAbs ≤ 100000)
    (hx : x.Denotes v.negative r) (near : Near (8 * 2 ^ (-width d : Int)) r v.magnitude) :
    Keeps ⟨d, x⟩ v := by
  have last : (0 : Rat) < (10 ^ d)⁻¹ := by positivity
  have small : ((10 : Rat) ^ d)⁻¹ ≤ 1 := inv_le_one_of_one_le₀ (one_le_pow₀ (by norm_num))
  obtain ⟨bits, digits⟩ := shares hd large
  have within := (inReach_magnitude hv.pos large count exponent).near near (by linarith)
  have bitShare : (0 : Rat) < 2 ^ (-width d : Int) := by positivity
  have digitShare := Decimal.ten_zpow_pos (1 - ExtDyadic.shownDigits (width d) : Int)
  obtain ⟨s, shown, approaches⟩ := ExtDyadic.toDecimal_approaches
    ((width_bounds hd large).2.2.trans (by norm_num)) (by norm_num) within hx
  have rounded : s.Approaches v.negative ((10 ^ d)⁻¹ / 8) v.magnitude :=
    approaches.trans near (half_pos digitShare).le (by nlinarith)
  refine keeps_of_round (.inr hv) exponent (count.trans large) shown ?_
  have cancel : ((10 : Rat) ^ d)⁻¹ * 10 ^ d = 1 := inv_mul_cancel₀ (by positivity)
  refine rounded.nearestSig_eq hd hv count (by positivity) ?_
  show 4 * ((10 ^ d)⁻¹ / 8) * 10 ^ d < 1
  linarith

/-! ## 3. Reading and dividing -/

/-- The text of a number is read as a float that keeps it. -/
theorem parse_keeps (hd : 0 < d) (large : d ≤ 10000) (hv : v.Normal) (count : v.digitCount ≤ d)
    (exponent : v.exponent.natAbs ≤ 100000) (precision : Nat) :
    ∃ x, parse (v.text precision) d = .ok x ∧ x.digits = d ∧ x.Keeps v := by
  have wide := width_pos d
  have share : (0 : Rat) < 2 ^ (-width d : Int) := by positivity
  have within := inReach_magnitude hv.pos large count exponent
  obtain ⟨m, k, read, magnitude, bound⟩ :=
    ExtDyadic.parse_text hv.pos (by omega) (width d) precision
  obtain ⟨r, denotes, near⟩ := ExtDyadic.ofDecimal_near v.negative wide (by norm_num)
    (magnitude.symm ▸ within)
  rw [magnitude] at near
  refine ⟨_, by rw [parse, read], rfl, ?_⟩
  exact keeps_of_near hd large hv count exponent denotes (near.mono (by linarith))

/-- A quotient of two numbers other than zero has no error. -/
theorem div_of_denotes {x y q : ExtDyadic} {negative : Bool} {r : Rat} (hr : 0 < r)
    (hy : y.Denotes negative r) (h : ExtDyadic.div (width d) x y = some q) :
    div ⟨d, x⟩ ⟨d, y⟩ = .ok ⟨d, q⟩ := by
  have nonzero : y ≠ .finite 0 := by
    rintro rfl
    obtain ⟨z, hz, value⟩ := hy
    cases hz
    have : |signed negative r| = 0 := by
      rw [← value]
      simp
    rw [abs_signed hr.le] at this
    exact hr.ne' this
  unfold div isZero ExtDyadic.isZero binary
  rw [if_neg (by simpa using nonzero)]
  dsimp only
  rw [Nat.max_self, h]
  rfl

/-- The numerator and the denominator of a fraction, rounded and divided, leave a float near it. -/
theorem ofRat_near {q : Rat} {b c : Nat} (d : Nat) (parts : b + 3 ≤ 2147483647)
    (range : c + 4 ≤ 2147483647) (num : InReach b q.num.natAbs) (den : InReach b q.den)
    (within : InReach c (q.num.natAbs / q.den)) :
    ∃ y r, ofRat q d = .ok ⟨d, y⟩ ∧ y.Denotes (decide (q.num < 0)) r ∧
      Near (8 * 2 ^ (-width d : Int)) r (q.num.natAbs / q.den) := by
  have wide := width_pos d
  let w : Int := width d
  have share : (0 : Rat) < 2 ^ (-w) := by positivity
  have small := share_le d
  obtain ⟨rn, numDenotes, numNear⟩ := ExtDyadic.ofInt_near wide parts num
  obtain ⟨rd, denDenotes, denNear⟩ := ExtDyadic.ofInt_near (n := q.den) wide parts den
  have rnPos : 0 < rn := numNear.pos num.pos (by linarith)
  have rdPos : 0 < rd := denNear.pos den.pos (by linarith)
  have quotient := numNear.div denNear num.pos den.pos share.le (by linarith)
  rw [Int.natAbs_natCast] at quotient
  obtain ⟨y, r, divided, denotes, near⟩ := ExtDyadic.div_near wide range numDenotes denDenotes
    rnPos rdPos (within.near quotient (by linarith))
  have sign : decide ((q.den : Int) < 0) = false := decide_eq_false (by omega)
  rw [sign, Bool.bne_false] at denotes
  exact ⟨y, r, div_of_denotes rdPos denDenotes divided, denotes,
    (near.trans quotient share.le).mono (by nlinarith)⟩

/-- The fraction of a decimal number is turned into a float that keeps the number. -/
theorem ofRat_keeps (hd : 0 < d) (large : d ≤ 10000) (hv : v.Normal) (count : v.digitCount ≤ d)
    (exponent : v.exponent.natAbs ≤ 100000) :
    ∃ x, ofRat v.value d = .ok x ∧ x.digits = d ∧ x.Keeps v := by
  have within := inReach_magnitude hv.pos large count exponent
  have den : (0 : Rat) < v.value.den := by exact_mod_cast v.value.den_pos
  obtain ⟨sign, magnitude, num⟩ : decide (v.value.num < 0) = v.negative ∧
      (v.value.num.natAbs : Rat) * (v.value.den : Rat)⁻¹ = v.magnitude ∧
      0 < v.value.num.natAbs := by
    refine integer_of_signed (inv_pos.mpr den) within.pos ?_
    rw [← div_eq_mul_inv, Rat.num_div_den]
    rfl
  rw [← div_eq_mul_inv] at magnitude
  obtain ⟨numWithin, denWithin⟩ := inReach_parts hv.pos large count exponent num
  obtain ⟨y, r, divided, denotes, near⟩ :=
    ofRat_near d (by norm_num) (by norm_num) numWithin denWithin (magnitude ▸ within)
  rw [sign] at denotes
  rw [magnitude] at near
  exact ⟨⟨d, y⟩, divided, rfl, keeps_of_near hd large hv count exponent denotes near⟩

/-- Zero is read as zero and divided as zero. -/
theorem zero_kept (d precision : Nat) :
    parse (Decimal.zero.text precision) d = .ok (zero d) ∧
      ofRat Decimal.zero.value d = .ok (zero d) ∧ (zero d).Keeps .zero := by
  refine ⟨?_, ?_, ?_⟩
  · have text : Decimal.zero.text precision = String.ofList ['0', '.'] := rfl
    have read : ExtDyadic.parse (width d) (String.ofList ['0', '.']) = some (.finite 0) := by
      rw [ExtDyadic.parse, String.toList_ofList]
      rfl
    rw [text, parse, read]
    rfl
  · have wide := width_pos d
    obtain ⟨r, denotes, near⟩ := ExtDyadic.ofInt_near (b := 1) (n := 1) wide (by norm_num)
      (InReach.ofNat one_pos (by norm_num))
    have small : (2 : Rat) ^ (-width d : Int) < 1 := zpow_lt_one_of_neg₀ one_lt_two (by omega)
    have rPos : 0 < r := near.pos (by norm_num) small
    have value : Decimal.zero.value = 0 := by
      simp [Decimal.zero, Decimal.value, Decimal.magnitude, signed]
    rw [value]
    refine div_of_denotes rPos denotes ?_
    obtain ⟨y, hy, valueY⟩ := denotes
    obtain ⟨_, _, nonzero⟩ := ExtDyadic.numerator_of_toRat rPos valueY
    show ExtDyadic.div (width d) (.finite 0) (ExtDyadic.ofInt (width d) 1) = some (.finite 0)
    rw [hy, ExtDyadic.div, if_neg (Int.natAbs_pos.mp nonzero)]
    rfl
  · refine keeps_of_round (.inl rfl) (Nat.zero_le _) (by decide) rfl ?_
    have kept : Decimal.zero.digitCount - max d 1 = 0 := by
      have : Decimal.zero.digitCount = 1 := by decide
      omega
    show Decimal.zero.nearestSig d = .zero
    unfold Decimal.nearestSig
    dsimp only
    rw [if_pos kept]

/-- A decimal number in normal form of no more digits than a float is good for, and with a power of
ten in reach, survives in the float that its text is read as, in whichever notation it is written,
and in the float that its fraction is turned into. -/
theorem decimal_survives (hd : 1 ≤ d) (large : d ≤ 10000) (normal : v.normalize = v)
    (count : v.digitCount ≤ d) (exponent : v.exponent.natAbs ≤ 100000) (precision : Nat) :
    (∃ text x, v.render precision = .ok text ∧ parse text d = .ok x ∧ x.digits = d ∧
        x.Keeps v) ∧
      ∃ x, ofRat v.value d = .ok x ∧ x.digits = d ∧ x.Keeps v := by
  have written : v.render precision = .ok (v.text precision) := by
    refine Decimal.render_eq_text (.inr ?_) precision
    unfold Decimal.InWord
    omega
  rcases Decimal.normal_of_normalize normal with rfl | hv
  · obtain ⟨read, divided, keeps⟩ := zero_kept d precision
    exact ⟨⟨_, _, written, read, rfl, keeps⟩, _, divided, rfl, keeps⟩
  · obtain ⟨x, read, digits, keeps⟩ := parse_keeps hd large hv count exponent precision
    exact ⟨⟨_, x, written, read, digits, keeps⟩, ofRat_keeps hd large hv count exponent⟩

/-- The last number of three digits before a power of ten, as a text and as a fraction. -/
theorem decimal_survives_nines :
    (1 ≤ 3 ∧ 3 ≤ 10000 ∧ Decimal.normalize ⟨true, 999, -2⟩ = ⟨true, 999, -2⟩ ∧
      Decimal.digitCount ⟨true, 999, -2⟩ ≤ 3 ∧ Int.natAbs (-2) ≤ 100000) ∧
    (∃ x, parse "-9.99" 3 = .ok x ∧ x.digits = 3 ∧ x.Keeps ⟨true, 999, -2⟩) ∧
      ∃ x, ofRat (-999 / 100) 3 = .ok x ∧ x.digits = 3 ∧ x.Keeps ⟨true, 999, -2⟩ := by
  have normal : Decimal.normalize ⟨true, 999, -2⟩ = ⟨true, 999, -2⟩ :=
    Decimal.normalize_of_normal (by decide)
  have value : Decimal.value ⟨true, 999, -2⟩ = -999 / 100 := by
    norm_num [Decimal.value, Decimal.magnitude, signed]
  have survives := decimal_survives (d := 3) (v := ⟨true, 999, -2⟩) (by decide) (by decide) normal
    (by decide) (by decide) 3
  rw [value] at survives
  obtain ⟨⟨text, x, written, read⟩, divided⟩ := survives
  obtain rfl : "-9.99" = text := Except.ok.inj (Eq.trans (by decide +kernel) written)
  exact ⟨⟨by decide, by decide, normal, by decide, by decide⟩, ⟨x, read⟩, divided⟩

end MPFloat
end StackCalc
