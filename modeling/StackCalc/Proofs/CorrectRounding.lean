import StackCalc.Proofs.Decimals
import StackCalc.Proofs.Enclosures
import StackCalc.Proofs.RoundingOrder

/-! # Correct rounding between decimal and binary numbers

A decimal number is read as the binary number nearest to it, and a binary number is shown as the
decimal number nearest to it, whatever its power of ten or two. Large powers are enclosed and not
written out. Rounding keeps the order, so whatever lies between two ends that round alike rounds
like them, and that is what settles an enclosed power. -/

namespace StackCalc

/-! ## 1. Reading decimal numbers -/

namespace ExtDyadic

variable {w n d n₁ d₁ n₂ d₂ : Nat} {e e₁ e₂ : Int} {negative : Bool}

/-- What lies between two numbers that round alike rounds like them. -/
theorem nearest_between (hw : 0 < w) (hd : 0 < d) (hd₁ : 0 < d₁) (hd₂ : 0 < d₂)
    (low : (n₁ : Rat) / d₁ * 2 ^ e₁ ≤ n / d * 2 ^ e)
    (high : (n : Rat) / d * 2 ^ e ≤ n₂ / d₂ * 2 ^ e₂)
    (alike : nearest w negative n₁ d₁ e₁ = nearest w negative n₂ d₂ e₂) :
    nearest w negative n d e = nearest w negative n₁ d₁ e₁ := by
  have below := nearest_mono hw hd₁ hd low
  have above := nearest_mono hw hd hd₂ high
  cases negative with
  | false =>
    rw [← alike] at above
    exact extent_injective (le_antisymm above below)
  | true =>
    rw [nearest_neg, nearest_neg] at alike ⊢
    have alike : nearest w false n₁ d₁ e₁ = nearest w false n₂ d₂ e₂ := by
      rw [← neg_neg_eq (nearest w false n₁ d₁ e₁), alike, neg_neg_eq]
    rw [← alike] at above
    exact congrArg neg (extent_injective (le_antisymm above below))

/-- A number is settled by two ends of an enclosure that round alike, or it is written out. -/
theorem settleDecimal_cases (w : Nat) (negative : Bool) (m : Nat) (k : Int) (fuel p : Nat) :
    settleDecimal w negative m k fuel p =
        nearest w negative (m * Nat.pow 10 k.toNat) (Nat.pow 10 (-k).toNat) 0 ∨
      ∃ q, p ≤ q ∧
        let a := Span.scaleTen q (Span.ofNat m) k
        settleDecimal w negative m k fuel p = nearest w negative a.lo 1 a.exp ∧
          nearest w negative a.lo 1 a.exp = nearest w negative a.hi 1 a.exp := by
  induction fuel generalizing p with
  | zero => exact .inl rfl
  | succ fuel ih =>
    unfold settleDecimal
    dsimp only
    split
    · rename_i alike
      exact .inr ⟨p, le_rfl, rfl, alike⟩
    · rcases ih (2 * p) with written | ⟨q, hq, h⟩
      · exact .inl written
      · exact .inr ⟨q, by omega, h⟩

/-- A power of ten is written as a quotient of naturals. -/
theorem writtenOut_eq (m : Nat) (k : Int) :
    ((m * Nat.pow 10 k.toNat : Nat) : Rat) / (Nat.pow 10 (-k).toNat : Nat) * 2 ^ (0 : Int) =
      m * 10 ^ k := by
  have scaled := scaled_div m 1 k
  rw [Nat.one_mul] at scaled
  rw [scaled, zpow_zero, mul_one, Nat.cast_one, div_one]

/-- A natural with a power of ten that is far larger, of either sign. -/
theorem writtenOut_bounds {m : Nat} {k : Int} (hm : 0 < m) (far : 8 * m.log2 + 8 < k.natAbs) :
    (0 ≤ k → (2 : Rat) ^ (k.natAbs : Int) ≤ m * 10 ^ k) ∧
      (k < 0 → (m * 10 ^ k : Rat) < 2 ^ (-k.natAbs : Int)) := by
  have one : (1 : Rat) ≤ m := by exact_mod_cast hm
  constructor
  · intro nonneg
    rw [Int.natAbs_of_nonneg nonneg]
    calc (2 : Rat) ^ k ≤ 10 ^ k := zpow_le_zpow_left₀ nonneg (by norm_num) (by norm_num)
      _ ≤ m * 10 ^ k := le_mul_of_one_le_left (by positivity) one
  · intro negative
    obtain ⟨-, next⟩ := Rounding.two_pow_log2 hm
    have size : (m : Rat) < 2 ^ k.natAbs := by
      have bits : (m.log2 : Int) + 1 ≤ k.natAbs := by omega
      rw [← zpow_natCast]
      exact next.trans_le (zpow_le_zpow_right₀ one_le_two bits)
    have tens : (10 : Rat) ^ k ≤ (2 ^ k.natAbs)⁻¹ * (2 ^ k.natAbs)⁻¹ := by
      have power : (10 : Rat) ^ k = (10 ^ k.natAbs)⁻¹ := by
        rw [← zpow_natCast, ← zpow_neg, Int.ofNat_natAbs_of_nonpos negative.le, neg_neg]
      rw [power, ← mul_inv, ← mul_pow]
      exact inv_anti₀ (by positivity) (pow_le_pow_left₀ (by norm_num) (by norm_num) _)
    rw [zpow_neg, zpow_natCast]
    calc (m * 10 ^ k : Rat) ≤ m * ((2 ^ k.natAbs)⁻¹ * (2 ^ k.natAbs)⁻¹) := by gcongr
      _ < 2 ^ k.natAbs * ((2 ^ k.natAbs)⁻¹ * (2 ^ k.natAbs)⁻¹) := by gcongr
      _ = (2 ^ k.natAbs)⁻¹ := mul_inv_cancel_left₀ (by positivity) _

/-- An enclosed power settles the number itself. -/
theorem settleDecimal_eq (hw : 0 < w) {m : Nat} (hm : 0 < m) {k : Int}
    (range : k.natAbs ≤ 2147483648) (fuel : Nat) :
    settleDecimal w negative m k fuel (w + 128) =
      nearest w negative (m * Nat.pow 10 k.toNat) (Nat.pow 10 (-k).toNat) 0 := by
  rcases settleDecimal_cases w negative m k fuel (w + 128) with written | ⟨p, hp, settled, alike⟩
  · exact written
  have bits : (2 : Nat) ^ 128 ≤ 2 ^ p := Nat.pow_le_pow_right two_pos (by omega)
  have enclosed := Span.scaleTen_encloses (p := p) (e := 0) (k := k) hm (by omega)
  rw [zpow_zero, mul_one, ← writtenOut_eq] at enclosed
  have divisor : 0 < Nat.pow 10 (-k).toNat := Nat.pow_pos (by norm_num)
  rw [settled]
  refine (nearest_between hw divisor one_pos one_pos ?_ ?_ alike).symm
  · rw [Nat.cast_one, div_one]
    exact enclosed.lower
  · rw [Nat.cast_one, div_one]
    exact enclosed.upper

/-- A decimal number is read as the binary number nearest to it. -/
theorem ofDecimal_eq (hw : 0 < w) (negative : Bool) (m : Nat) (k : Int) :
    ofDecimal w negative m k =
      nearest w negative (m * Nat.pow 10 k.toNat) (Nat.pow 10 (-k).toNat) 0 := by
  unfold ofDecimal
  split
  · rename_i zero
    rw [zero, Nat.zero_mul]
    rfl
  rename_i number
  have hm := Nat.pos_of_ne_zero number
  have tens (j : Nat) : 0 < Nat.pow 10 j := Nat.pow_pos (by norm_num)
  have value := writtenOut_eq m k
  split
  · rfl
  rename_i far
  obtain ⟨large, small⟩ := writtenOut_bounds (k := k) hm (by
    unfold plainLimit at far
    omega)
  split
  · rename_i out
    split
    · rename_i below
      refine (nearest_eq_zero hw (Nat.mul_pos hm (tens _)) (tens _) ?_).symm
      rw [value]
      calc (2 * (m * 10 ^ k) : Rat) < 2 * 2 ^ (-k.natAbs : Int) :=
            mul_lt_mul_of_pos_left (small below) two_pos
        _ = 2 ^ (1 - k.natAbs : Int) := by rw [sub_eq_add_neg, zpow_one_add₀ two_ne_zero]
        _ ≤ 2 ^ (-maxExponent - 1) := zpow_le_zpow_right₀ one_le_two (by
            unfold maxExponent
            omega)
    · rename_i above
      refine (nearest_eq_infinite hw (tens _) ?_).symm
      rw [value]
      refine le_trans (zpow_le_zpow_right₀ one_le_two ?_) (large (not_lt.mp above))
      unfold maxExponent
      omega
  · exact settleDecimal_eq hw hm (by omega) 8

end ExtDyadic

/-! ## 2. Showing binary numbers -/

namespace Decimal

variable {sig b n d n' d' n₁ d₁ n₂ d₂ : Nat} {negative : Bool} {t : Int}

theorem pos_of_normalize {v : Decimal} (h : v.normalize.Normal) : 0 < v.mantissa := by
  refine Nat.pos_of_ne_zero fun none => ?_
  rw [normalize, if_pos none] at h
  exact h rfl

/-- What lies between two quotients that round alike rounds like them. -/
theorem ofQuotient_between (hsig : 0 < sig) (range : b < 10000000000) (hd : 0 < d) (hd₁ : 0 < d₁)
    (hd₂ : 0 < d₂) (within : InReach b (n / d)) (within₁ : InReach b (n₁ / d₁))
    (within₂ : InReach b (n₂ / d₂)) (low : (n₁ : Rat) / d₁ ≤ n / d) (high : (n : Rat) / d ≤ n₂ / d₂)
    (alike : ofQuotient negative sig n₁ d₁ = ofQuotient negative sig n₂ d₂) :
    ofQuotient negative sig n d = ofQuotient negative sig n₁ d₁ := by
  have rounded := ofQuotient_approaches negative hsig range hd within
  have rounded₁ := ofQuotient_approaches negative hsig range hd₁ within₁
  have below := ofQuotient_mono negative negative hsig range hd₁ hd within₁ within low
  have above := ofQuotient_mono negative negative hsig range hd hd₂ within within₂ high
  rw [← alike] at above
  exact eq_of_magnitude rounded.normal rounded₁.normal (rounded.sign.trans rounded₁.sign.symm)
    (le_antisymm above below)

theorem digitCount_ofQuotient_le (hsig : 0 < sig) (range : b < 10000000000) (hd : 0 < d)
    (within : InReach b (n / d)) : (ofQuotient negative sig n d).digitCount ≤ sig := by
  have rounded := ofQuotient_approaches negative hsig range hd within
  obtain ⟨k, l, s, hl, known, -, -, high⟩ := ofQuotient_eq negative sig range hd within
  rw [zpow_natCast] at high
  rw [known] at rounded ⊢
  exact digitCount_normalize_le (pos_of_normalize rounded.normal) hsig
    (halfEven_le_ten_pow hl high.le)

/-- The place of the leading digits is not above that of the same number. -/
theorem place_le {q q' : Rat} {s s' : Int} (low : (10 : Rat) ^ (sig - 1 : Int) ≤ q')
    (high : q < 10 ^ (sig : Int)) (same : q * 10 ^ s = q' * 10 ^ s') : s' ≤ s := by
  have less : (10 : Rat) ^ (sig - 1 + s' : Int) < 10 ^ (sig + s : Int) := by
    rw [zpow_add₀ (by norm_num), zpow_add₀ (by norm_num)]
    calc (10 : Rat) ^ (sig - 1 : Int) * 10 ^ s' ≤ q' * 10 ^ s' := by gcongr
      _ = q * 10 ^ s := same.symm
      _ < 10 ^ (sig : Int) * 10 ^ s := by gcongr
  have less := (zpow_lt_zpow_iff_right₀ (by norm_num)).mp less
  omega

/-- A power of ten moves the point and nothing else. -/
theorem ofQuotient_scaled (hsig : 0 < sig) (range : b < 10000000000) (hd : 0 < d) (hd' : 0 < d')
    (within : InReach b (n / d)) (within' : InReach b (n' / d'))
    (value : (n' : Rat) / d' = n / d * 10 ^ t) :
    { ofQuotient negative sig n' d' with
      exponent := (ofQuotient negative sig n' d').exponent - t } = ofQuotient negative sig n d := by
  have rounded := ofQuotient_approaches negative hsig range hd within
  have rounded' := (ofQuotient_approaches negative hsig range hd' within').shift t
  obtain ⟨k, l, s, hl, known, number, low, high⟩ :=
    ofQuotient_eq negative sig range hd within
  obtain ⟨k', l', s', hl', known', number', low', high'⟩ :=
    ofQuotient_eq negative sig range hd' within'
  have same : (k : Rat) / l * 10 ^ (s + t) = k' / l' * 10 ^ s' := by
    rw [zpow_add₀ (by norm_num), ← mul_assoc, number, number', value]
  obtain rfl : s' = s + t := le_antisymm (place_le low' high same) (place_le low high' same.symm)
  have quotient := mul_right_cancel₀ (ten_zpow_pos (s + t)).ne' same
  have kept : Rounding.halfEven k l = Rounding.halfEven k' l' :=
    le_antisymm (Rounding.halfEven_mono hl hl' quotient.le)
      (Rounding.halfEven_mono hl' hl quotient.ge)
  have positive : 0 < Rounding.halfEven k l := pos_of_normalize (known ▸ rounded.normal)
  refine eq_of_magnitude rounded'.normal rounded.normal (rounded'.sign.trans rounded.sign.symm) ?_
  have moved (v : Decimal) : magnitude { v with exponent := v.exponent - t } =
      v.magnitude * 10 ^ (-t) := by
    rw [magnitude, magnitude, mul_assoc, ← zpow_add₀ (by norm_num), ← sub_eq_add_neg]
  rw [moved, known, known', ← kept, (normalize_spec positive).2.1, (normalize_spec positive).2.1,
    magnitude, magnitude, mul_assoc, ← zpow_add₀ (by norm_num), add_neg_cancel_right]

end Decimal

namespace ExtDyadic

variable {sig b m : Nat} {e t : Int} {negative : Bool}

theorem shifted_pos (e : Int) : 0 < 1 <<< (-e).toNat := by
  rw [Nat.shiftLeft_eq]
  positivity

theorem shifted_eq (n : Nat) (e : Int) :
    ((n <<< e.toNat : Nat) : Rat) / ((1 <<< (-e).toNat : Nat) : Rat) = n * 2 ^ e := by
  rw [shifted_div, Nat.cast_one, div_one]

/-- Digits are settled by two ends of an enclosure that round alike, or the number is written
out. -/
theorem settleDigits_cases (sig : Nat) (negative : Bool) (m : Nat) (e t : Int) (fuel p : Nat) :
    settleDigits sig negative m e t fuel p =
        Decimal.ofQuotient negative sig (m <<< e.toNat) (1 <<< (-e).toNat) ∨
      ∃ q, p ≤ q ∧
        let a := Span.scaleTen q ⟨m, m, e⟩ t
        let d := spanDecimal negative sig a.lo a.exp
        settleDigits sig negative m e t fuel p = { d with exponent := d.exponent - t } ∧
          d = spanDecimal negative sig a.hi a.exp := by
  induction fuel generalizing p with
  | zero => exact .inl rfl
  | succ fuel ih =>
    unfold settleDigits
    dsimp only
    split
    · rename_i alike
      exact .inr ⟨p, le_rfl, rfl, alike⟩
    · rcases ih (2 * p) with written | ⟨q, hq, h⟩
      · exact .inl written
      · exact .inr ⟨q, by omega, h⟩

/-- An enclosed power settles the digits of the number itself. -/
theorem settleDigits_eq (hsig : 0 < sig) (ht : t.natAbs ≤ 1700000000) (range : b ≤ 2147483650)
    (within : InReach b (m * 2 ^ e)) (fuel : Nat) :
    settleDigits sig negative m e t fuel (4 * sig + 128) = spanDecimal negative sig m e := by
  rcases settleDigits_cases sig negative m e t fuel (4 * sig + 128) with
    written | ⟨p, hp, settled, alike⟩
  · exact written
  have hm : 0 < m := by
    rw [Nat.pos_iff_ne_zero]
    rintro rfl
    simpa using within.pos
  have bits : (2 : Nat) ^ 128 ≤ 2 ^ p := Nat.pow_le_pow_right two_pos (by omega)
  have enclosed := Span.scaleTen_encloses (p := p) (e := e) (k := t) hm (by omega)
  have moved := within.mul (InReach.tenZPow t)
  generalize Span.scaleTen p ⟨m, m, e⟩ t = a at *
  obtain ⟨reach₁, reach₂⟩ := enclosed.inReach moved (by omega)
  -- the number itself times the power of ten, as a quotient of naturals
  let n := (m <<< e.toNat) * Nat.pow 10 t.toNat
  let d := (1 <<< (-e).toNat) * Nat.pow 10 (-t).toNat
  have divisor : 0 < d := Nat.mul_pos (shifted_pos e) (Nat.pow_pos (by norm_num))
  have value : (n : Rat) / d = m * 2 ^ e * 10 ^ t := by rw [scaled_div, shifted_eq]
  have between : Decimal.ofQuotient negative sig n d = spanDecimal negative sig a.lo a.exp := by
    refine Decimal.ofQuotient_between (b := b + 4 * t.natAbs + 1) hsig (by omega) divisor
      (shifted_pos _) (shifted_pos _) ?_ ?_ ?_ ?_ ?_ alike
    · exact value ▸ moved.mono (by omega)
    · exact shifted_eq _ _ ▸ reach₁
    · exact shifted_eq _ _ ▸ reach₂
    · rw [shifted_eq, value]
      exact enclosed.lower
    · rw [shifted_eq, value]
      exact enclosed.upper
  rw [settled, ← between]
  refine Decimal.ofQuotient_scaled (b := b + 4 * t.natAbs) hsig (by omega) (shifted_pos e) divisor
    ?_ (value ▸ moved) ?_
  · exact shifted_eq m e ▸ within.mono (by omega)
  · rw [value, shifted_eq]

/-- The digits of a dyadic number are those of the decimal number nearest to it. -/
theorem roundDecimal_eq {x : Dyadic} {r : Rat} (hsig : 0 < sig) (sigRange : sig ≤ 1000000000)
    (range : b ≤ 2147483650) (within : InReach b r) (hx : x.toRat = signed negative r) :
    roundDecimal sig x = spanDecimal negative sig (numerator x).natAbs (scale x) := by
  obtain ⟨sign, magnitude, positive⟩ := numerator_of_toRat within.pos hx
  unfold roundDecimal
  dsimp only
  rw [if_neg positive.ne', sign]
  rw [← magnitude] at within
  split
  · rfl
  · obtain ⟨low, high⟩ := Rounding.two_pow_log2 positive
    have place : (lead x).natAbs ≤ b + 1 := by
      refine within.lead ?_ ?_
      · rw [lead, zpow_add₀ two_ne_zero]
        gcongr
      · rw [lead, add_right_comm, zpow_add₀ two_ne_zero]
        gcongr
    exact settleDigits_eq hsig (by omega) range within 8

theorem digitCount_roundDecimal_le {x : Dyadic} {r : Rat} (hsig : 0 < sig)
    (sigRange : sig ≤ 1000000000) (range : b ≤ 2147483650) (within : InReach b r)
    (hx : x.toRat = signed negative r) : (roundDecimal sig x).digitCount ≤ sig := by
  obtain ⟨-, value, -⟩ := numerator_of_toRat within.pos hx
  rw [roundDecimal_eq hsig sigRange range within hx]
  rw [← value, ← shifted_eq] at within
  exact Decimal.digitCount_ofQuotient_le hsig (by omega) (shifted_pos _) within

/-- The larger of two numbers does not have the smaller digits. -/
theorem roundDecimal_mono {x y : Dyadic} {negative' : Bool} {r r' : Rat} (hsig : 0 < sig)
    (sigRange : sig ≤ 1000000000) (range : b ≤ 2147483650) (within : InReach b r)
    (within' : InReach b r') (hx : x.toRat = signed negative r)
    (hy : y.toRat = signed negative' r') (le : r ≤ r') :
    (roundDecimal sig x).magnitude ≤ (roundDecimal sig y).magnitude := by
  obtain ⟨-, value, -⟩ := numerator_of_toRat within.pos hx
  obtain ⟨-, value', -⟩ := numerator_of_toRat within'.pos hy
  rw [roundDecimal_eq hsig sigRange range within hx, roundDecimal_eq hsig sigRange range within' hy]
  rw [← value, ← shifted_eq] at within le
  rw [← value', ← shifted_eq] at within' le
  exact Decimal.ofQuotient_mono negative negative' hsig (by omega) (shifted_pos _) (shifted_pos _)
    within within' le

/-! ## 3. Near numbers -/

/-- A decimal number other than zero is read as a binary one near it. -/
theorem ofDecimal_near {w : Nat} {k : Int} (negative : Bool) (hw : 0 < w)
    (range : b + 3 ≤ 2147483647) (within : InReach b (m * 10 ^ k)) :
    ∃ r, Denotes (ofDecimal w negative m k) negative r ∧ Near (2 ^ (-w : Int)) r (m * 10 ^ k) := by
  have tens : 0 < Nat.pow 10 (-k).toNat := Nat.pow_pos (by norm_num)
  obtain ⟨r, denotes, near⟩ := nearest_near (w := w) negative hw range tens
    ((writtenOut_eq m k).symm ▸ within)
  rw [writtenOut_eq] at near
  exact ⟨r, ofDecimal_eq hw negative m k ▸ denotes, near⟩

theorem spanDecimal_approaches {sig b lo : Nat} {exp : Int} (negative : Bool) (hsig : 0 < sig)
    (range : b < 10000000000) (within : InReach b (lo * 2 ^ exp)) :
    (spanDecimal negative sig lo exp).Approaches negative (10 ^ (1 - sig : Int) / 2)
      (lo * 2 ^ exp) := by
  rw [← shifted_eq] at within ⊢
  exact Decimal.ofQuotient_approaches negative hsig range (shifted_pos _) within

/-- The decimal number that a dyadic one is shown as has its sign and is near it. -/
theorem roundDecimal_approaches {x : Dyadic} {r : Rat} (hsig : 0 < sig)
    (sigRange : sig ≤ 1000000000) (range : b ≤ 2147483650) (within : InReach b r)
    (hx : x.toRat = signed negative r) :
    (roundDecimal sig x).Approaches negative (10 ^ (1 - sig : Int) / 2) r := by
  obtain ⟨-, magnitude, -⟩ := numerator_of_toRat within.pos hx
  rw [roundDecimal_eq hsig sigRange range within hx]
  rw [← magnitude] at within ⊢
  exact spanDecimal_approaches negative hsig (by omega) within

/-- A number in range has decimal digits, which are near it. -/
theorem toDecimal_approaches {w b : Nat} {x : ExtDyadic} {negative : Bool} {r : Rat}
    (sigRange : shownDigits w ≤ 1000000000) (range : b ≤ 2147483650) (within : InReach b r)
    (hx : x.Denotes negative r) :
    ∃ d, x.toDecimal w = some d ∧
      d.Approaches negative (10 ^ (1 - shownDigits w : Int) / 2) r := by
  obtain ⟨y, rfl, hy⟩ := hx
  have hsig : 0 < shownDigits w := Nat.succ_pos _
  exact ⟨_, rfl, roundDecimal_approaches hsig sigRange range within hy⟩

end ExtDyadic
end StackCalc
