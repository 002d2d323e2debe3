import StackCalc.ExtDyadic.Text
import StackCalc.Proofs.Decimals

/-! # Reading texts that were written

The text of a decimal number, in whichever notation it is written, is read as its digits times a
power of ten, which are the number again. -/

namespace StackCalc.ExtDyadic

open Numeral (isDigit)

/-! ## 1. Spelled numbers -/

/-- A text of digits, with a point before those of the fraction and more text behind them. The point
may be left out if there is no fraction. -/
structure Spelled (cs whole fraction rest : List Char) : Prop where
  nonempty : whole ≠ []
  digits : ∀ c ∈ whole ++ fraction, isDigit c = true
  ends : ∀ c r, rest = c :: r → isDigit c = false ∧ c ≠ '.'
  text : cs = whole ++ '.' :: (fraction ++ rest) ∨ fraction = [] ∧ cs = whole ++ rest

/-- The characters up to the first one that is not wanted, and the rest. -/
theorem span_append {p : Char → Bool} {ds : List Char} (rest : List Char)
    (h : ∀ c ∈ ds, p c = true) (ends : ∀ c r, rest = c :: r → p c = false) :
    (ds ++ rest).takeWhile p = ds ∧ (ds ++ rest).dropWhile p = rest := by
  rw [List.takeWhile_append_of_pos h, List.dropWhile_append_of_pos h]
  cases rest with
  | nil => simp
  | cons c r => simp [ends c r rfl]

/-- A digit is none of the letters and signs that a number may begin with. -/
theorem digit_ne {c : Char} (h : isDigit c = true) : c.toLower ≠ 'i' ∧ c ≠ '-' ∧ c ≠ '+' := by
  obtain ⟨low, high⟩ := Numeral.isDigit_iff.mp h
  have kept : c.toLower = c := by
    unfold Char.toLower
    rw [dif_neg]
    intro upper
    have : 65 ≤ c.toNat := upper.1
    omega
  rw [kept]
  refine ⟨?_, ?_, ?_⟩ <;> rintro rfl <;> simp at low high

variable {cs whole fraction rest : List Char}

theorem Spelled.head (h : Spelled cs whole fraction rest) :
    ∃ c r, cs = c :: r ∧ isDigit c = true := by
  obtain ⟨c, r, rfl⟩ := List.exists_cons_of_ne_nil h.nonempty
  have digit := h.digits c (by simp)
  rcases h.text with rfl | ⟨_, rfl⟩ <;> exact ⟨c, _, rfl, digit⟩

/-- The digits before a point, and what follows them. -/
theorem Spelled.scan (h : Spelled cs whole fraction rest) :
    cs.takeWhile isDigit = whole ∧
      (cs.dropWhile isDigit = '.' :: (fraction ++ rest) ∨
        fraction = [] ∧ cs.dropWhile isDigit = rest) := by
  have digits : ∀ c ∈ whole, isDigit c = true := fun c hc =>
    h.digits c (List.mem_append_left _ hc)
  rcases h.text with rfl | ⟨none, rfl⟩
  · obtain ⟨taken, dropped⟩ := span_append ('.' :: (fraction ++ rest)) digits (by
      intro c r hc
      cases hc
      rfl)
    exact ⟨taken, .inl dropped⟩
  · obtain ⟨taken, dropped⟩ := span_append rest digits fun c r hc => (h.ends c r hc).1
    exact ⟨taken, .inr ⟨none, dropped⟩⟩

/-- A spelled number is read as its digits times a power of ten. -/
theorem parseUnsigned_spelled (w : Nat) (negative : Bool) (h : Spelled cs whole fraction rest)
    (positive : 0 < Numeral.value (whole ++ fraction))
    (range : (writtenExponent rest).natAbs ≤ 2147483647) :
    parseUnsigned w negative cs = some (ofDecimal w negative (Numeral.value (whole ++ fraction))
      (writtenExponent rest - fraction.length)) := by
  obtain ⟨taken, dropped⟩ := h.scan
  have word : (cs.take 3).map Char.toLower ≠ ['i', 'n', 'f'] := by
    obtain ⟨c, r, rfl, digit⟩ := h.head
    intro same
    exact (digit_ne digit).1 (by simpa using congrArg List.head? same)
  have whole₀ : whole.isEmpty = false := by simpa using h.nonempty
  have zero : (fraction.isEmpty && decide (Numeral.value whole = 0)) = false := by
    cases fraction with
    | nil =>
      rw [List.append_nil] at positive
      simp [positive.ne']
    | cons c r => rfl
  unfold parseUnsigned
  rw [if_neg word]
  simp only [taken]
  have scaled : (if (whole.isEmpty && fraction.isEmpty) = true then none
      else if (fraction.isEmpty && decide (Numeral.value whole = 0)) = true then some (finite 0)
      else if maxWrittenExponent < writtenExponent rest then some (infinite negative)
      else if writtenExponent rest < -maxWrittenExponent then some (finite 0)
      else some (ofDecimal w negative (Numeral.value (whole ++ fraction))
        (writtenExponent rest - fraction.length))) =
      some (ofDecimal w negative (Numeral.value (whole ++ fraction))
        (writtenExponent rest - fraction.length)) := by
    simp only [whole₀, zero, Bool.false_and, Bool.false_eq_true, if_false]
    rw [if_neg (by unfold maxWrittenExponent; omega), if_neg (by unfold maxWrittenExponent; omega)]
  rcases dropped with dropped | ⟨rfl, dropped⟩
  · obtain ⟨taken', dropped'⟩ := span_append rest
      (fun c hc => h.digits c (List.mem_append_right _ hc)) fun c r hc => (h.ends c r hc).1
    rw [dropped]
    simp only [taken', dropped']
    exact scaled
  · rw [dropped]
    split
    · rename_i t
      exact absurd rfl (h.ends '.' t rfl).2
    · exact scaled

/-- The sign of a spelled number is the one before it. -/
theorem parse_spelled (w : Nat) (negative : Bool) (h : Spelled cs whole fraction rest) :
    parse w (String.ofList ((if negative then ['-'] else []) ++ cs)) =
      parseUnsigned w negative cs := by
  unfold parse
  rw [String.toList_ofList]
  cases negative with
  | true => rfl
  | false =>
    obtain ⟨c, r, rfl, digit⟩ := h.head
    obtain ⟨_, minus, plus⟩ := digit_ne digit
    rw [if_neg Bool.false_ne_true, List.nil_append]
    split
    · simp_all
    · simp_all
    · rfl

/-! ## 2. Written numbers -/

@[simp] theorem writtenExponent_nil : writtenExponent [] = 0 := rfl

/-- A power of ten is read as it is written. -/
theorem writtenExponent_ofInt (n : Int) :
    writtenExponent ('e' :: (Numeral.ofInt n).toList) = n := by
  have digits := Numeral.isDigit_of_mem n.natAbs
  have taken : (Numeral.digits 10 n.natAbs).takeWhile isDigit = Numeral.digits 10 n.natAbs := by
    simpa using (span_append [] digits (by simp)).1
  unfold Numeral.ofInt Numeral.ofNat Numeral.render
  split
  · simp only [String.toList_append, String.toList_ofList]
    show -((Numeral.value ((Numeral.digits 10 n.natAbs).takeWhile isDigit) : Nat) : Int) = n
    rw [taken, Numeral.value_digits]
    omega
  · rw [String.toList_ofList]
    obtain ⟨c, r, written⟩ := List.exists_cons_of_ne_nil (Numeral.digits_ne_nil n.natAbs)
    obtain ⟨_, minus, plus⟩ := digit_ne (digits c (written ▸ List.mem_cons_self))
    have unsigned : writtenExponent ('e' :: Numeral.digits 10 n.natAbs) =
        (Numeral.value ((Numeral.digits 10 n.natAbs).takeWhile isDigit) : Nat) := by
      rw [written]
      simp [writtenExponent, minus, plus]
    rw [unsigned, taken, Numeral.value_digits]
    omega

/-- A text that spells the digits of a number and its power of ten, down to the last digit or to the
unit. -/
def Writes (cs : List Char) (v : Decimal) : Prop :=
  ∃ whole fraction rest, Spelled cs whole fraction rest ∧
    (Numeral.value (whole ++ fraction) : Rat) *
      10 ^ (writtenExponent rest - fraction.length : Int) = v.magnitude ∧
    (writtenExponent rest - fraction.length = v.exponent ∨
      writtenExponent rest - fraction.length = 0) ∧
    (rest = [] ∨ rest = 'e' :: (Numeral.ofInt (v.exponent + v.digitCount - 1)).toList)

variable {v : Decimal}

/-- A text that spells the mantissa writes the number if the last digit is in its place. -/
theorem writes_of_mantissa (h : Spelled cs whole fraction rest)
    (mantissa : Numeral.value (whole ++ fraction) = v.mantissa)
    (exponent : writtenExponent rest - fraction.length = v.exponent)
    (lead : rest = [] ∨ rest = 'e' :: (Numeral.ofInt (v.exponent + v.digitCount - 1)).toList) :
    Writes cs v := by
  refine ⟨whole, fraction, rest, h, ?_, .inl exponent, lead⟩
  rw [mantissa, exponent]
  rfl

/-- A whole number is written with its zeros. -/
theorem writes_whole (he : 0 ≤ v.exponent) :
    Writes (Numeral.digits 10 v.mantissa ++ List.replicate v.exponent.toNat '0' ++ ['.']) v := by
  let ds := Numeral.digits 10 v.mantissa
  refine ⟨ds ++ List.replicate v.exponent.toNat '0', [], [], ⟨?_, ?_, by simp, .inl (by simp [ds])⟩,
    ?_, .inr rfl, .inl rfl⟩
  · simp [ds, Numeral.digits_ne_nil]
  · intro c hc
    rcases List.mem_append.mp (List.append_nil _ ▸ hc) with hc | hc
    · exact Numeral.isDigit_of_mem _ c hc
    · rw [List.eq_of_mem_replicate hc]
      rfl
  · rw [List.append_nil, Numeral.value_append, Numeral.value_zeros, Numeral.value_digits,
      List.length_replicate, Decimal.magnitude, Nat.add_zero, writtenExponent_nil, List.length_nil,
      Nat.cast_zero, sub_zero, zpow_zero, mul_one, Nat.cast_mul, Nat.cast_pow, Nat.cast_ofNat,
      ← zpow_natCast, Int.toNat_of_nonneg he]

/-- The digits of a number on both sides of the point. -/
theorem writes_point {j : Nat} (hj : 0 < j) (place : v.exponent + (v.digitCount : Int) = j)
    (he : v.exponent ≤ 0) :
    Writes ((Numeral.digits 10 v.mantissa).take j ++ ['.'] ++
      (Numeral.digits 10 v.mantissa).drop j) v := by
  let ds := Numeral.digits 10 v.mantissa
  have count : ds.length = v.digitCount := rfl
  have spelled : Spelled (ds.take j ++ ['.'] ++ ds.drop j) (ds.take j) (ds.drop j) [] := by
    refine ⟨?_, ?_, by simp, .inl (by simp)⟩
    · have : ds ≠ [] := Numeral.digits_ne_nil _
      simp [this, hj.ne']
    · rw [List.take_append_drop]
      exact Numeral.isDigit_of_mem _
  refine writes_of_mantissa spelled ?_ ?_ (.inl rfl)
  · rw [List.take_append_drop, Numeral.value_digits]
  · rw [List.length_drop, writtenExponent_nil]
    omega

/-- A number below one, with the zeros behind the point. -/
theorem writes_small {j : Nat} (place : v.exponent + (v.digitCount : Int) = -j) :
    Writes (['0', '.'] ++ List.replicate j '0' ++ Numeral.digits 10 v.mantissa) v := by
  let ds := Numeral.digits 10 v.mantissa
  have count : ds.length = v.digitCount := rfl
  have spelled : Spelled (['0', '.'] ++ List.replicate j '0' ++ ds) ['0']
      (List.replicate j '0' ++ ds) [] := by
    refine ⟨by simp, ?_, by simp, .inl (by simp)⟩
    intro c hc
    have padded : c ∈ List.replicate (j + 1) '0' ++ ds := hc
    exact Numeral.isDigit_of_mem_padded padded
  refine writes_of_mantissa spelled ?_ ?_ (.inl rfl)
  · show Numeral.value (List.replicate 1 '0' ++ (List.replicate j '0' ++ ds)) = _
    rw [Numeral.value_zeros_append, Numeral.value_zeros_append, Numeral.value_digits]
  · rw [List.length_append, List.length_replicate, writtenExponent_nil]
    omega

/-- A number with its power of ten, and with a point if it has more than one digit. -/
theorem writes_scientific {lead : Int} (hl : lead = v.exponent + v.digitCount - 1) :
    Writes ((Numeral.digits 10 v.mantissa).take 1 ++
      (if ((Numeral.digits 10 v.mantissa).drop 1).isEmpty then []
        else '.' :: (Numeral.digits 10 v.mantissa).drop 1) ++ ['e'] ++
      (Numeral.ofInt lead).toList) v := by
  let ds := Numeral.digits 10 v.mantissa
  let rest := 'e' :: (Numeral.ofInt lead).toList
  have count : ds.length = v.digitCount := rfl
  have nonempty : ds ≠ [] := Numeral.digits_ne_nil _
  have positive : 0 < ds.length := List.length_pos_iff.mpr nonempty
  have power : writtenExponent rest = lead := writtenExponent_ofInt lead
  have spelled : Spelled (ds.take 1 ++ (if (ds.drop 1).isEmpty then [] else '.' :: ds.drop 1) ++
      ['e'] ++ (Numeral.ofInt lead).toList) (ds.take 1) (ds.drop 1) rest := by
    refine ⟨by simp [nonempty], ?_, ?_, ?_⟩
    · rw [List.take_append_drop]
      exact Numeral.isDigit_of_mem _
    · intro c r hc
      obtain ⟨rfl, _⟩ := List.cons.inj hc
      decide
    · split
      · rename_i none
        exact .inr ⟨List.isEmpty_iff.mp none, by simp [rest]⟩
      · exact .inl (by simp [rest])
  refine writes_of_mantissa spelled ?_ ?_ (.inr (by rw [← hl]))
  · rw [List.take_append_drop, Numeral.value_digits]
  · rw [List.length_drop, power]
    omega

/-- The text of a number other than zero writes it, behind its sign. -/
theorem text_writes (hv : 0 < v.mantissa) (precision : Nat) :
    ∃ cs, v.text precision = String.ofList ((if v.negative then ['-'] else []) ++ cs) ∧
      Writes cs v := by
  have count : (Numeral.digits 10 v.mantissa).length = v.digitCount := rfl
  unfold Decimal.text
  rw [if_neg hv.ne']
  dsimp only
  rw [count]
  refine ⟨_, rfl, ?_⟩
  split
  · split
    · exact writes_whole ‹_›
    · split
      · exact writes_point (by omega) (by omega) (by omega)
      · exact writes_small (by omega)
  · exact writes_scientific rfl

/-- The text of a number is read as a decimal number of the same sign and magnitude. -/
theorem parse_text (hv : 0 < v.mantissa) (range : v.exponent.natAbs + v.digitCount ≤ 2147483647)
    (w precision : Nat) :
    ∃ (m : Nat) (k : Int), parse w (v.text precision) = some (ofDecimal w v.negative m k) ∧
      (m : Rat) * 10 ^ k = v.magnitude ∧ k.natAbs ≤ v.exponent.natAbs := by
  obtain ⟨cs, text, whole, fraction, rest, spelled, magnitude, place, lead⟩ :=
    text_writes hv precision
  have bound : (writtenExponent rest - fraction.length : Int).natAbs ≤ v.exponent.natAbs := by
    omega
  have power : (writtenExponent rest).natAbs ≤ v.exponent.natAbs + v.digitCount := by
    rcases lead with rfl | rfl
    · exact Nat.zero_le _
    · have count : 0 < v.digitCount := List.length_pos_iff.mpr (Numeral.digits_ne_nil _)
      rw [writtenExponent_ofInt]
      omega
  have positive : 0 < Numeral.value (whole ++ fraction) := by
    have := Decimal.magnitude_pos hv
    rw [← magnitude] at this
    exact_mod_cast pos_of_mul_pos_left this (Decimal.ten_zpow_pos _).le
  refine ⟨_, _, ?_, magnitude, bound⟩
  rw [text, parse_spelled w v.negative spelled]
  exact parseUnsigned_spelled w v.negative spelled positive (by omega)

end StackCalc.ExtDyadic
