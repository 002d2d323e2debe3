import StackCalc.Proofs.Powers

/-! # Sizes of powers

A guard multiplies the bits of a factor by the exponent before anything is multiplied. For scalars
it bounds numerator and denominator of the power, and it does for matrices whose cells have a
common denominator of no more bits. Cells with denominators that are prime to each other get the
product of both, which the guard does not count. -/

namespace StackCalc

/-! ## 1. Bits -/

theorem Scalar.natBits_le_iff {k b : Nat} : natBits k ≤ b ↔ k < 2 ^ b := by
  unfold natBits
  split
  · subst k
    exact ⟨fun _ => Nat.two_pow_pos b, fun _ => Nat.zero_le b⟩
  · rename_i nonzero
    exact Nat.succ_le_iff.trans (Nat.log2_lt nonzero)

/-- Numerator and denominator take at most so many bits. -/
def Fits (bits : Nat) (q : Rat) : Prop := q.num.natAbs < 2 ^ bits ∧ q.den < 2 ^ bits

/-- The power of a number of `b` bits. That of one takes no more bits than one. -/
theorem pow_lt_of_bits {k b e w : Nat} (h : k = 1 ∨ k < 2 ^ b) (short : b * e ≤ w) (pos : 0 < w) :
    k ^ e < 2 ^ w := by
  have one : 1 < 2 ^ w := Nat.one_lt_two_pow pos.ne'
  rcases h with rfl | h
  · rwa [one_pow]
  rcases eq_or_ne e 0 with rfl | he
  · rwa [pow_zero]
  · calc k ^ e < (2 ^ b) ^ e := Nat.pow_lt_pow_left h he
      _ = 2 ^ (b * e) := (pow_mul 2 b e).symm
      _ ≤ 2 ^ w := Nat.pow_le_pow_right (by decide) short

theorem Fits.inv {bits : Nat} {q : Rat} (h : Fits bits q) (nonzero : q ≠ 0) : Fits bits q⁻¹ := by
  have sign : q.num.sign.natAbs = 1 := Int.natAbs_sign_of_ne_zero (Rat.num_ne_zero.mpr nonzero)
  unfold Fits
  rw [Rat.num_inv, Int.natAbs_mul, sign, one_mul, Int.natAbs_natCast,
    Rat.den_inv_of_ne_zero nonzero]
  exact h.symm

theorem fits_intCast {bits : Nat} {k : Int} (h : k.natAbs < 2 ^ bits) (pos : 0 < bits) :
    Fits bits (k : Rat) :=
  ⟨h, Nat.one_lt_two_pow pos.ne'⟩

/-! ## 2. Powers of scalars -/

namespace Scalar

variable {digits : Nat} {x : Scalar} {a : Rat}

/-- The bits of an exact scalar bound its parts. Only the denominator of an integer is left out. -/
theorem Denotes.parts {b : Nat} (h : x.Denotes a) (hb : x.exactBits? = some b) :
    a.num.natAbs < 2 ^ b ∧ (a.den = 1 ∨ a.den < 2 ^ b) := by
  cases h with
  | integer n => exact ⟨natBits_le_iff.mp (Option.some.inj hb).le, .inl rfl⟩
  | rational =>
    have widest : max (natBits a.num.natAbs) (natBits a.den) ≤ b := (Option.some.inj hb).le
    exact ⟨natBits_le_iff.mp ((Nat.le_max_left _ _).trans widest),
      .inr (natBits_le_iff.mp ((Nat.le_max_right _ _).trans widest))⟩

/-- The product of the bits and the exponent bounds the parts of a power. -/
theorem Denotes.fits_pow {b e w : Nat} (h : x.Denotes a) (hb : x.exactBits? = some b)
    (short : b * e ≤ w) (pos : 0 < w) : Fits w (a ^ e) := by
  obtain ⟨num, den⟩ := h.parts hb
  refine ⟨?_, ?_⟩
  · rw [Rat.num_pow, Int.natAbs_pow]
    exact pow_lt_of_bits (.inr num) short pos
  · rw [Rat.den_pow]
    exact pow_lt_of_bits den short pos

/-- A natural power of an exact scalar is refused for its exponent or for its size, and it is the
reduced power of the number if not. -/
theorem powNat_eq (digits : Nat) (h : x.Denotes a) {bits : Nat} (hbits : x.exactBits? = some bits)
    (e : Nat) : ∃ z, z.Denotes (a ^ e) ∧ z.reduce = z ∧ x.powNat digits e =
      if exponentBound ≤ e then .error (.domain .exponentTooLarge)
      else if maxPowBits < bits * e then .error (.domain (.powerTooLong "^" maxPowBits))
      else .ok z := by
  obtain ⟨z, hz, power, reduced⟩ := powLoop_spec (mul digits)
    (R := fun y b => y.Denotes b ∧ y.reduce = y) (S := Denotes)
    (fun hx hy => (hx.1.mul hy).imp fun _ hz => ⟨hz.1, hz.2, reduced_mul _ hz.1⟩)
    (fun hx => hx.mul hx) e ⟨.integer 1, rfl⟩ h
  refine ⟨z, by simpa using power, reduced, ?_⟩
  rw [Scalar.powNat, hbits, ← hz]
  dsimp only [checkPowSize]
  split
  · rfl
  · split <;> rfl

/-- A natural power of an exact scalar fits, or it is refused. -/
theorem powNat_spec (digits : Nat) (h : x.Denotes a) (e : Nat) :
    (∃ z, x.powNat digits e = .ok z ∧ z.Denotes (a ^ e) ∧ Fits maxPowBits (a ^ e)) ∨
      ∃ fault, x.powNat digits e = .error (.domain fault) := by
  obtain ⟨bits, hbits⟩ := exactBits?_of_exact h.isExact
  obtain ⟨z, power, _, run⟩ := powNat_eq digits h hbits e
  rw [run]
  by_cases range : exponentBound ≤ e
  · exact .inr ⟨_, if_pos range⟩
  by_cases long : maxPowBits < bits * e
  · exact .inr ⟨_, (if_neg range).trans (if_pos long)⟩
  rw [if_neg range, if_neg long]
  exact .inl ⟨z, rfl, power, h.fits_pow hbits (Nat.le_of_not_lt long) (by decide)⟩

/-- Powers of zero, one and minus one are such numbers again. -/
theorem powUnit_spec {n : Int} (small : n.natAbs ≤ 1) (e : Int) :
    (n = 0 ∧ e < 0 ∧ powUnit n e = .error .divisionByZero) ∨
      ∃ k : Int, powUnit n e = .ok (.integer k) ∧ (n : Rat) ^ e = k ∧ k.natAbs ≤ 1 := by
  unfold powUnit
  by_cases divides : e < 0 ∧ n = 0
  · exact .inl ⟨divides.2, divides.1, if_pos divides⟩
  rw [if_neg divides]
  by_cases one : e = 0 ∨ (n < 0 ∧ e % 2 = 0)
  · refine .inr ⟨1, if_pos one, ?_, Nat.le_refl _⟩
    rcases one with rfl | ⟨negative, even⟩
    · exact zpow_zero _
    · obtain rfl : n = -1 := by omega
      simpa using Even.neg_one_zpow (Int.even_iff.mpr even)
  · refine .inr ⟨n, if_neg one, ?_, small⟩
    obtain rfl | rfl | rfl : n = 0 ∨ n = 1 ∨ n = -1 := by omega
    · simpa using zero_zpow e fun zero => one (.inl zero)
    · simp
    · have odd : Odd e := Int.odd_iff.mpr (by omega)
      simpa using odd.neg_one_zpow

/-- A base that is no integer of at most one goes through the natural power. -/
theorem powInt_eq (digits : Nat) (other : ∀ n : Int, x = .integer n → ¬ n.natAbs ≤ 1) (e : Int) :
    x.powInt digits e =
      if e < 0 then x.powNat digits e.natAbs >>= inv digits else x.powNat digits e.natAbs := by
  cases x with
  | integer n => exact if_neg (other n rfl)
  | rational | float | complex => rfl

/-- Negative powers invert the positive one, and that keeps the size. -/
theorem inv_powNat_spec (h : x.Denotes a) (k : Nat) :
    let run := x.powNat digits (k + 1) >>= inv digits
    (∃ z, run = .ok z ∧ z.Denotes (a ^ (k + 1))⁻¹ ∧ Fits maxPowBits (a ^ (k + 1))⁻¹) ∨
      (∃ fault, run = .error (.domain fault)) ∨ (a = 0 ∧ run = .error .divisionByZero) := by
  intro run
  rcases powNat_spec digits h (k + 1) with ⟨y, hy, power, fits⟩ | ⟨fault, failure⟩
  · rcases eq_or_ne (a ^ (k + 1)) 0 with zero | nonzero
    · rw [zero] at power
      have divides : inv digits y = .error .divisionByZero := (Denotes.integer 1).div_zero power
      exact .inr (.inr ⟨pow_eq_zero_iff (Nat.succ_ne_zero k) |>.mp zero, by
        simp only [run, hy, ok_bind, divides]⟩)
    · obtain ⟨z, hz, quotient⟩ := (Denotes.integer 1).div (d := digits) power nonzero
      rw [Int.cast_one, one_div] at quotient
      exact .inl ⟨z, by simpa only [run, hy, ok_bind, inv] using hz, quotient, fits.inv nonzero⟩
  · exact .inr (.inl ⟨fault, by simp only [run, failure]; rfl⟩)

/-- A power of an exact scalar fits, or it is refused. Only zero has no negative powers. -/
theorem powInt_spec (h : x.Denotes a) (e : Int) :
    (∃ z, x.powInt digits e = .ok z ∧ z.Denotes (a ^ e) ∧ Fits maxPowBits (a ^ e)) ∨
      (∃ fault, x.powInt digits e = .error (.domain fault)) ∨
      (a = 0 ∧ e < 0 ∧ x.powInt digits e = .error .divisionByZero) := by
  by_cases unit : ∃ n : Int, x = .integer n ∧ n.natAbs ≤ 1
  · obtain ⟨n, rfl, small⟩ := unit
    have run : powInt digits (integer n) e = powUnit n e := if_pos small
    cases h
    rw [run]
    rcases powUnit_spec small e with ⟨zero, negative, failure⟩ | ⟨k, hk, power, bound⟩
    · exact .inr (.inr ⟨by rw [zero]; rfl, negative, failure⟩)
    · rw [power]
      refine .inl ⟨_, hk, .integer k, fits_intCast (bound.trans_lt ?_) (by decide)⟩
      exact Nat.one_lt_two_pow (by decide)
  rw [powInt_eq digits fun n hn small => unit ⟨n, hn, small⟩]
  cases e with
  | ofNat k =>
    rw [if_neg (by simp), Int.ofNat_eq_natCast, zpow_natCast]
    exact (powNat_spec digits h k).imp_right .inl
  | negSucc k =>
    have negative := Int.negSucc_lt_zero k
    rw [if_pos negative, zpow_negSucc]
    exact (inv_powNat_spec h k).imp_right (Or.imp_right fun zero => ⟨zero.1, negative, zero.2⟩)

end Scalar

namespace Matrix

/-! ## 3. Powers of matrices -/

/-- All numbers of a table are fractions over one denominator. The numerators take at most so many
bits, and the denominator at most the bits of the dimension more. -/
def Common {n : Nat} (bits : Nat) (A : RatTable n) : Prop :=
  ∃ d : Nat, 0 < d ∧ d < 2 ^ (bits + Scalar.natBits n) ∧
    ∀ i j, ∃ z : Int, A i j * d = z ∧ z.natAbs < 2 ^ bits

/-- A fraction in lowest terms has the smallest parts. -/
theorem parts_le {q : Rat} {d : Nat} {z : Int} (pos : 0 < d) (h : q * d = z) :
    q.num.natAbs ≤ z.natAbs ∧ q.den ≤ d := by
  have nonzero : (d : Rat) ≠ 0 := by exact_mod_cast pos.ne'
  have quotient : q = Rat.divInt z d := by
    rw [Rat.divInt_eq_div, ← h, Int.cast_natCast, mul_div_cancel_right₀ _ nonzero]
  refine ⟨?_, ?_⟩
  · rcases eq_or_ne z 0 with rfl | hz
    · simp [quotient]
    · rw [quotient]
      exact Int.natAbs_le_of_dvd_ne_zero (Rat.num_dvd z (by exact_mod_cast pos.ne')) hz
  · rw [quotient]
    exact Nat.le_of_dvd pos (by exact_mod_cast Rat.den_dvd z d)

section
variable {n : Nat} {A : RatTable n}

/-- A product adds at most the bits of the dimension to a numerator. -/
theorem numerators_pow {c d : Nat} (cells : ∀ i j, ∃ z : Int, A i j * d = z ∧ z.natAbs ≤ c)
    (k : Nat) (i j : Fin n) :
    ∃ z : Int, (A ^ k) i j * (d ^ k : Nat) = z ∧ z.natAbs ≤ (n * c) ^ k := by
  induction k generalizing i j with
  | zero =>
    refine ⟨if i = j then 1 else 0, ?_, ?_⟩
    · simp [Matrix.one_apply]
    · split <;> simp
  | succ k ih =>
    choose numerator hnumerator hc using cells
    choose power hpower hbound using ih
    refine ⟨∑ l, power i l * numerator l j, ?_, ?_⟩
    · rw [pow_succ, Matrix.mul_apply, Finset.sum_mul, Int.cast_sum]
      refine Finset.sum_congr rfl fun l _ => ?_
      rw [Int.cast_mul, ← hpower, ← hnumerator, pow_succ, Nat.cast_mul]
      ring
    · calc (∑ l, power i l * numerator l j).natAbs
          ≤ ∑ l, (power i l * numerator l j).natAbs := Int.natAbs_sum_le _ _
        _ ≤ ∑ _l : Fin n, (n * c) ^ k * c := by
            refine Finset.sum_le_sum fun l _ => ?_
            rw [Int.natAbs_mul]
            exact Nat.mul_le_mul (hbound i l) (hc l j)
        _ = (n * c) ^ (k + 1) := by
            rw [Finset.sum_const, Finset.card_univ, Fintype.card_fin, smul_eq_mul, pow_succ]
            ring

/-- Powers over a common denominator stay within the bits that the guard has counted. -/
theorem Common.fits_pow {bits e w : Nat} (common : Common bits A)
    (short : (bits + Scalar.natBits n) * e ≤ w) (pos : 0 < w) (i j : Fin n) :
    Fits w ((A ^ e) i j) := by
  obtain ⟨d, dpos, hd, cells⟩ := common
  have cells (i j : Fin n) : ∃ z : Int, A i j * d = z ∧ z.natAbs ≤ 2 ^ bits - 1 :=
    (cells i j).imp fun z hz => ⟨hz.1, Nat.le_sub_one_of_lt hz.2⟩
  obtain ⟨z, hz, bound⟩ := numerators_pow cells e i j
  obtain ⟨num, den⟩ := parts_le (Nat.pow_pos dpos) hz
  have growth : n * (2 ^ bits - 1) < 2 ^ (bits + Scalar.natBits n) := by
    have dimension : n < 2 ^ Scalar.natBits n := Scalar.natBits_le_iff.mp le_rfl
    have positive := Nat.two_pow_pos bits
    calc n * (2 ^ bits - 1) ≤ n * 2 ^ bits := Nat.mul_le_mul_left _ (Nat.sub_le _ _)
      _ < 2 ^ Scalar.natBits n * 2 ^ bits := Nat.mul_lt_mul_of_pos_right dimension positive
      _ = 2 ^ (bits + Scalar.natBits n) := by rw [pow_add, Nat.mul_comm]
  exact ⟨(num.trans bound).trans_lt (pow_lt_of_bits (.inr growth) short pos),
    den.trans_lt (pow_lt_of_bits (.inr hd) short pos)⟩

end

/-- A power fits or is refused, if the cells of what it multiplies have a common denominator. Up to
one factor the cells are those of the matrix itself. -/
theorem pow_fits_of_common {digits : Nat} {m : Matrix} {e : Int} (square : m.cols = m.height)
    (exact : ∀ c ∈ m.cells, c.kind.isExact)
    (common : 1 < e.natAbs → ∀ base bits, m.powerBase digits e = .ok base →
      base.exactBits? = some bits → Common bits (table m.height base.rows)) :
    (∃ p, m.pow digits e = .ok p ∧ p.Tabulates (table m.height m.rows ^ e) ∧
      ∀ c ∈ p.cells, Fits Scalar.maxPowBits c.number) ∨
    ∃ fault, m.pow digits e = .error (.domain fault) := by
  rcases (tabulates_of_exact square exact).pow digits e with ⟨_, failure⟩ | ⟨_, p, powered⟩
  · exact .inr failure
  refine .inl ⟨p, powered.run, powered.power, fun c hc => ?_⟩
  obtain ⟨base, B, bits, hbase, tabulates, _, whole, hbits, short⟩ := powered.guarded
  obtain ⟨i, j, number⟩ := powered.power.exists_entry hc
  rw [number]
  obtain none | single | several : e.natAbs = 0 ∨ e.natAbs = 1 ∨ 1 < e.natAbs := by omega
  · have one : 1 < 2 ^ Scalar.maxPowBits := Nat.one_lt_two_pow (by decide)
    rw [← whole, none, pow_zero, Matrix.one_apply]
    split
    · exact ⟨one, one⟩
    · exact ⟨Nat.two_pow_pos _, one⟩
  · obtain ⟨k, hk, entry⟩ := tabulates.exists_cell i j
    obtain ⟨widest, hwidest, widths⟩ := exactBits?_of_exact tabulates.exact
    cases hbits.symm.trans hwidest
    obtain ⟨b, hb, width⟩ := widths k hk
    have bound : b * 1 ≤ Scalar.maxPowBits := by
      rw [single] at short
      omega
    have fits := (Scalar.denotes_number (tabulates.exact k hk)).fits_pow hb bound (by decide)
    rwa [← whole, single, pow_one, ← entry, ← pow_one k.number]
  · have denominator := common several base bits hbase hbits
    rw [tabulates.numbers] at denominator
    rw [← whole]
    exact denominator.fits_pow short (by decide) i j

end Matrix

/-! ## 4. The guard -/

/-- The guard keeps powers of exact scalars within the bits that it names: a power fits, or it fails
with a fault of the domain, except for zero, which has no negative powers. It does so for square
matrices of exact cells if there is at most one factor, or the cells of the factors have a common
denominator. -/
theorem pow_fits (digits : Nat) :
    (∀ (x : Scalar) (a : Rat) (e : Int), x.Denotes a →
      (∃ z, x.powInt digits e = .ok z ∧ z.Denotes (a ^ e) ∧ Fits Scalar.maxPowBits (a ^ e)) ∨
      (∃ fault, x.powInt digits e = .error (.domain fault)) ∨
      (a = 0 ∧ e < 0 ∧ x.powInt digits e = .error .divisionByZero)) ∧
    ∀ (m : Matrix) (e : Int), m.cols = m.height → (∀ c ∈ m.cells, c.kind.isExact) →
      (1 < e.natAbs → ∀ base bits, m.powerBase digits e = .ok base →
        base.exactBits? = some bits → Matrix.Common bits (Matrix.table m.height base.rows)) →
      (∃ p, m.pow digits e = .ok p ∧ p.Tabulates (Matrix.table m.height m.rows ^ e) ∧
        ∀ c ∈ p.cells, Fits Scalar.maxPowBits c.number) ∨
      ∃ fault, m.pow digits e = .error (.domain fault) :=
  ⟨fun _ _ e h => Scalar.powInt_spec h e,
    fun _ _ square exact common => Matrix.pow_fits_of_common square exact common⟩

namespace Matrix

/-- Halves, with the common denominator two. -/
def halves : Matrix where
  cols := 2
  rows := [[.rational (1 / 2), .rational (3 / 2)], [.integer 1, .integer 0]]
  rectangular := by decide

/-- A negative power of a fraction and the square of a matrix of halves. -/
theorem pow_fits_halves :
    (Scalar.rational (3 / 2)).Denotes (3 / 2) ∧ (∀ c ∈ halves.cells, c.kind.isExact) ∧
    (∃ z, Scalar.powInt 0 (.rational (3 / 2)) (-5) = .ok z ∧
      z.Denotes ((3 / 2) ^ (-5 : Int)) ∧ Fits Scalar.maxPowBits ((3 / 2) ^ (-5 : Int))) ∧
    ∃ p, halves.pow 0 2 = .ok p ∧ ∀ c ∈ p.cells, Fits Scalar.maxPowBits c.number := by
  have exact : ∀ c ∈ halves.cells, c.kind.isExact := by decide
  obtain ⟨scalars, matrices⟩ := pow_fits 0
  have common : ∀ base bits, halves.powerBase 0 2 = .ok base → base.exactBits? = some bits →
      Common bits (table 2 base.rows) := by
    intro base bits hbase hbits
    cases hbase
    have two : halves.exactBits? = some 2 := by decide +kernel
    cases two.symm.trans hbits
    refine ⟨2, by decide, by decide, fun i j => ?_⟩
    fin_cases i <;> fin_cases j
    · exact ⟨1, by decide +kernel, by decide⟩
    · exact ⟨3, by decide +kernel, by decide⟩
    · exact ⟨2, by decide +kernel, by decide⟩
    · exact ⟨0, by decide +kernel, by decide⟩
  have computed : (Scalar.powInt 0 (.rational (3 / 2)) (-5)).isOk ∧ (halves.pow 0 2).isOk := by
    decide +kernel
  refine ⟨.rational _, exact, ?_, ?_⟩
  · rcases scalars _ _ (-5) (.rational (3 / 2)) with power | ⟨fault, failure⟩ | ⟨_, _, failure⟩
    · exact power
    all_goals
      rw [failure] at computed
      exact nomatch computed.1
  · rcases matrices halves 2 rfl exact (fun _ => common) with ⟨p, run, _, fits⟩ | ⟨fault, failure⟩
    · exact ⟨p, run, fits⟩
    · rw [failure] at computed
      exact nomatch computed.2

/-! ## 5. Denominators without a common one -/

/-- The fractions in the first column have denominators that are prime to each other. -/
def unrelated (a : Nat) : Matrix where
  cols := 2
  rows := [[.rational ((2 ^ a : Nat) : Rat)⁻¹, .integer 1],
    [.rational ((127 : Nat) : Rat)⁻¹, .integer 0]]
  rectangular := ⟨List.cons_ne_nil _ _, by decide, by simp⟩

section
variable (a : Nat)

theorem unrelated_exact : ∀ c ∈ (unrelated a).cells, c.kind.isExact := by
  simp [unrelated, cells, Scalar.kind, Kind.isExact]

/-- The guard counts the bits of the longer denominator. -/
theorem unrelated_bits (long : 6 ≤ a) :
    ∃ bits, (unrelated a).exactBits? = some bits ∧ bits ≤ a + 1 := by
  have bits (d : Nat) (pos : 0 < d) (short : d < 2 ^ (a + 1)) :
      max (Scalar.natBits ((d : Rat)⁻¹).num.natAbs) (Scalar.natBits ((d : Rat)⁻¹).den) ≤ a + 1 := by
    rw [Rat.inv_natCast_num_of_pos pos, Rat.inv_natCast_den_of_pos pos]
    exact Nat.max_le.mpr ⟨Scalar.natBits_le_iff.mpr (Nat.one_lt_two_pow (Nat.succ_ne_zero a)),
      Scalar.natBits_le_iff.mpr short⟩
  have width : 2 ^ 7 ≤ 2 ^ (a + 1) := Nat.pow_le_pow_right (by decide) (by omega)
  have first := bits (2 ^ a) (Nat.two_pow_pos a) (Nat.pow_lt_pow_right (by decide) a.lt_succ_self)
  have other := bits 127 (by decide) (by omega)
  have one : Scalar.natBits (1 : Int).natAbs ≤ a + 1 :=
    Scalar.natBits_le_iff.mpr (Nat.one_lt_two_pow (Nat.succ_ne_zero a))
  exact ⟨_, rfl, Nat.max_le.mpr ⟨Nat.max_le.mpr ⟨Nat.max_le.mpr
    ⟨Nat.max_le.mpr ⟨Nat.zero_le _, first⟩, one⟩, other⟩, Nat.zero_le _⟩⟩

/-- The square has the product of both denominators. -/
theorem unrelated_square :
    ((table 2 (unrelated a).rows ^ 2) 0 0).den = 127 * 2 ^ (2 * a) := by
  have entries : (table 2 (unrelated a).rows ^ 2) 0 0 =
      ((2 ^ a : Nat) : Rat)⁻¹ * ((2 ^ a : Nat) : Rat)⁻¹ + 1 * ((127 : Nat) : Rat)⁻¹ := by
    rw [pow_two, Matrix.mul_apply, Fin.sum_univ_two]
    rfl
  have sum : (table 2 (unrelated a).rows ^ 2) 0 0 =
      (((127 + 2 ^ (2 * a) : Nat) : Int) : Rat) / ((127 * 2 ^ (2 * a) : Nat) : Int) := by
    rw [entries]
    push_cast
    field_simp
    ring
  have odd : Nat.Coprime (2 ^ (2 * a)) 127 := Nat.Coprime.pow_left _ (by decide)
  have coprime : Nat.Coprime (127 + 2 ^ (2 * a)) (127 * 2 ^ (2 * a)) :=
    Nat.Coprime.mul_right (by simpa using odd) (by simpa using odd.symm)
  have den := Rat.den_div_eq_of_coprime (a := (127 + 2 ^ (2 * a) : Nat))
    (b := (127 * 2 ^ (2 * a) : Nat)) (by positivity)
    (by simpa only [Int.natAbs_natCast] using coprime)
  rw [sum]
  exact Int.natCast_inj.mp den

end

/-- A square that the guard lets pass although a denominator is longer than it allows. -/
theorem pow_unrelated {a : Nat} (short : (a + 3) * 2 ≤ Scalar.maxPowBits)
    (long : Scalar.maxPowBits ≤ 2 * a + 6) : ∃ p, (unrelated a).pow 0 2 = .ok p ∧
      ∃ c ∈ p.cells, ¬ Fits Scalar.maxPowBits c.number := by
  have large : 6 ≤ a := by
    have : 18 ≤ Scalar.maxPowBits := by decide
    omega
  have tabulates : (unrelated a).Tabulates (table 2 (unrelated a).rows) :=
    tabulates_of_exact rfl (unrelated_exact a)
  rcases tabulates.pow 0 2 with ⟨refused, _⟩ | ⟨_, p, powered⟩
  · exfalso
    obtain ⟨bits, hbits, bound⟩ := unrelated_bits a large
    rcases refused with ⟨negative, _⟩ | range | ⟨base, bits', hbase, hbits', out⟩
    · exact absurd negative (by decide)
    · exact absurd range (by decide)
    · cases hbase
      cases hbits.symm.trans hbits'
      have dimension : Scalar.natBits (unrelated a).height ≤ 2 :=
        Scalar.natBits_le_iff.mpr (by decide : 2 < 2 ^ 2)
      have passes : (bits + Scalar.natBits (unrelated a).height) * 2 ≤ Scalar.maxPowBits :=
        (Nat.mul_le_mul_right 2 (by omega)).trans short
      exact absurd out (Nat.not_lt_of_le passes)
  · obtain ⟨c, hc, number⟩ := powered.power.exists_cell 0 0
    refine ⟨p, powered.run, c, hc, fun fits => ?_⟩
    have den : c.number.den = 127 * 2 ^ (2 * a) := by
      rw [number]
      exact unrelated_square a
    have bits : 2 ^ Scalar.maxPowBits ≤ 127 * 2 ^ (2 * a) := calc
      2 ^ Scalar.maxPowBits ≤ 2 ^ (2 * a + 6) := Nat.pow_le_pow_right (by decide) long
      _ = 2 ^ (2 * a) * 2 ^ 6 := pow_add 2 _ _
      _ ≤ 2 ^ (2 * a) * 127 := Nat.mul_le_mul_left _ (by decide)
      _ = 127 * 2 ^ (2 * a) := Nat.mul_comm _ _
    exact absurd (den ▸ fits.2) (Nat.not_lt_of_le bits)

/-- The square of a matrix with the cells `1/2^8388605` and `1/127` in one column is not refused.
Its first cell has a denominator of more bits than the guard allows. -/
theorem pow_oversized : (∀ c ∈ (unrelated 8388605).cells, c.kind.isExact) ∧
    ∃ p, (unrelated 8388605).pow 0 2 = .ok p ∧
      ∃ c ∈ p.cells, ¬ Fits Scalar.maxPowBits c.number :=
  ⟨unrelated_exact _, pow_unrelated (by decide) (by decide)⟩

end Matrix
end StackCalc
