import Mathlib.Data.Nat.Size
import StackCalc.Proofs.PowerSizes

/-! # Exact powers

An exact value in canonical form is the value of one rational number, and its integer powers are
those of the number. The powers of zero, one and minus one never grow, so no exponent is out of
their range. Every other number takes at least two bits, and for it the size of the result is
what refuses a power: an exponent that is too large by itself is also too large for the size. -/

namespace StackCalc

/-! ## 1. The bits of a number -/

/-- The bits of the longer part of a fraction in lowest terms. -/
def bitLength (q : Rat) : Nat := max q.num.natAbs.size q.den.size

theorem Scalar.natBits_eq_size (n : Nat) : natBits n = n.size :=
  eq_of_forall_ge_iff fun _ => natBits_le_iff.trans Nat.size_le.symm

/-- Only zero, one and minus one fit in one bit. -/
theorem two_le_bitLength {q : Rat} (other : ¬ (q = 0 ∨ q = 1 ∨ q = -1)) : 2 ≤ bitLength q := by
  by_contra short
  obtain ⟨num, den⟩ := Nat.max_le.mp (Nat.le_of_lt_succ (Nat.not_le.mp short))
  rw [Nat.size_le, pow_one] at num den
  have positive := q.den_pos
  have whole : q = q.num := Rat.ext rfl (by simpa using by omega)
  refine other ?_
  rw [whole]
  obtain zero | one | minus : q.num = 0 ∨ q.num = 1 ∨ q.num = -1 := by omega
  · exact .inl (by rw [zero]; rfl)
  · exact .inr (.inl (by rw [one]; rfl))
  · exact .inr (.inr (by rw [minus]; rfl))

namespace Scalar

variable {x : Scalar} {a : Rat}

/-- A reduced scalar is the value of its number. -/
theorem Denotes.eq_ofRat (h : x.Denotes a) (reduced : x.reduce = x) :
    Value.scalar x = .ofRat a := by
  rw [← h.reduce_eq, Value.reduce, reduced]

/-- The guard counts the bits of the number. -/
theorem Denotes.exactBits? (h : x.Denotes a) (nonzero : a ≠ 0) :
    x.exactBits? = some (bitLength a) := by
  cases h with
  | integer n =>
    have positive : 1 ≤ n.natAbs.size :=
      Nat.size_pos.mpr (Int.natAbs_pos.mpr (by exact_mod_cast nonzero))
    simp [Scalar.exactBits?, bitLength, natBits_eq_size, Nat.size_one, positive]
  | rational => simp [Scalar.exactBits?, bitLength, natBits_eq_size]

/-! ## 2. Powers -/

/-- A power is refused for its exponent or for its size, and it is the reduced power of the number
if not. Zero as a fraction is left out, since its negative powers fail only when it is inverted. -/
theorem powInt_guarded (digits : Nat) (h : x.Denotes a) (nonzero : a ≠ 0)
    (other : ∀ n : Int, x = .integer n → ¬ n.natAbs ≤ 1) (e : Int) :
    ∃ z, z.Denotes (a ^ e) ∧ z.reduce = z ∧ x.powInt digits e =
      if exponentBound ≤ e.natAbs then .error (.domain .exponentTooLarge)
      else if maxPowBits < bitLength a * e.natAbs then
        .error (.domain (.powerTooLong "^" maxPowBits))
      else .ok z := by
  obtain ⟨y, power, reduced, run⟩ := powNat_eq digits h (h.exactBits? nonzero) e.natAbs
  rw [powInt_eq digits other, run]
  cases e with
  | ofNat k =>
    rw [if_neg (by simp), Int.ofNat_eq_natCast, zpow_natCast]
    exact ⟨y, power, reduced, rfl⟩
  | negSucc k =>
    obtain ⟨z, hz, quotient⟩ := (Denotes.integer 1).div (d := digits) power (pow_ne_zero _ nonzero)
    rw [Int.cast_one, one_div] at quotient
    refine ⟨z, by rwa [zpow_negSucc], reduced_div _ hz, ?_⟩
    rw [if_pos (Int.negSucc_lt_zero k), ← hz]
    -- The inverse is taken only of a power that is not refused.
    split
    · rfl
    · split <;> rfl

/-- The powers of zero, one and minus one are those of the number, except for the negative ones of
zero. -/
theorem powUnit_exact {n : Int} (small : n.natAbs ≤ 1) (e : Int) :
    (powUnit n e).map Value.scalar =
      if (n : Rat) = 0 ∧ e < 0 then .error .divisionByZero else .ok (.ofRat ((n : Rat) ^ e)) := by
  rcases powUnit_spec small e with ⟨zero, negative, failure⟩ | ⟨k, hk, power, _⟩
  · rw [failure, if_pos ⟨by rw [zero]; rfl, negative⟩]
    rfl
  · have defined : ¬ ((n : Rat) = 0 ∧ e < 0) := by
      rintro ⟨zero, negative⟩
      rw [powUnit, if_pos ⟨negative, by exact_mod_cast zero⟩] at hk
      cases hk
    rw [hk, if_neg defined, power, ← (Denotes.integer k).eq_ofRat rfl]
    rfl

/-- A reduced scalar for zero, one or minus one is such an integer. -/
theorem Denotes.unit_iff (h : x.Denotes a) (reduced : x.reduce = x) :
    (a = 0 ∨ a = 1 ∨ a = -1) ↔ ∃ n : Int, x = .integer n ∧ a = n ∧ n.natAbs ≤ 1 := by
  constructor
  · intro unit
    have whole : a.den = 1 := by
      rcases unit with rfl | rfl | rfl <;> rfl
    cases h with
    | integer n =>
      refine ⟨n, rfl, rfl, ?_⟩
      have cases : n = 0 ∨ n = 1 ∨ n = -1 := by exact_mod_cast unit
      omega
    | rational =>
      unfold Scalar.reduce at reduced
      dsimp only at reduced
      rw [if_pos whole] at reduced
      cases reduced
  · rintro ⟨n, -, rfl, small⟩
    have cases : n = 0 ∨ n = 1 ∨ n = -1 := by omega
    exact_mod_cast cases

end Scalar

namespace Value

/-- An exact value is that of a number. -/
theorem exact_denotes {v : Value} (exact : v.kind.isExact) :
    ∃ x q, v = .scalar x ∧ x.Denotes q ∧ v.toRat? = some q := by
  cases v with
  | scalar x =>
    cases x with
    | integer n => exact ⟨_, _, rfl, .integer n, rfl⟩
    | rational q => exact ⟨_, _, rfl, .rational q, rfl⟩
    | float | complex => cases exact
  | matrix | list | time | symbolic => cases exact

/-- An exact value in canonical form is that of a number. -/
theorem exact_cases {v : Value} (exact : v.kind.isExact) (reduced : v.reduce = v) :
    ∃ x q, v = .scalar x ∧ x.reduce = x ∧ x.Denotes q ∧ v.toRat? = some q := by
  obtain ⟨x, q, rfl, denotes, number⟩ := exact_denotes exact
  exact ⟨x, q, rfl, by simpa only [reduce, scalar.injEq] using reduced, denotes, number⟩

/-- Integer powers of exact values in canonical form are exact. Zero has no negative powers. The
power is that of the number for zero, one and minus one, and for all others whose bits times the
exponent are few enough. What remains is refused as out of the domain. -/
theorem powInt_exact (digits : Nat) (v : Value) (e : Int) (exact : v.kind.isExact)
    (reduced : v.reduce = v) :
    ∃ q, v.toRat? = some q ∧ v.powInt digits e =
      if q = 0 ∧ e < 0 then .error .divisionByZero
      else if q = 0 ∨ q = 1 ∨ q = -1 ∨ bitLength q * e.natAbs ≤ 2 ^ 24 then .ok (.ofRat (q ^ e))
      else if Scalar.exponentBound ≤ e.natAbs then .error (.domain .exponentTooLarge)
      else .error (.domain (.powerTooLong "^" Scalar.maxPowBits)) := by
  obtain ⟨x, q, rfl, scalar, denotes, number⟩ := exact_cases exact reduced
  refine ⟨q, number, ?_⟩
  rw [powInt]
  by_cases unit : q = 0 ∨ q = 1 ∨ q = -1
  · obtain ⟨n, rfl, rfl, small⟩ := (denotes.unit_iff scalar).mp unit
    have run : (Scalar.integer n).powInt digits e = Scalar.powUnit n e := if_pos small
    have passes : (n : Rat) = 0 ∨ (n : Rat) = 1 ∨ (n : Rat) = -1 ∨
        bitLength n * e.natAbs ≤ 2 ^ 24 := unit.imp_right (Or.imp_right .inl)
    rw [run, Scalar.powUnit_exact small, if_pos passes]
  have nonzero : q ≠ 0 := fun zero => unit (.inl zero)
  have other (n : Int) (hx : x = .integer n) (small : n.natAbs ≤ 1) : False := by
    subst hx
    cases denotes
    exact unit ((Scalar.Denotes.integer n).unit_iff scalar |>.mpr ⟨n, rfl, rfl, small⟩)
  obtain ⟨z, power, canonical, run⟩ := Scalar.powInt_guarded digits denotes nonzero other e
  have bound : Scalar.maxPowBits = 2 ^ 24 := rfl
  rw [run, bound, if_neg fun zero : q = 0 ∧ e < 0 => nonzero zero.1, ← power.eq_ofRat canonical]
  by_cases short : bitLength q * e.natAbs ≤ 2 ^ 24
  · have range : ¬ Scalar.exponentBound ≤ e.natAbs := by
      have two := Nat.mul_le_mul_right e.natAbs (two_le_bitLength unit)
      unfold Scalar.exponentBound
      omega
    rw [if_neg range, if_neg (Nat.not_lt.mpr short), if_pos (.inr (.inr (.inr short)))]
    rfl
  · have refused : ¬ (q = 0 ∨ q = 1 ∨ q = -1 ∨ bitLength q * e.natAbs ≤ 2 ^ 24) := by tauto
    rw [if_neg refused, if_pos (Nat.not_le.mp short)]
    split <;> rfl

/-- A negative power of a fraction, and a power of minus one whose exponent takes 71 bits. -/
theorem powInt_exact_cases :
    (rational (2 / 3)).reduce = rational (2 / 3) ∧
    (rational (2 / 3)).powInt 10 (-3) = .ok (rational (27 / 8)) ∧
    (integer (-1)).powInt 10 (2 ^ 70 + 1) = .ok (integer (-1)) := by
  have reduced : (rational (2 / 3)).reduce = rational (2 / 3) := by
    have fraction : (2 / 3 : Rat).den ≠ 1 := by decide +kernel
    exact congrArg Value.scalar (if_neg fraction)
  obtain ⟨q, hq, fraction⟩ := powInt_exact 10 (rational (2 / 3)) (-3) rfl reduced
  obtain ⟨r, hr, minus⟩ := powInt_exact 10 (integer (-1)) (2 ^ 70 + 1) rfl rfl
  cases hq
  cases hr
  refine ⟨reduced, ?_, ?_⟩
  · have short : bitLength (2 / 3) * (-3 : Int).natAbs ≤ 2 ^ 24 := by
      rw [bitLength, ← Scalar.natBits_eq_size, ← Scalar.natBits_eq_size]
      decide +kernel
    have power : (2 / 3 : Rat) ^ (-3 : Int) = 27 / 8 := by decide +kernel
    have den : (27 / 8 : Rat).den ≠ 1 := by decide +kernel
    rw [fraction, if_neg (by decide +kernel), if_pos (.inr (.inr (.inr short))), power, ofRat,
      if_neg den]
  · have odd : Odd (2 ^ 70 + 1 : Int) := by decide
    have unit : ((-1 : Int) : Rat) = -1 := rfl
    rw [minus, if_neg (by decide +kernel), unit, if_pos (.inr (.inr (.inl rfl))), odd.neg_one_zpow]
    rfl

end Value
end StackCalc
