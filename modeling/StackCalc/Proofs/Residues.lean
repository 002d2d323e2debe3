import Mathlib.Data.ZMod.Units
import Mathlib.RingTheory.Coprime.Lemmas
import Mathlib.Tactic.Linarith
import StackCalc.NumberTheory
import StackCalc.Proofs.Execution

/-! # Inverses and powers to a modulus

Euclid's algorithm keeps a cofactor beside each remainder: the first argument times the cofactor is
congruent to the remainder. So the cofactor that is left beside a greatest common divisor of one is
the inverse, and powers with exponents of any sign are those of a unit among the residues. -/

namespace StackCalc.NumberTheory

variable {a b e m n x r : Int}

/-! ## 1. Euclid's algorithm -/

theorem euclid_fst (r₀ r₁ : Nat) (s₀ s₁ : Int) : (euclid r₀ r₁ s₀ s₁).1 = Nat.gcd r₀ r₁ := by
  fun_induction euclid with
  | case1 r₀ => exact (Nat.gcd_zero_right r₀).symm
  | case2 r₀ r₁ _ _ _ ih => rw [ih, Nat.gcd_comm r₁, ← Nat.gcd_rec, Nat.gcd_comm]

/-- Each step subtracts as many cofactors as it subtracts remainders. -/
theorem euclid_cofactor {r₀ r₁ : Nat} {s₀ s₁ : Int} (h₀ : a * s₀ ≡ r₀ [ZMOD n])
    (h₁ : a * s₁ ≡ r₁ [ZMOD n]) :
    a * (euclid r₀ r₁ s₀ s₁).2 ≡ (euclid r₀ r₁ s₀ s₁).1 [ZMOD n] := by
  fun_induction euclid with
  | case1 => exact h₀
  | case2 r₀ r₁ s₀ s₁ _ ih =>
    refine ih h₁ ?_
    have rest : ((r₀ % r₁ : Nat) : Int) = r₀ - (r₀ / r₁ : Nat) * r₁ := by
      rw [eq_sub_iff_add_eq, mul_comm]
      exact_mod_cast Nat.mod_add_div r₀ r₁
    have cofactor : a * (s₀ - (r₀ / r₁ : Nat) * s₁) = a * s₀ - (r₀ / r₁ : Nat) * (a * s₁) := by
      ring
    rw [rest, cofactor]
    exact h₀.sub (h₁.mul_left _)

/-! ## 2. Inverses -/

/-- The residues to a modulus run from zero up to its absolute value. -/
def IsResidue (m r : Int) : Prop := 0 ≤ r ∧ r < |m|

instance : Decidable (IsResidue m r) := inferInstanceAs (Decidable (_ ∧ _))

theorem isResidue_emod (hm : m ≠ 0) (a : Int) : IsResidue m (a % |m|) :=
  ⟨Int.emod_nonneg a (abs_ne_zero.mpr hm), Int.emod_lt_of_pos a (abs_pos.mpr hm)⟩

/-- A number is congruent to one residue only. -/
theorem IsResidue.eq_emod (h : IsResidue m r) (congruent : r ≡ a [ZMOD |m|]) : r = a % |m| := by
  rw [← congruent.eq, Int.emod_eq_of_lt h.1 h.2]

/-- There is a cofactor of the greatest common divisor, and its residue is the inverse. -/
theorem modInverse_eq (hm : m ≠ 0) : ∃ x, a * x ≡ Int.gcd a m [ZMOD |m|] ∧
    modInverse a m =
      if Int.gcd a m = 1 then .ok (x % |m|)
      else .error (.domain (.noInverse a |m| (Int.gcd a m))) := by
  rw [Int.abs_eq_natAbs]
  let n := m.natAbs
  have positive : (0 : Int) < n := by omega
  have residue : ((a % n).toNat : Int) = a % n :=
    Int.toNat_of_nonneg (Int.emod_nonneg a positive.ne')
  have divisor : (euclid (a % n).toNat n 1 0).1 = Int.gcd a m := by
    rw [euclid_fst, ← Int.gcd_natCast_natCast, residue, Int.gcd_emod]
    rfl
  refine ⟨(euclid (a % n).toNat n 1 0).2, ?_, ?_⟩
  · rw [← divisor]
    refine euclid_cofactor ?_ ?_
    · rw [mul_one, residue]
      exact (Int.mod_modEq a n).symm
    · rw [mul_zero]
      exact (Int.modEq_zero_iff_dvd.mpr dvd_rfl).symm
  · rw [modInverse, if_neg hm, ← divisor]

/-- A number has an inverse exactly if it is coprime to the modulus. -/
theorem gcd_eq_one_iff : Int.gcd a m = 1 ↔ ∃ x, a * x ≡ 1 [ZMOD |m|] := by
  rw [← Int.isCoprime_iff_gcd_eq_one]
  constructor
  · rintro ⟨u, v, bezout⟩
    exact ⟨u, Int.modEq_iff_dvd.mpr ((abs_dvd _ _).mpr ⟨v, by linarith⟩)⟩
  · rintro ⟨x, inverse⟩
    obtain ⟨v, hv⟩ := (abs_dvd _ _).mp (Int.modEq_iff_dvd.mp inverse)
    exact ⟨x, v, by linarith⟩

/-- Two inverses of a number are congruent. -/
theorem inverse_unique {y : Int} (hx : a * x ≡ 1 [ZMOD n]) (hy : a * y ≡ 1 [ZMOD n]) :
    y ≡ x [ZMOD n] :=
  calc y = y * 1 := (mul_one y).symm
    _ ≡ y * (a * x) [ZMOD n] := hx.symm.mul_left y
    _ = a * y * x := by ring
    _ ≡ 1 * x [ZMOD n] := hy.mul_right x
    _ = x := one_mul x

/-- The inverse to a modulus is the residue whose product with the number is congruent to one.
There is no other such residue, and there is one exactly if the number is coprime to the modulus.
Otherwise the call is out of the domain, except for the modulus zero, by which it would divide. -/
theorem modInverse_spec (a m : Int) :
    (modInverse a m = .error .divisionByZero ↔ m = 0) ∧
    (∀ x, modInverse a m = .ok x ↔ m ≠ 0 ∧ IsResidue m x ∧ a * x ≡ 1 [ZMOD |m|]) ∧
    ((∃ x, modInverse a m = .ok x) ↔ m ≠ 0 ∧ Int.gcd a m = 1) ∧
    (modInverse a m = .error (.domain (.noInverse a |m| (Int.gcd a m))) ↔
      m ≠ 0 ∧ Int.gcd a m ≠ 1) := by
  by_cases hm : m = 0
  · subst hm
    have run : modInverse a 0 = .error .divisionByZero := rfl
    simp [run]
  obtain ⟨x, cofactor, run⟩ := modInverse_eq (a := a) hm
  by_cases coprime : Int.gcd a m = 1
  · rw [coprime, Nat.cast_one] at cofactor
    rw [if_pos coprime] at run
    have unique (y : Int) : x % |m| = y ↔ IsResidue m y ∧ a * y ≡ 1 [ZMOD |m|] := by
      constructor
      · rintro rfl
        exact ⟨isResidue_emod hm x, ((Int.mod_modEq x |m|).mul_left a).trans cofactor⟩
      · rintro ⟨residue, inverse⟩
        exact (residue.eq_emod (inverse_unique cofactor inverse)).symm
    refine ⟨by simp [run, hm], fun y => ?_, by simp [run, hm, coprime], by simp [run, coprime]⟩
    rw [run, Except.ok.injEq, unique, and_iff_right hm]
  · rw [if_neg coprime] at run
    have none (y : Int) : ¬ a * y ≡ 1 [ZMOD |m|] := fun inverse =>
      coprime (gcd_eq_one_iff.mpr ⟨y, inverse⟩)
    refine ⟨by simp [run, hm], fun y => ?_, by simp [run, coprime], by simp [run, hm, coprime]⟩
    simp only [run, reduceCtorEq, none, and_false]

example : modInverse (-3) 11 = .ok 7 := by cbv

/-! ## 3. Powers by repeated squaring -/

/-- What a step multiplies into the product is the factor that is lost by halving the exponent. -/
theorem powMod_step {n acc : Nat} (h : acc % n = acc) (square e : Nat) :
    let next := if e % 2 = 1 then acc * square % n else acc
    next % n = next ∧ next ≡ acc * square ^ (e % 2) [MOD n] := by
  rcases Nat.mod_two_eq_zero_or_one e with even | odd
  · simpa [even] using ⟨h, Nat.ModEq.refl acc⟩
  · simpa [odd] using Nat.mod_modEq (acc * square) n

theorem powMod_eq {n acc : Nat} (h : acc % n = acc) (square e : Nat) :
    powMod n acc square e = acc * square ^ e % n := by
  induction e using Nat.strongRecOn generalizing acc square with
  | ind e ih =>
    rw [powMod]
    split
    · rename_i zero
      rw [zero, pow_zero, mul_one, h]
    · rename_i nonzero
      obtain ⟨reduced, product⟩ := powMod_step h square e
      have halves : square ^ (e % 2) * (square * square) ^ (e / 2) = square ^ e := by
        rw [← pow_two, ← pow_mul, ← pow_add, Nat.mod_add_div]
      rw [ih _ (Nat.div_lt_self (Nat.pos_of_ne_zero nonzero) one_lt_two) reduced, ← halves,
        ← mul_assoc]
      exact product.mul ((Nat.mod_modEq (square * square) n).pow _)

/-- The loop gives the residue of the power. -/
theorem powMod_residue {n : Nat} (hn : 0 < n) (b : Int) (k : Nat) :
    (powMod n (1 % n) (b % n).toNat k : Int) = b ^ k % n := by
  have residue : 0 ≤ b % n := Int.emod_nonneg b (by omega)
  rw [powMod_eq (Nat.mod_mod 1 n)]
  push_cast
  rw [Int.toNat_of_nonneg residue]
  calc 1 % (n : Int) * (b % n) ^ k ≡ 1 * b ^ k [ZMOD n] :=
        (Int.mod_modEq 1 n).mul ((Int.mod_modEq b n).pow k)
    _ = b ^ k := one_mul _

/-! ## 4. Powers of any sign -/

/-- A power to a modulus other than zero is that of the number or of its inverse. -/
theorem modPower_eq (hm : m ≠ 0) (b e : Int) :
    modPower b e m = if e < 0 then (modInverse b m).map fun x => x ^ e.natAbs % |m|
      else .ok (b ^ e.natAbs % |m|) := by
  have positive : 0 < m.natAbs := Int.natAbs_pos.mpr hm
  rw [modPower, if_neg hm]
  dsimp only
  split
  · have modulus : modInverse b m.natAbs = modInverse b m := by
      simp only [modInverse, Int.natAbs_natCast, Int.natCast_eq_zero, Int.natAbs_eq_zero]
    rw [modulus]
    cases run : modInverse b m with
    | error fault => rfl
    | ok x =>
      obtain ⟨_, residue, _⟩ := (modInverse_spec b m).2.1 x |>.mp run
      have reduced : x % (m.natAbs : Int) = x := by
        rw [← Int.abs_eq_natAbs]
        exact Int.emod_eq_of_lt residue.1 residue.2
      have power := powMod_residue positive x e.natAbs
      rw [reduced, ← Int.abs_eq_natAbs] at power
      exact congrArg Except.ok power
  · rw [powMod_residue positive, Int.abs_eq_natAbs]

/-- What the power is: congruent to that of the number, or inverse to it. -/
def IsPower (m b e r : Int) : Prop :=
  if e < 0 then r * b ^ e.natAbs ≡ 1 [ZMOD |m|] else r ≡ b ^ e.natAbs [ZMOD |m|]

/-- A power of an inverse is the inverse of the power. -/
theorem inverse_pow (h : b * x ≡ 1 [ZMOD n]) (k : Nat) : b ^ k * x ^ k ≡ 1 [ZMOD n] :=
  calc b ^ k * x ^ k = (b * x) ^ k := (mul_pow b x k).symm
    _ ≡ 1 ^ k [ZMOD n] := h.pow k
    _ = 1 := one_pow k

/-- Only numbers with an inverse have powers with one, except for the zeroth power. -/
theorem coprime_of_inverse_pow {k : Nat} (hk : k ≠ 0) (h : r * b ^ k ≡ 1 [ZMOD |m|]) :
    Int.gcd b m = 1 := by
  refine gcd_eq_one_iff.mpr ⟨b ^ (k - 1) * r, ?_⟩
  have power : b * (b ^ (k - 1) * r) = r * b ^ k := by
    rw [← mul_assoc, mul_pow_sub_one hk, mul_comm]
  rwa [power]

/-- The powers of inverses are the residues that are inverse to powers. -/
theorem modInverse_pow_iff (hm : m ≠ 0) {k : Nat} (hk : k ≠ 0) :
    (∃ x, modInverse b m = .ok x ∧ x ^ k % |m| = r) ↔
      IsResidue m r ∧ r * b ^ k ≡ 1 [ZMOD |m|] := by
  obtain ⟨_, inverse, exists_inverse, _⟩ := modInverse_spec b m
  constructor
  · rintro ⟨x, run, rfl⟩
    have power := inverse_pow ((inverse x).mp run).2.2 k
    rw [mul_comm] at power
    exact ⟨isResidue_emod hm _, ((Int.mod_modEq _ _).mul_right _).trans power⟩
  · rintro ⟨residue, power⟩
    obtain ⟨x, run⟩ := exists_inverse.mpr ⟨hm, coprime_of_inverse_pow hk power⟩
    rw [mul_comm] at power
    have same := inverse_unique (inverse_pow ((inverse x).mp run).2.2 k) power
    exact ⟨x, run, (residue.eq_emod same).symm⟩

instance : Decidable (IsPower m b e r) :=
  inferInstanceAs (Decidable
    (if e < 0 then r * b ^ e.natAbs ≡ 1 [ZMOD |m|] else r ≡ b ^ e.natAbs [ZMOD |m|]))

theorem modPower_eq_ok_iff : modPower b e m = .ok r ↔ m ≠ 0 ∧ IsResidue m r ∧ IsPower m b e r := by
  by_cases hm : m = 0
  · subst hm
    exact iff_of_false nofun fun h => h.1 rfl
  rw [modPower_eq hm, and_iff_right hm]
  unfold IsPower
  split
  · rw [← modInverse_pow_iff hm (Int.natAbs_ne_zero.mpr (by omega)), map_eq_ok]
  · rw [Except.ok.injEq]
    constructor
    · rintro rfl
      exact ⟨isResidue_emod hm _, Int.mod_modEq _ _⟩
    · rintro ⟨residue, power⟩
      exact (residue.eq_emod power).symm

/-- A power of a unit among the residues, whatever the sign of the exponent is. -/
theorem IsPower.eq_zpow (h : IsPower m b e r) {u : (ZMod m.natAbs)ˣ}
    (hu : (u : ZMod m.natAbs) = b) :
    (r : ZMod m.natAbs) = ↑(u ^ e) := by
  unfold IsPower at h
  rw [Int.abs_eq_natAbs, ← ZMod.intCast_eq_intCast_iff, ← ZMod.intCast_eq_intCast_iff] at h
  push_cast at h
  split at h
  · have inverse : e = -(e.natAbs : Int) := by omega
    rw [← hu] at h
    rw [inverse, zpow_neg, zpow_natCast]
    exact Units.eq_inv_of_mul_eq_one_right (by exact_mod_cast h)
  · have power : e = e.natAbs := by omega
    rw [h, power, zpow_natCast, ← hu]
    rfl

/-- Powers of one number multiply as their exponents add, whatever the signs of these are. -/
theorem IsPower.add {f s t : Int} (hr : IsPower m b e r) (hs : IsPower m b f s)
    (ht : IsPower m b (e + f) t) (coprime : e < 0 ∨ f < 0 → Int.gcd b m = 1) :
    t ≡ r * s [ZMOD |m|] := by
  by_cases negative : e < 0 ∨ f < 0
  · have unit : IsUnit (b : ZMod m.natAbs) := by
      rw [ZMod.coe_int_isUnit_iff_isCoprime, Int.isCoprime_iff_gcd_eq_one, Int.gcd_comm]
      exact coprime negative
    obtain ⟨u, hu⟩ := unit
    rw [Int.abs_eq_natAbs, ← ZMod.intCast_eq_intCast_iff, Int.cast_mul, hr.eq_zpow hu,
      hs.eq_zpow hu, ht.eq_zpow hu, zpow_add, Units.val_mul]
  · obtain ⟨he, hf⟩ := not_or.mp negative
    have exponents : (e + f).natAbs = e.natAbs + f.natAbs := by omega
    unfold IsPower at hr hs ht
    rw [if_neg he] at hr
    rw [if_neg hf] at hs
    rw [if_neg (by omega), exponents, pow_add] at ht
    exact ht.trans (hr.mul hs).symm

/-- A power has no value only for a negative exponent of a number without an inverse. -/
theorem modPower_cases (hm : m ≠ 0) (b e : Int) :
    (e < 0 ∧ Int.gcd b m ≠ 1 ∧
      modPower b e m = .error (.domain (.noInverse b |m| (Int.gcd b m)))) ∨
    ((e < 0 → Int.gcd b m = 1) ∧ ∃ r, modPower b e m = .ok r) := by
  obtain ⟨_, _, exists_inverse, none⟩ := modInverse_spec b m
  rw [modPower_eq hm]
  split
  · rename_i negative
    by_cases coprime : Int.gcd b m = 1
    · obtain ⟨x, run⟩ := exists_inverse.mpr ⟨hm, coprime⟩
      exact .inr ⟨fun _ => coprime, _, by rw [run]; rfl⟩
    · exact .inl ⟨negative, coprime, by rw [none.mpr ⟨hm, coprime⟩]; rfl⟩
  · rename_i nonneg
    exact .inr ⟨fun negative => absurd negative nonneg, _, rfl⟩

/-- A power to a modulus is the residue that is congruent to the power of the number. For a negative
exponent it is the residue that is inverse to the positive power, and there is one exactly if the
number is coprime to the modulus. The power to a sum is the product of the powers. -/
theorem modPower_spec (b m : Int) :
    (∀ e, modPower b e m = .error .divisionByZero ↔ m = 0) ∧
    (∀ e r, modPower b e m = .ok r ↔ m ≠ 0 ∧ IsResidue m r ∧ IsPower m b e r) ∧
    (∀ e, (∃ r, modPower b e m = .ok r) ↔ m ≠ 0 ∧ (e < 0 → Int.gcd b m = 1)) ∧
    (∀ e, modPower b e m = .error (.domain (.noInverse b |m| (Int.gcd b m))) ↔
      m ≠ 0 ∧ e < 0 ∧ Int.gcd b m ≠ 1) ∧
    ∀ e f r s t, modPower b e m = .ok r → modPower b f m = .ok s → modPower b (e + f) m = .ok t →
      t ≡ r * s [ZMOD |m|] := by
  by_cases hm : m = 0
  · subst hm
    have run (e : Int) : modPower b e 0 = .error .divisionByZero := rfl
    simp [run]
  have outcome := modPower_cases hm b
  have defined (e : Int) : (∃ r, modPower b e m = .ok r) ↔ (e < 0 → Int.gcd b m = 1) := by
    rcases outcome e with ⟨negative, coprime, run⟩ | ⟨coprime, r, run⟩
    · simp [run, negative, coprime]
    · exact iff_of_true ⟨r, run⟩ coprime
  refine ⟨fun e => ?_, fun e r => modPower_eq_ok_iff, fun e => ?_, fun e => ?_, ?_⟩
  · rcases outcome e with ⟨_, _, run⟩ | ⟨_, r, run⟩ <;> simp [run, hm]
  · rw [defined, and_iff_right hm]
  · rcases outcome e with ⟨negative, coprime, run⟩ | ⟨coprime, r, run⟩
    · simp [run, hm, negative, coprime]
    · simpa [run, hm] using coprime
  · intro e f r s t hr hs ht
    have coprime : e < 0 ∨ f < 0 → Int.gcd b m = 1 :=
      Or.rec ((defined e).mp ⟨r, hr⟩) ((defined f).mp ⟨s, hs⟩)
    exact (modPower_eq_ok_iff.mp hr).2.2.add (modPower_eq_ok_iff.mp hs).2.2
      (modPower_eq_ok_iff.mp ht).2.2 coprime

/-- Exponents of both signs, to a negative modulus. -/
theorem modPower_spec_eleven :
    modPower 3 (-2) (-11) = .ok 5 ∧ modPower 3 5 (-11) = .ok 1 ∧ modPower 3 3 (-11) = .ok 5 ∧
      5 ≡ 5 * 1 [ZMOD |-11|] := by
  obtain ⟨_, power, _, _, product⟩ := modPower_spec 3 (-11)
  have minus := (power (-2) 5).mpr (by decide +kernel)
  have plus := (power 5 1).mpr (by decide +kernel)
  have sum := (power 3 5).mpr (by decide +kernel)
  exact ⟨minus, plus, sum, product (-2) 5 5 1 5 minus plus sum⟩

end StackCalc.NumberTheory
