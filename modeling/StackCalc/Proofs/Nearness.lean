import Mathlib.Algebra.Order.Field.Power
import Mathlib.Algebra.Order.Field.Rat
import Mathlib.Tactic.FieldSimp
import Mathlib.Tactic.GCongr
import Mathlib.Tactic.Linarith
import Mathlib.Tactic.NormNum
import Mathlib.Tactic.Positivity
import Mathlib.Tactic.Ring
import StackCalc.Rounding

/-! # Numbers near others

Rounding takes a number to one that differs from it by no more than a share of it. Such shares add
up when one rounding follows another. The shares that are left behind by rounding a quotient of
naturals come from its leading place, in base two or in base ten. -/

namespace StackCalc

/-- A number differs from another one by no more than a share of it. -/
def Near (ε x y : Rat) : Prop := |x - y| ≤ ε * |y|

namespace Near

variable {ε δ x y z x' y' : Rat}

theorem mono (h : Near ε x y) (hε : ε ≤ δ) : Near δ x y :=
  h.trans (mul_le_mul_of_nonneg_right hε (abs_nonneg y))

theorem trans (h : Near ε x y) (h' : Near δ y z) (hε : 0 ≤ ε) :
    Near (ε + δ + ε * δ) x z := by
  unfold Near at *
  have bound : |y| ≤ (1 + δ) * |z| := by
    have := abs_sub_abs_le_abs_sub y z
    linarith
  calc |x - z| ≤ |x - y| + |y - z| := abs_sub_le x y z
    _ ≤ ε * |y| + δ * |z| := add_le_add h h'
    _ ≤ ε * ((1 + δ) * |z|) + δ * |z| := by gcongr
    _ = (ε + δ + ε * δ) * |z| := by ring

theorem mul_right (h : Near ε x y) (c : Rat) : Near ε (x * c) (y * c) := by
  unfold Near at *
  rw [← sub_mul, abs_mul, abs_mul, ← mul_assoc]
  gcongr

theorem le (h : Near ε x y) (hy : 0 < y) : x ≤ (1 + ε) * y := by
  unfold Near at h
  rw [abs_of_pos hy] at h
  have := le_abs_self (x - y)
  linarith

theorem ge (h : Near ε x y) (hy : 0 < y) : (1 - ε) * y ≤ x := by
  unfold Near at h
  rw [abs_of_pos hy] at h
  have := neg_abs_le (x - y)
  linarith

theorem pos (h : Near ε x y) (hy : 0 < y) (hε : ε < 1) : 0 < x :=
  lt_of_lt_of_le (mul_pos (by linarith) hy) (h.ge hy)

theorem le_two_mul (h : Near ε x y) (hy : 0 < y) (hε : ε ≤ 1 / 2) : y ≤ 2 * x := by
  have := h.ge hy
  nlinarith

/-- The quotient of numbers near others is near the quotient of those. -/
theorem div (h : Near ε x y) (h' : Near ε x' y') (hy : 0 < y) (hy' : 0 < y') (hε : 0 ≤ ε)
    (small : ε ≤ 1 / 2) : Near (4 * ε) (x / x') (y / y') := by
  have hx' : 0 < x' := h'.pos hy' (by linarith)
  have cross : x / x' - y / y' = ((x - y) * y' - y * (x' - y')) / (x' * y') := by
    field_simp
    ring
  have half := h'.le_two_mul hy' small
  unfold Near at *
  rw [abs_of_pos hy] at h
  rw [abs_of_pos hy'] at h'
  rw [cross, abs_div, abs_of_pos (mul_pos hx' hy'), abs_of_pos (div_pos hy hy'),
    div_le_iff₀ (mul_pos hx' hy')]
  calc |(x - y) * y' - y * (x' - y')|
      ≤ |(x - y) * y'| + |y * (x' - y')| := abs_sub _ _
    _ = |x - y| * y' + y * |x' - y'| := by
        rw [abs_mul, abs_mul, abs_of_pos hy', abs_of_pos hy]
    _ ≤ ε * y * y' + y * (ε * y') := by gcongr
    _ = 2 * ε * y * y' := by ring
    _ ≤ 2 * ε * y * (2 * x') := by gcongr
    _ = 4 * ε * (y / y') * (x' * y') := by
        field_simp
        ring

end Near

/-! ## 1. Powers -/

theorem zpow_eq_div {b : Rat} (hb : b ≠ 0) (s : Int) :
    b ^ s = b ^ s.toNat / b ^ (-s).toNat := by
  rw [← zpow_natCast, ← zpow_natCast, ← zpow_sub₀ hb]
  congr 1
  omega

theorem shifted_div (n d : Nat) (s : Int) :
    ((n <<< s.toNat : Nat) : Rat) / ((d <<< (-s).toNat : Nat) : Rat) = n / d * 2 ^ s := by
  rw [zpow_eq_div two_ne_zero, Nat.shiftLeft_eq, Nat.shiftLeft_eq]
  push_cast
  exact mul_div_mul_comm (n : Rat) _ _ _

theorem scaled_div (n d : Nat) (s : Int) :
    ((n * Nat.pow 10 s.toNat : Nat) : Rat) / ((d * Nat.pow 10 (-s).toNat : Nat) : Rat) =
      n / d * 10 ^ s := by
  show ((n * 10 ^ s.toNat : Nat) : Rat) / ((d * 10 ^ (-s).toNat : Nat) : Rat) = _
  rw [zpow_eq_div (by norm_num : (10 : Rat) ≠ 0)]
  push_cast
  exact mul_div_mul_comm (n : Rat) _ _ _

namespace Rounding

variable {n d : Nat}

/-! ## 2. The nearest natural -/

theorem halfEven_bounds (n d : Nat) (hd : 0 < d) :
    2 * n ≤ 2 * (halfEven n d * d) + d ∧ 2 * (halfEven n d * d) ≤ 2 * n + d := by
  have split := Nat.div_add_mod n d
  have rest := Nat.mod_lt n hd
  have swap : n / d * d = d * (n / d) := Nat.mul_comm _ _
  have next : (n / d + 1) * d = n / d * d + d := Nat.succ_mul _ _
  unfold halfEven
  dsimp only
  split
  · omega
  · split
    · omega
    · rcases Nat.mod_two_eq_zero_or_one (n / d) with even | odd
      · rw [even, Nat.add_zero]
        omega
      · rw [odd]
        omega

/-- Rounding a quotient of naturals changes it by a half at most. -/
theorem halfEven_error (hd : 0 < d) : |(halfEven n d : Rat) - n / d| ≤ 1 / 2 := by
  obtain ⟨above, below⟩ := halfEven_bounds n d hd
  have hd' : (0 : Rat) < d := by exact_mod_cast hd
  have above : 2 * (n : Rat) ≤ 2 * (halfEven n d * d) + d := by exact_mod_cast above
  have below : 2 * (halfEven n d * d : Rat) ≤ 2 * n + d := by exact_mod_cast below
  have cancel : (n : Rat) / d * d = n := div_mul_cancel₀ _ hd'.ne'
  rw [abs_le]
  constructor <;> nlinarith

theorem halfEven_mul_self (hd : 0 < d) (k : Nat) : halfEven (k * d) d = k := by
  unfold halfEven
  dsimp only
  rw [Nat.mul_mod_left, if_pos (by omega), Nat.mul_div_cancel k hd]

/-- A common factor does not matter. -/
theorem halfEven_mul_right (n d : Nat) {k : Nat} (hk : 0 < k) :
    halfEven (n * k) (d * k) = halfEven n d := by
  have quotient : n * k / (d * k) = n / d := Nat.mul_div_mul_right n d hk
  have rest : n * k % (d * k) = n % d * k := Nat.mul_mod_mul_right k n d
  have below : 2 * (n % d * k) < d * k ↔ 2 * (n % d) < d := by
    rw [← Nat.mul_assoc]
    exact Nat.mul_lt_mul_right hk
  have above : d * k < 2 * (n % d * k) ↔ d < 2 * (n % d) := by
    rw [← Nat.mul_assoc]
    exact Nat.mul_lt_mul_right hk
  unfold halfEven
  dsimp only
  rw [quotient, rest]
  simp only [below, above]

/-- The larger of two quotients has the larger nearest natural. -/
theorem halfEven_mono {n' d' : Nat} (hd : 0 < d) (hd' : 0 < d') (h : (n : Rat) / d ≤ n' / d') :
    halfEven n d ≤ halfEven n' d' := by
  rcases h.lt_or_eq with less | same
  · obtain ⟨_, above⟩ := abs_le.mp (halfEven_error (n := n) hd)
    obtain ⟨below, _⟩ := abs_le.mp (halfEven_error (n := n') hd')
    have : (halfEven n d : Rat) < halfEven n' d' + 1 := by linarith
    have : halfEven n d < halfEven n' d' + 1 := by exact_mod_cast this
    omega
  · -- equal quotients may be ties, and then only their even neighbour decides
    have cross : n * d' = n' * d := by
      have hd₀ : (d : Rat) ≠ 0 := by exact_mod_cast hd.ne'
      have hd₀' : (d' : Rat) ≠ 0 := by exact_mod_cast hd'.ne'
      rw [div_eq_div_iff hd₀ hd₀'] at same
      exact_mod_cast same
    rw [← halfEven_mul_right n d hd', ← halfEven_mul_right n' d' hd, cross, Nat.mul_comm d d']

/-- A quotient that is far enough above zero is near the natural that it is rounded to. -/
theorem near_halfEven {q : Rat} (hd : 0 < d) (hq : 0 < q) (large : q ≤ n / d) :
    Near (1 / (2 * q)) (halfEven n d) (n / d) := by
  unfold Near
  rw [abs_of_pos (lt_of_lt_of_le hq large)]
  refine (halfEven_error hd).trans ?_
  rw [div_mul_eq_mul_div, one_mul, div_le_div_iff₀ two_pos (by positivity)]
  linarith

/-- The natural nearest to a quotient is the one that differs from it by less than a half. -/
theorem halfUp_eq {k : Nat} (hd : 0 < d) (near : |(n : Rat) / d - k| < 1 / 2) :
    halfUp n d = k := by
  have hd' : (0 : Rat) < d := by exact_mod_cast hd
  have cancel : (n : Rat) / d * d = n := div_mul_cancel₀ _ hd'.ne'
  obtain ⟨low, high⟩ := abs_lt.mp near
  have below : (2 * k * d : Rat) < 2 * n + d := by nlinarith
  have above : (2 * n + d : Rat) < 2 * (k + 1) * d := by nlinarith
  have below : 2 * k * d < 2 * n + d := by exact_mod_cast below
  have above : 2 * n + d < 2 * (k + 1) * d := by exact_mod_cast above
  exact Nat.div_eq_of_lt_le (by nlinarith) (by nlinarith)

/-! ## 3. The leading place -/

theorem two_pow_log2 (hn : 0 < n) :
    (2 : Rat) ^ (n.log2 : Int) ≤ n ∧ (n : Rat) < 2 ^ ((n.log2 : Int) + 1) := by
  constructor
  · rw [zpow_natCast]
    exact_mod_cast Nat.log2_self_le hn.ne'
  · have := Nat.lt_log2_self (n := n)
    exact_mod_cast this

theorem floorLog2_spec (hn : 0 < n) (hd : 0 < d) :
    (2 : Rat) ^ floorLog2 n d ≤ n / d ∧ (n : Rat) / d < 2 ^ (floorLog2 n d + 1) := by
  obtain ⟨hn₁, hn₂⟩ := two_pow_log2 hn
  obtain ⟨hd₁, hd₂⟩ := two_pow_log2 hd
  have hd' : (0 : Rat) < d := by exact_mod_cast hd
  let k : Int := (n.log2 : Int) - d.log2
  have upper : (n : Rat) / d < 2 ^ (k + 1) := by
    rw [div_lt_iff₀ hd']
    calc (n : Rat) < 2 ^ ((n.log2 : Int) + 1) := hn₂
      _ = 2 ^ (k + 1) * 2 ^ (d.log2 : Int) := by
        rw [← zpow_add₀ two_ne_zero]
        congr 1
        omega
      _ ≤ 2 ^ (k + 1) * d := by gcongr
  have lower : (2 : Rat) ^ (k - 1) ≤ n / d := by
    rw [le_div_iff₀ hd']
    calc (2 : Rat) ^ (k - 1) * d ≤ 2 ^ (k - 1) * 2 ^ ((d.log2 : Int) + 1) := by gcongr
      _ = 2 ^ (n.log2 : Int) := by
        rw [← zpow_add₀ two_ne_zero]
        congr 1
        omega
      _ ≤ n := hn₁
  -- the comparison of the shifted naturals is that of the quotient with the power of two
  have test : d <<< k.toNat ≤ n <<< (-k).toNat ↔ (2 : Rat) ^ k ≤ n / d := by
    rw [zpow_eq_div two_ne_zero, div_le_div_iff₀ (by positivity) hd', Nat.shiftLeft_eq,
      Nat.shiftLeft_eq, mul_comm ((2 : Rat) ^ k.toNat)]
    exact_mod_cast Iff.rfl
  have unfolded : floorLog2 n d = if d <<< k.toNat ≤ n <<< (-k).toNat then k else k - 1 := rfl
  rw [unfolded]
  split
  · exact ⟨test.mp ‹_›, upper⟩
  · rw [sub_add_cancel]
    exact ⟨lower, lt_of_not_ge fun h => ‹¬ _› (test.mpr h)⟩

theorem powTenLe_iff (hd : 0 < d) (k : Int) : powTenLe k n d = true ↔ (10 : Rat) ^ k ≤ n / d := by
  have hd' : (0 : Rat) < d := by exact_mod_cast hd
  unfold powTenLe
  rw [decide_eq_true_iff, zpow_eq_div (by norm_num), div_le_div_iff₀ (by positivity) hd',
    mul_comm ((10 : Rat) ^ k.toNat)]
  exact_mod_cast Iff.rfl

/-- A power of ten is below a power of two if its exponent is as far below as two powers of the two
bases tell. -/
theorem ten_zpow_le_of_pow {a b : Nat} {x l : Int} (hb : b ≠ 0)
    (bases : ((10 : Rat) ^ a) ^ l ≤ ((2 : Rat) ^ b) ^ l) (hx : b * x ≤ a * l) :
    (10 : Rat) ^ x ≤ 2 ^ l := by
  refine le_of_pow_le_pow_left₀ hb (by positivity) ?_
  calc ((10 : Rat) ^ x) ^ b = 10 ^ (b * x : Int) := by
        rw [← zpow_natCast, ← zpow_mul, mul_comm]
    _ ≤ 10 ^ (a * l : Int) := zpow_le_zpow_right₀ (by norm_num) hx
    _ = ((10 : Rat) ^ a) ^ l := by rw [zpow_mul, zpow_natCast]
    _ ≤ ((2 : Rat) ^ b) ^ l := bases
    _ = ((2 : Rat) ^ l) ^ b := by
        rw [← zpow_natCast, ← zpow_natCast, ← zpow_mul, ← zpow_mul, mul_comm]

/-- The factor by which leading places are converted is the common logarithm of two up to the
eighteenth digit, so that half a place is more than enough for the power of ten not to be too
large. -/
theorem ten_zpow_le {k l : Int}
    (hk : k * 1000000000000000000 + 500000000000000000 ≤ l * 301029995663981195)
    (small : l.natAbs ≤ 20000000000) : (10 : Rat) ^ k ≤ 2 ^ l := by
  rcases le_or_gt 0 l with nonneg | negative
  · have bases : (10 : Nat) ^ 97879 ≤ 2 ^ 325147 := by decide +kernel
    have bases : ((10 : Rat) ^ 97879) ≤ (2 : Rat) ^ 325147 := by exact_mod_cast bases
    refine ten_zpow_le_of_pow (a := 97879) (b := 325147) (by norm_num) ?_ (by omega)
    exact zpow_le_zpow_left₀ nonneg (by positivity) bases
  · have bases : (2 : Nat) ^ 254370 ≤ 10 ^ 76573 := by decide +kernel
    have bases : (2 : Rat) ^ 254370 ≤ (10 : Rat) ^ 76573 := by exact_mod_cast bases
    refine ten_zpow_le_of_pow (a := 76573) (b := 254370) (by norm_num) ?_ (by omega)
    obtain ⟨j, rfl⟩ : ∃ j : Nat, l = -j := ⟨l.natAbs, by omega⟩
    rw [zpow_neg, zpow_neg, zpow_natCast, zpow_natCast]
    exact inv_anti₀ (by positivity) (pow_le_pow_left₀ (by positivity) bases j)

/-- The leading place in base ten is not above the quotient. -/
theorem floorLog10_le (hn : 0 < n) (hd : 0 < d) (small : (floorLog2 n d).natAbs ≤ 10000000000) :
    (10 : Rat) ^ floorLog10 n d ≤ n / d := by
  unfold floorLog10
  dsimp only
  split
  · exact (powTenLe_iff hd _).mp ‹_›
  · split
    · exact (powTenLe_iff hd _).mp ‹_›
    · have converted := Int.ediv_mul_le (floorLog2 n d * 301029995663981195)
        (by norm_num : (1000000000000000000 : Int) ≠ 0)
      exact (ten_zpow_le (by omega) (by omega)).trans (floorLog2_spec hn hd).1

/-- The quotient is below the next power of ten. -/
theorem lt_floorLog10 (hn : 0 < n) (hd : 0 < d) (small : (floorLog2 n d).natAbs ≤ 10000000000) :
    (n : Rat) / d < 10 ^ (floorLog10 n d + 1) := by
  have above {k : Int} (h : ¬ powTenLe k n d = true) : (n : Rat) / d < 10 ^ k :=
    not_le.mp (mt (powTenLe_iff hd k).mpr h)
  unfold floorLog10
  dsimp only
  let l := floorLog2 n d
  let k := l * 301029995663981195 / 1000000000000000000
  split
  · -- the next power of two is below the power of ten after the next
    have converted : l * 301029995663981195 < (k + 1) * 1000000000000000000 :=
      Int.lt_ediv_add_one_mul_self _ (by norm_num)
    have inverse : (10 : Rat) ^ (-(k + 2)) ≤ 2 ^ (-(l + 1)) := ten_zpow_le (by omega) (by omega)
    rw [zpow_neg, zpow_neg, inv_le_inv₀ (by positivity) (by positivity)] at inverse
    rw [add_assoc]
    exact (floorLog2_spec hn hd).2.trans_le inverse
  · rename_i high
    split
    · exact above high
    · rename_i low
      rw [sub_add_cancel]
      exact above low

end Rounding
end StackCalc
