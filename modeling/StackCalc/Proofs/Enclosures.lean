import StackCalc.ExtDyadic.Text
import StackCalc.Proofs.Nearest

/-! # Enclosed powers of ten

Large powers of ten are enclosed between two naturals times a power of two. Each step that drops
low bits widens the enclosure by a few units of the last bit that is kept, and the steps for a power
of ten are few, so that the lower end alone is near the power. -/

namespace StackCalc

/-! ## 1. Ends -/

namespace Span

/-- A span encloses a number, and its ends differ by no more than `c` units of the last of `p`
bits. -/
structure Encloses (a : Span) (t : Rat) (p c : Nat) : Prop where
  lower : a.lo * 2 ^ a.exp ≤ t
  upper : t ≤ a.hi * 2 ^ a.exp
  tight : (a.hi : Rat) * (1 - c / 2 ^ p) ≤ a.lo

namespace Encloses

variable {a b : Span} {s t : Rat} {p c c' : Nat}

theorem mono (h : a.Encloses t p c) (hc : c ≤ c') : a.Encloses t p c' where
  lower := h.lower
  upper := h.upper
  tight := by
    refine le_trans ?_ h.tight
    have : (c : Rat) ≤ c' := by exact_mod_cast hc
    gcongr

theorem hi_pos (h : a.Encloses t p c) (ht : 0 < t) : 0 < a.hi := by
  have power : (0 : Rat) < 2 ^ a.exp := by positivity
  have : (0 : Rat) < a.hi := pos_of_mul_pos_left (lt_of_lt_of_le ht h.upper) power.le
  exact_mod_cast this

/-- The share of the upper end by which a lower end may be below it. -/
theorem share_pos (hc : c < 2 ^ p) : (0 : Rat) < 1 - c / 2 ^ p := by
  have : (c : Rat) < 2 ^ p := by exact_mod_cast hc
  rw [sub_pos, div_lt_one (by positivity)]
  exact this

theorem share_product (p c c' : Nat) :
    (1 : Rat) - (c + c' : Nat) / 2 ^ p ≤ (1 - c / 2 ^ p) * (1 - c' / 2 ^ p) := by
  have : (0 : Rat) ≤ c / 2 ^ p * (c' / 2 ^ p) := by positivity
  push_cast
  rw [add_div]
  linarith

theorem lo_pos (h : a.Encloses t p c) (ht : 0 < t) (hc : c < 2 ^ p) : 0 < a.lo := by
  have hi : (0 : Rat) < a.hi := by exact_mod_cast h.hi_pos ht
  have : (0 : Rat) < a.lo := lt_of_lt_of_le (mul_pos hi (share_pos hc)) h.tight
  exact_mod_cast this

/-- The ends of an enclosure reach no further than twice as far as the number. -/
theorem inReach {r : Nat} (h : a.Encloses t p c) (within : InReach r t) (hc : 2 * c ≤ 2 ^ p) :
    InReach (r + 1) (a.lo * 2 ^ a.exp) ∧ InReach (r + 1) (a.hi * 2 ^ a.exp) := by
  have power : (0 : Rat) < 2 ^ a.exp := by positivity
  have share : (c : Rat) / 2 ^ p ≤ 1 / 2 := by
    have : (2 * c : Rat) ≤ 2 ^ p := by exact_mod_cast hc
    rw [div_le_div_iff₀ (by positivity) two_pos]
    linarith
  have half : (a.hi : Rat) * (1 / 2) ≤ a.lo :=
    le_trans (mul_le_mul_of_nonneg_left (by linarith) (Nat.cast_nonneg _)) h.tight
  have ends : a.hi * 2 ^ a.exp ≤ 2 * (a.lo * 2 ^ a.exp : Rat) := by nlinarith
  have lower := h.lower
  have upper := h.upper
  obtain ⟨small, large⟩ := within
  have next : (2 : Rat) ^ ((r + 1 : Nat) : Int) = 2 ^ (r : Int) * 2 := by
    rw [Nat.cast_succ, zpow_add_one₀ two_ne_zero]
  have last : (2 : Rat) ^ (-(r + 1 : Nat) : Int) = 2 ^ (-r : Int) / 2 := by
    rw [Nat.cast_succ, neg_add, ← sub_eq_add_neg, zpow_sub_one₀ two_ne_zero, div_eq_mul_inv]
  have positive : (0 : Rat) < 2 ^ (-r : Int) := by positivity
  refine ⟨⟨?_, ?_⟩, ?_, ?_⟩
  · rw [last]
    linarith
  · rw [next]
    linarith
  · rw [last]
    linarith
  · rw [next]
    linarith

theorem ofNat (n : Nat) (p : Nat) : (Span.ofNat n).Encloses n p 0 := by
  constructor <;> simp [Span.ofNat]

theorem mul (h : a.Encloses t p c) (h' : b.Encloses s p c') (ht : 0 < t) (hs : 0 < s)
    (hc : c + c' < 2 ^ p) : (a.mul b).Encloses (t * s) p (c + c') where
  lower := by
    show ((a.lo * b.lo : Nat) : Rat) * 2 ^ (a.exp + b.exp) ≤ t * s
    rw [zpow_add₀ two_ne_zero]
    push_cast
    calc (a.lo * b.lo : Rat) * (2 ^ a.exp * 2 ^ b.exp)
        = (a.lo * 2 ^ a.exp) * (b.lo * 2 ^ b.exp) := by ring
      _ ≤ t * s := mul_le_mul h.lower h'.lower (by positivity) ht.le
  upper := by
    show t * s ≤ ((a.hi * b.hi : Nat) : Rat) * 2 ^ (a.exp + b.exp)
    rw [zpow_add₀ two_ne_zero]
    push_cast
    calc t * s ≤ (a.hi * 2 ^ a.exp) * (b.hi * 2 ^ b.exp) :=
          mul_le_mul h.upper h'.upper hs.le (by positivity)
      _ = (a.hi * b.hi : Rat) * (2 ^ a.exp * 2 ^ b.exp) := by ring
  tight := by
    show ((a.hi * b.hi : Nat) : Rat) * (1 - (c + c' : Nat) / 2 ^ p) ≤ ((a.lo * b.lo : Nat) : Rat)
    have share := share_pos (p := p) (c := c) (by omega)
    have share' := share_pos (p := p) (c := c') (by omega)
    have product := share_product p c c'
    push_cast at product ⊢
    calc (a.hi * b.hi : Rat) * (1 - (c + c') / 2 ^ p)
        ≤ a.hi * b.hi * ((1 - c / 2 ^ p) * (1 - c' / 2 ^ p)) := by gcongr
      _ = (a.hi * (1 - c / 2 ^ p)) * (b.hi * (1 - c' / 2 ^ p)) := by ring
      _ ≤ a.lo * b.lo := mul_le_mul h.tight h'.tight (by positivity) (by positivity)

theorem natDiv_bounds (n : Nat) {d : Nat} (hd : 0 < d) :
    (n : Rat) / d - 1 < (n / d : Nat) ∧ ((n / d : Nat) : Rat) ≤ n / d := by
  have hd' : (0 : Rat) < d := by exact_mod_cast hd
  have above : (n : Rat) < d * ((n / d : Nat) + 1) := by exact_mod_cast Nat.lt_mul_div_succ n hd
  have below : ((n / d : Nat) : Rat) * d ≤ n := by exact_mod_cast Nat.div_mul_le_self n d
  constructor
  · rw [sub_lt_iff_lt_add, div_lt_iff₀ hd', mul_comm]
    exact above
  · rwa [le_div_iff₀ hd']

/-- Dropping low bits of a natural divides it by a power of two, up to one. -/
theorem shiftRight_bounds (n s : Nat) :
    (n : Rat) / 2 ^ s - 1 < (n >>> s : Nat) ∧ ((n >>> s : Nat) : Rat) ≤ n / 2 ^ s := by
  have bounds := natDiv_bounds n (Nat.two_pow_pos s)
  rw [Nat.shiftRight_eq_div_pow]
  exact_mod_cast bounds

/-- Rounding both ends to naturals outwards widens an enclosure by so many units, where the upper
end has that many bits. -/
theorem outwards {lo hi k : Nat} {e : Int} {x y : Rat} (hc : c + k < 2 ^ p)
    (lower : x * 2 ^ e ≤ t) (upper : t ≤ y * 2 ^ e) (tight : y * (1 - c / 2 ^ p) ≤ x)
    (large : 2 * 2 ^ p ≤ k * y) (below : x - 1 < lo ∧ lo ≤ x) (above : y < hi ∧ hi ≤ y + 1) :
    Encloses ⟨lo, hi, e⟩ t p (c + k) where
  lower := (mul_le_mul_of_nonneg_right below.2 (by positivity)).trans lower
  upper := upper.trans (mul_le_mul_of_nonneg_right above.1.le (by positivity))
  tight := by
    have share := share_pos hc
    have units : 2 ≤ k * y / 2 ^ p := by rwa [le_div_iff₀ (by positivity)]
    have last : (1 : Rat) - (c + k : Nat) / 2 ^ p ≤ 1 := by
      have : (0 : Rat) ≤ (c + k : Nat) / 2 ^ p := by positivity
      linarith
    calc hi * (1 - (c + k : Nat) / 2 ^ p) ≤ (y + 1) * (1 - (c + k : Nat) / 2 ^ p) :=
          mul_le_mul_of_nonneg_right above.2 share.le
      _ = y * (1 - c / 2 ^ p) - k * y / 2 ^ p + (1 - (c + k : Nat) / 2 ^ p) := by
        push_cast
        ring
      _ ≤ lo := by linarith [below.1]

theorem trim (h : a.Encloses t p c) (ht : 0 < t) (hc : c + 2 < 2 ^ p) :
    (a.trim p).Encloses t p (c + 2) := by
  unfold Span.trim
  dsimp only
  let s := a.hi.log2 - p
  rcases Nat.eq_zero_or_pos s with hs | hs
  · have kept : a.hi.log2 - p = 0 := hs
    rw [kept]
    simpa using h.mono (Nat.le_add_right c 2)
  · have dropped : a.hi.log2 - p ≠ 0 := hs.ne'
    rw [if_neg dropped]
    have power : (0 : Rat) < 2 ^ s := by positivity
    have scale (n : Nat) : (n : Rat) / 2 ^ s * 2 ^ (a.exp + (s : Int)) = n * 2 ^ a.exp := by
      rw [add_comm, zpow_add₀ two_ne_zero, zpow_natCast]
      field_simp
    have bits : a.hi.log2 = p + s := by omega
    have large : (2 : Rat) ^ p ≤ a.hi / 2 ^ s := by
      rw [le_div_iff₀ power, ← pow_add, ← bits]
      exact_mod_cast Nat.log2_self_le (h.hi_pos ht).ne'
    obtain ⟨hi₁, hi₂⟩ := shiftRight_bounds a.hi s
    refine outwards hc ((scale a.lo).trans_le h.lower) (h.upper.trans_eq (scale a.hi).symm) ?_ ?_
      (shiftRight_bounds a.lo s) ⟨?_, ?_⟩
    · rw [div_mul_eq_mul_div]
      exact div_le_div_of_nonneg_right h.tight power.le
    · push_cast
      linarith
    · push_cast
      linarith
    · push_cast
      linarith

/-- The quotients of opposite ends differ by the units of both numbers. -/
theorem quotient_tight (h : a.Encloses t p c) (h' : b.Encloses s p c') (ht : 0 < t) (hs : 0 < s)
    (hc : c + c' < 2 ^ p) (u : Rat) (hu : 0 < u) :
    a.hi * u / b.lo * (1 - (c + c' : Nat) / 2 ^ p) ≤ a.lo * u / b.hi := by
  have ahi : (0 : Rat) < a.hi := by exact_mod_cast h.hi_pos ht
  have blo : (0 : Rat) < b.lo := by exact_mod_cast h'.lo_pos hs (by omega)
  have bhi : (0 : Rat) < b.hi := by exact_mod_cast h'.hi_pos hs
  have product := share_product p c c'
  have share' := share_pos (p := p) (c := c') (by omega)
  have divisor : (1 - c' / 2 ^ p) / (b.lo : Rat) ≤ 1 / b.hi := by
    rw [div_le_div_iff₀ blo bhi]
    linarith [h'.tight]
  calc (a.hi : Rat) * u / b.lo * (1 - (c + c' : Nat) / 2 ^ p)
      ≤ a.hi * u / b.lo * ((1 - c / 2 ^ p) * (1 - c' / 2 ^ p)) := by gcongr
    _ = (a.hi : Rat) * (1 - c / 2 ^ p) * u * ((1 - c' / 2 ^ p) / b.lo) := by ring
    _ ≤ (a.lo : Rat) * u * (1 / b.hi) := by
      have := h.tight
      gcongr
    _ = a.lo * u / b.hi := by ring

/-- With the bits of the divisor more, the quotient of a natural has all the bits that are kept. -/
theorem quotient_large {n : Nat} (h : b.Encloses s p c) (hn : 0 < n) (blo : 0 < b.lo) :
    2 * 2 ^ p ≤ (4 : Nat) * ((n : Rat) * 2 ^ (p + b.hi.log2) / b.lo) := by
  have blo' : (0 : Rat) < b.lo := by exact_mod_cast blo
  have one_le : (1 : Rat) ≤ n := by exact_mod_cast hn
  have ends : (b.lo : Rat) ≤ b.hi := by
    have order : (b.lo : Rat) * 2 ^ b.exp ≤ b.hi * 2 ^ b.exp := h.lower.trans h.upper
    exact le_of_mul_le_mul_right order (by positivity)
  have bits : (b.hi : Rat) ≤ 2 ^ (b.hi.log2 + 1) := by
    exact_mod_cast (Nat.lt_log2_self (n := b.hi)).le
  rw [← mul_div_assoc, le_div_iff₀ blo']
  calc (2 : Rat) * 2 ^ p * b.lo ≤ 2 * 2 ^ p * 2 ^ (b.hi.log2 + 1) := by
        have := ends.trans bits
        gcongr
    _ = (4 : Nat) * (1 * 2 ^ (p + b.hi.log2)) := by
        rw [pow_add, pow_add]
        push_cast
        ring
    _ ≤ (4 : Nat) * (n * 2 ^ (p + b.hi.log2)) := by gcongr

/-- A quotient of enclosed numbers, with enough bits for the divisor. -/
theorem div (h : a.Encloses t p c) (h' : b.Encloses s p c') (ht : 0 < t) (hs : 0 < s)
    (hc : c + c' + 4 < 2 ^ p) :
    (a.div (p + b.hi.log2) b).Encloses (t / s) p (c + c' + 4) := by
  let q := p + b.hi.log2
  have blo : 0 < b.lo := h'.lo_pos hs (by omega)
  have bhi : 0 < b.hi := h'.hi_pos hs
  have power : (0 : Rat) < 2 ^ q := by positivity
  have scale (m n : Nat) : (m : Rat) * 2 ^ q / n * 2 ^ (a.exp - b.exp - (q : Int)) =
      m * 2 ^ a.exp / (n * 2 ^ b.exp) := by
    rw [zpow_sub₀ two_ne_zero, zpow_sub₀ two_ne_zero, zpow_natCast]
    field_simp
  have shifted (n : Nat) : ((n <<< q : Nat) : Rat) = n * 2 ^ q := by
    rw [Nat.shiftLeft_eq]
    push_cast
    rfl
  have below := natDiv_bounds (a.lo <<< q) bhi
  obtain ⟨hi₁, hi₂⟩ := natDiv_bounds (a.hi <<< q) blo
  rw [shifted] at below hi₁ hi₂
  have bloPos : (0 : Rat) < b.lo * 2 ^ b.exp := by
    have : (0 : Rat) < b.lo := by exact_mod_cast blo
    positivity
  have lower : a.lo * 2 ^ a.exp / (b.hi * 2 ^ b.exp) ≤ t / s :=
    div_le_div₀ ht.le h.lower hs h'.upper
  have upper : t / s ≤ a.hi * 2 ^ a.exp / (b.lo * 2 ^ b.exp) :=
    div_le_div₀ (by positivity) h.upper bloPos h'.lower
  refine outwards hc ((scale a.lo b.hi).trans_le lower) (upper.trans_eq (scale a.hi b.lo).symm)
    (quotient_tight h h' ht hs (by omega) _ power) (quotient_large h' (h.hi_pos ht) blo) below
    ⟨?_, ?_⟩
  · push_cast
    linarith
  · push_cast
    linarith

/-- A power of two moves an enclosure. -/
theorem shift (h : a.Encloses t p c) (k : Int) :
    Span.Encloses ⟨a.lo, a.hi, a.exp + k⟩ (t * 2 ^ k) p c where
  lower := by
    rw [zpow_add₀ two_ne_zero, ← mul_assoc]
    exact mul_le_mul_of_nonneg_right h.lower (by positivity)
  upper := by
    rw [zpow_add₀ two_ne_zero, ← mul_assoc]
    exact mul_le_mul_of_nonneg_right h.upper (by positivity)
  tight := h.tight

end Encloses

/-! ## 2. Powers -/

/-- The units by which the ends of a power differ, which double when the power is squared. -/
theorem pow_encloses {p n : Nat} (hn : 0 < n) (k : Nat) (hk : 8 * k < 2 ^ p) :
    (pow p n k).Encloses (n ^ k : Nat) p (8 * k - 4) := by
  induction k using Nat.strongRecOn with
  | ind k ih =>
    have positive (j : Nat) : (0 : Rat) < (n ^ j : Nat) := by exact_mod_cast Nat.pow_pos hn
    unfold pow
    split
    · rename_i hk₀
      rw [hk₀, Nat.pow_zero]
      exact .ofNat 1 p
    · have half := ih (k / 2) (by omega) (by omega)
      have square := (half.mul half (positive _) (positive _) (by omega)).trim
        (mul_pos (positive _) (positive _)) (by omega)
      rw [← Nat.cast_mul, ← Nat.pow_add] at square
      dsimp only
      split
      · have odd := (square.mul (.ofNat n p) (positive _) (by exact_mod_cast hn) (by omega)).trim
          (mul_pos (positive _) (by exact_mod_cast hn)) (by omega)
        rw [← Nat.cast_mul, ← Nat.pow_succ, show (k / 2 + k / 2).succ = k by omega] at odd
        exact odd.mono (by omega)
      · rw [show k / 2 + k / 2 = k by omega] at square
        exact square.mono (by omega)

/-- A power of ten times a number that is known exactly. -/
theorem scaleTen_encloses {p m : Nat} {e k : Int} (hm : 0 < m) (hk : 8 * k.natAbs + 4 < 2 ^ p) :
    (scaleTen p ⟨m, m, e⟩ k).Encloses (m * 2 ^ e * 10 ^ k) p (8 * k.natAbs + 4) := by
  have exact₀ : Encloses ⟨m, m, e⟩ (m * 2 ^ e) p 0 := by constructor <;> simp
  have five := pow_encloses (p := p) (n := 5) (by norm_num) k.natAbs (by omega)
  have number : (0 : Rat) < m * 2 ^ e := by
    have : (0 : Rat) < m := by exact_mod_cast hm
    positivity
  have power : (0 : Rat) < (5 ^ k.natAbs : Nat) := by positivity
  have five_pow : ((5 ^ k.natAbs : Nat) : Rat) = 5 ^ (k.natAbs : Int) := by
    rw [Nat.cast_pow, zpow_natCast, Nat.cast_ofNat]
  have ten : (10 : Rat) ^ k = 5 ^ k * 2 ^ k := by
    rw [← mul_zpow]
    norm_num
  unfold scaleTen
  dsimp only
  rw [ten, ← mul_assoc]
  refine Encloses.shift ?_ k
  split
  · rename_i hk₀
    have product := exact₀.mul five number power (by omega)
    rw [five_pow, Int.natAbs_of_nonneg hk₀] at product
    exact product.mono (by omega)
  · rename_i hk₀
    have quotient := exact₀.div five number power (by omega)
    rw [five_pow, Int.ofNat_natAbs_of_nonpos (by omega), zpow_neg, div_inv_eq_mul] at quotient
    exact quotient.mono (by omega)

end Span

end StackCalc
