import Mathlib.Algebra.Ring.Nat
import StackCalc.Numeral

/-! # Decimal numerals

The numeral of a natural has its digits, leads with another digit than zero unless it is the one of
zero, and denotes the natural. Its length tells the powers of ten between which the natural is. -/

namespace StackCalc.Numeral

variable {c : Char} {cs ds : List Char} {n : Nat}

/-! ## 1. The number that a string of digits denotes -/

theorem value_eq (cs : List Char) : value cs = Nat.ofDigitChars 10 cs 0 := by
  unfold value Nat.ofDigitChars
  congr 1
  funext n c
  rw [Nat.mul_comm]
  rfl

theorem value_append (cs ds : List Char) :
    value (cs ++ ds) = value cs * 10 ^ ds.length + value ds := by
  rw [value_eq, value_eq, value_eq, Nat.ofDigitChars_append, Nat.ofDigitChars_eq_ofDigitChars_zero,
    Nat.mul_comm]

theorem value_cons (c : Char) (cs : List Char) :
    value (c :: cs) = (c.toNat - 48) * 10 ^ cs.length + value cs := by
  rw [← List.singleton_append, value_append]
  simp [value]

theorem value_zeros (n : Nat) : value (List.replicate n '0') = 0 := by
  rw [value_eq, Nat.ofDigitChars_replicate_zero, Nat.mul_zero]

theorem value_zeros_append (n : Nat) (cs : List Char) :
    value (List.replicate n '0' ++ cs) = value cs := by
  rw [value_append, value_zeros, Nat.zero_mul, Nat.zero_add]

theorem isDigit_iff : isDigit c = true ↔ 48 ≤ c.toNat ∧ c.toNat ≤ 57 := by
  unfold isDigit
  rw [Bool.and_eq_true, decide_eq_true_iff, decide_eq_true_iff]
  exact Iff.rfl

theorem value_lt (h : ∀ c ∈ cs, isDigit c = true) : value cs < 10 ^ cs.length := by
  induction cs with
  | nil => exact Nat.one_pos
  | cons c cs ih =>
    have tail := ih fun d hd => h d (List.mem_cons_of_mem c hd)
    obtain ⟨_, bound⟩ := isDigit_iff.mp (h c List.mem_cons_self)
    have head : (c.toNat - 48) * 10 ^ cs.length ≤ 9 * 10 ^ cs.length :=
      Nat.mul_le_mul_right _ (by omega)
    rw [value_cons, List.length_cons, Nat.pow_succ]
    omega

theorem le_value (hc : isDigit c = true) (lead : c ≠ '0') (cs : List Char) :
    10 ^ cs.length ≤ value (c :: cs) := by
  obtain ⟨bound, _⟩ := isDigit_iff.mp hc
  have positive : c.toNat ≠ 48 := by
    intro h
    exact lead (Char.toNat_inj.mp h)
  have head : 1 * 10 ^ cs.length ≤ (c.toNat - 48) * 10 ^ cs.length :=
    Nat.mul_le_mul_right _ (by omega)
  rw [value_cons]
  omega

theorem value_dropZeros (cs : List Char) : value (cs.dropWhile (· == '0')) = value cs := by
  induction cs with
  | nil => rfl
  | cons c cs ih =>
    rw [List.dropWhile_cons]
    split
    · rename_i zero
      rw [ih, value_cons, eq_of_beq zero]
      simp
    · rfl

/-! ## 2. The digits of a natural -/

/-- Powers of ten, each of them the square of the one after it and the last one ten, below the power
that goes before them. -/
inductive Ladder : List Nat → Nat → Prop
  | base : Ladder [] 10
  | square {ps : List Nat} {p : Nat} (h : Ladder ps p) : Ladder (p :: ps) (p * p)

theorem Ladder.two_le {ps : List Nat} {p : Nat} (h : Ladder ps p) : 2 ≤ p := by
  induction h with
  | base => omega
  | square _ ih => exact Nat.le_trans ih (Nat.le_mul_of_pos_left _ (by omega))

/-- The cuts go on until the next power is above the natural. -/
theorem cuts_ladder {fuel p : Nat} {acc : List Nat} (h : Ladder acc p) (hn : n < 2 ^ fuel * p) :
    ∃ top, Ladder (cuts n fuel p acc) top ∧ n < top := by
  induction fuel generalizing p acc with
  | zero => exact ⟨p, h, by simpa using hn⟩
  | succ fuel ih =>
    unfold cuts
    split
    · exact ⟨p, h, ‹_›⟩
    · refine ih h.square (Nat.lt_of_lt_of_le hn ?_)
      rw [Nat.pow_succ, Nat.mul_assoc]
      exact Nat.mul_le_mul_left _ (Nat.mul_le_mul_right _ h.two_le)

theorem digitChar_spec : ∀ d < 10, isDigit (digitChar d) = true ∧ (digitChar d).toNat - 48 = d := by
  decide

/-- Cutting a natural below the first power writes as many digits as that power has zeros. -/
theorem spread_spec {ps : List Nat} {top : Nat} (h : Ladder ps top) (hn : n < top)
    (acc : List Char) :
    ∃ ds, spread ps n acc = ds ++ acc ∧ top = 10 ^ ds.length ∧ (∀ c ∈ ds, isDigit c = true) ∧
      value ds = n := by
  induction h generalizing n acc with
  | base =>
    obtain ⟨digit, number⟩ := digitChar_spec n hn
    refine ⟨[digitChar n], rfl, rfl, by simpa using digit, ?_⟩
    rw [value_cons]
    simpa [value] using number
  | @square ps p h ih =>
    have positive : 0 < p := by
      have := h.two_le
      omega
    obtain ⟨low, hlow, power, lowDigits, lowValue⟩ := ih (Nat.mod_lt n positive) acc
    obtain ⟨high, hhigh, power', highDigits, highValue⟩ :=
      ih (Nat.div_lt_of_lt_mul hn) (low ++ acc)
    refine ⟨high ++ low, ?_, ?_, ?_, ?_⟩
    · rw [spread, hlow, hhigh, List.append_assoc]
    · rw [List.length_append, Nat.pow_add, ← power, ← power']
    · intro c hc
      exact (List.mem_append.mp hc).elim (highDigits c) (lowDigits c)
    · rw [value_append, highValue, lowValue, ← power, Nat.div_add_mod']

/-- The numeral of a natural, with its leading zeros. -/
theorem spread_cuts (n : Nat) :
    (∀ c ∈ spread (cuts n (n.log2 + 1) 10 []) n [], isDigit c = true) ∧
      value (spread (cuts n (n.log2 + 1) 10 []) n []) = n := by
  have fuel : n < 2 ^ (n.log2 + 1) * 10 :=
    Nat.lt_of_lt_of_le Nat.lt_log2_self (Nat.le_mul_of_pos_right _ (by omega))
  obtain ⟨top, ladder, hn⟩ := cuts_ladder .base fuel
  obtain ⟨ds, written, _, digits, number⟩ := spread_spec ladder hn []
  rw [written, List.append_nil]
  exact ⟨digits, number⟩

theorem digits_spec (n : Nat) :
    (∀ c ∈ digits 10 n, isDigit c = true) ∧ value (digits 10 n) = n ∧
      (0 < n → (digits 10 n).head? ≠ some '0') := by
  let ds := spread (cuts n (n.log2 + 1) 10 []) n []
  obtain ⟨isDigits, number⟩ : (∀ c ∈ ds, isDigit c = true) ∧ value ds = n := spread_cuts n
  have kept := value_dropZeros ds
  unfold digits
  cases h : ds.dropWhile (· == '0') with
  | nil =>
    rw [h] at kept
    have zero : n = 0 := by rw [← number, ← kept, value, List.foldl_nil]
    refine ⟨?_, by rw [zero]; rfl, by omega⟩
    intro c hc
    rw [List.mem_singleton.mp hc]
    rfl
  | cons c cs =>
    refine ⟨?_, by rw [← number, ← kept, h], ?_⟩
    · intro d hd
      have kept : d ∈ ds.dropWhile (· == '0') := by rwa [h]
      exact isDigits d ((List.dropWhile_sublist _).mem kept)
    · intro _ zero
      have lead := List.head?_dropWhile_not (· == '0') ds
      rw [h] at lead
      have : c = '0' := by simpa using zero
      simp [this] at lead

theorem isDigit_of_mem (n : Nat) : ∀ c ∈ digits 10 n, isDigit c = true := (digits_spec n).1

@[simp] theorem value_digits (n : Nat) : value (digits 10 n) = n := (digits_spec n).2.1

theorem isDigit_of_mem_padded {c : Char} {k : Nat}
    (h : c ∈ List.replicate k '0' ++ digits 10 n) : isDigit c = true := by
  rcases List.mem_append.mp h with h | h
  · rw [List.eq_of_mem_replicate h]
    rfl
  · exact isDigit_of_mem n c h

theorem digits_ne_nil (n : Nat) : digits 10 n ≠ [] := by
  unfold digits
  split
  · simp
  · assumption

/-- The powers of ten between which a natural is. -/
theorem digits_bounds (hn : 0 < n) :
    10 ^ ((digits 10 n).length - 1) ≤ n ∧ n < 10 ^ (digits 10 n).length := by
  obtain ⟨isDigits, number, lead⟩ := digits_spec n
  have upper := value_lt isDigits
  rw [number] at upper
  refine ⟨?_, upper⟩
  cases h : digits 10 n with
  | nil => exact absurd h (digits_ne_nil n)
  | cons c cs =>
    rw [h] at isDigits number lead
    have lower := le_value (isDigits c List.mem_cons_self) (by simpa using lead hn) cs
    rwa [number] at lower

end StackCalc.Numeral
