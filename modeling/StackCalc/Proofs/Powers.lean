import Mathlib.LinearAlgebra.Matrix.ZPow
import StackCalc.Proofs.Inverse

/-! # Powers of matrices

Repeated squaring gives the power in any monoid that the product stands for. For matrices these are
the tables of numbers, so a power that is computed is the product of so many factors, and exponents
add up whatever their signs are. What is refused is said by the exponent and the size of the base
alone. -/

namespace StackCalc

/-! ## 1. Repeated squaring -/

/-- A round of repeated squaring: the last bit of the exponent decides whether a factor is taken. -/
theorem Scalar.powLoop_eq {α : Type} (mul : α → α → Except Error α) (x s : α) {e : Nat}
    (he : e ≠ 0) : powLoop mul x s e =
      (if e % 2 = 1 then mul x s else .ok x) >>= fun y =>
        if e / 2 = 0 then .ok y else mul s s >>= fun s => powLoop mul y s (e / 2) := by
  rw [powLoop, if_neg he]
  by_cases odd : e % 2 = 1
  · rw [if_pos odd, if_pos odd]
    split <;> rfl
  · rw [if_neg odd, if_neg odd]
    split <;> rfl

/-- Repeated squaring multiplies by a power, if the product stands for that of a monoid: `S` for the
squares, and `R` for what they are multiplied to. -/
theorem Scalar.powLoop_spec {α M : Type} [Monoid M] {R S : α → M → Prop}
    (mul : α → α → Except Error α)
    (take : ∀ {x y a b}, R x a → S y b → ∃ z, mul x y = .ok z ∧ R z (a * b))
    (square : ∀ {x a}, S x a → ∃ z, mul x x = .ok z ∧ S z (a * a))
    (e : Nat) {x s : α} {a b : M} (hx : R x a) (hs : S s b) :
    ∃ z, powLoop mul x s e = .ok z ∧ R z (a * b ^ e) := by
  induction e using Nat.strongRecOn generalizing x s a b with
  | _ e ih =>
    rcases eq_or_ne e 0 with rfl | he
    · rw [powLoop, pow_zero, mul_one]
      exact ⟨x, rfl, hx⟩
    obtain ⟨y, hy, taken⟩ : ∃ y, (if e % 2 = 1 then mul x s else .ok x) = .ok y ∧
        R y (a * b ^ (e % 2)) := by
      rcases Nat.mod_two_eq_zero_or_one e with even | odd
      · rw [even, pow_zero, mul_one]
        exact ⟨x, rfl, hx⟩
      · rw [odd, pow_one]
        exact take hx hs
    rw [powLoop_eq mul x s he, hy, ok_bind]
    by_cases last : e / 2 = 0
    · have one : e % 2 = e := by omega
      rw [one] at taken
      exact ⟨y, if_pos last, taken⟩
    · obtain ⟨t, ht, squared⟩ := square hs
      have whole : a * b ^ (e % 2) * (b * b) ^ (e / 2) = a * b ^ e := by
        rw [← pow_two, ← pow_mul, mul_assoc, ← pow_add, Nat.mod_add_div]
      rw [if_neg last, ht, ok_bind, ← whole]
      exact ih (e / 2) (by omega) taken squared

theorem Scalar.exactBits?_of_exact {c : Scalar} (h : c.kind.isExact) :
    ∃ b, c.exactBits? = some b := by
  cases c with
  | integer n => exact ⟨_, rfl⟩
  | rational q => exact ⟨_, rfl⟩
  | float | complex => cases h

namespace Matrix

/-! ## 2. Powers that are computed -/

/-- So many equal factors, multiplied one after the other. -/
def product (digits : Nat) (m : Matrix) : Nat → Except Error Matrix
  | 0 => identity m.height
  | 1 => .ok m
  | k + 2 => do (← product digits m (k + 1)).mul digits m

/-- The matrix that a power multiplies: for negative exponents this is the inverse. -/
def powerBase (digits : Nat) (m : Matrix) (e : Int) : Except Error Matrix :=
  if e < 0 then m.inverse digits else .ok m

/-- Powers that are refused: negative ones of a matrix without an inverse, those to exponents out of
range, and those whose exponent times the bits of a factor and of the dimension are too many. -/
def PowerRefused (digits : Nat) (m : Matrix) (e : Int) : Prop :=
  (e < 0 ∧ ∃ z, m.det digits = .ok z ∧ z.isZero) ∨ Scalar.exponentBound ≤ e.natAbs ∨
    ∃ base bits, powerBase digits m e = .ok base ∧ base.exactBits? = some bits ∧
      Scalar.maxPowBits < (bits + Scalar.natBits m.height) * e.natAbs

section
variable {n : Nat} {m : Matrix} {A : RatTable n} (digits : Nat)

theorem Tabulates.product (h : m.Tabulates A) (reduced : m.Reduced) (k : Nat) :
    ∃ p, m.product digits k = .ok p ∧ p.Tabulates (A ^ k) ∧ p.Reduced := by
  induction k with
  | zero =>
    obtain ⟨unit, hunit, tabulates, reducedUnit⟩ := identity_spec h.pos
    exact ⟨unit, by rw [Matrix.product, h.height, hunit], by rwa [pow_zero], reducedUnit⟩
  | succ k ih =>
    cases k with
    | zero => exact ⟨m, rfl, by rwa [pow_one], reduced⟩
    | succ k =>
      obtain ⟨p, hp, tabulates, _⟩ := ih
      obtain ⟨q, hq, next⟩ := tabulates.mul digits h
      exact ⟨q, by rw [Matrix.product, hp, ok_bind, hq], pow_succ A (k + 1) ▸ next⟩

/-- Exact cells have bits, and the longest one has as many as the matrix. -/
theorem exactBits?_of_exact (exact : ∀ c ∈ m.cells, c.kind.isExact) :
    ∃ bits, m.exactBits? = some bits ∧ ∀ c ∈ m.cells, ∃ b, c.exactBits? = some b ∧ b ≤ bits := by
  have run : ∀ (cells : List Scalar) (widest : Nat), (∀ c ∈ cells, c.kind.isExact) →
      ∃ bits, cells.foldlM (fun widest c => c.exactBits?.map (max widest)) widest = some bits ∧
        widest ≤ bits ∧ ∀ c ∈ cells, ∃ b, c.exactBits? = some b ∧ b ≤ bits := by
    intro cells
    induction cells with
    | nil => exact fun widest _ => ⟨widest, rfl, Nat.le_refl _, List.forall_mem_nil _⟩
    | cons c cells ih =>
      intro widest exact
      obtain ⟨hc, hcells⟩ := List.forall_mem_cons.mp exact
      obtain ⟨b, hb⟩ := Scalar.exactBits?_of_exact hc
      obtain ⟨bits, hbits, le, rest⟩ := ih (max widest b) hcells
      refine ⟨bits, ?_, (Nat.le_max_left _ _).trans le,
        List.forall_mem_cons.mpr ⟨⟨b, hb, (Nat.le_max_right _ _).trans le⟩, rest⟩⟩
      rw [List.foldlM_cons, hb]
      exact hbits
  obtain ⟨bits, hbits, _, each⟩ := run m.cells 0 exact
  exact ⟨bits, hbits, each⟩

/-- The guards of a power, once the matrix to be multiplied is known. -/
theorem pow_eq (square : m.cols = m.height) (e : Int) :
    ∃ power : Matrix → Except Error Matrix, m.pow digits e = m.powerBase digits e >>= power ∧
      ∀ base bits, base.exactBits? = some bits → power base =
        if Scalar.exponentBound ≤ e.natAbs then .error (.domain .exponentTooLarge)
        else if Scalar.maxPowBits < (bits + Scalar.natBits m.height) * e.natAbs then
          .error (.domain (.powerTooLong "^" Scalar.maxPowBits))
        else identity m.height >>= fun unit =>
          Scalar.powLoop (mul digits) unit base e.natAbs := by
  have accepted : m.requireSquare "^" = .ok () := if_pos (by simp [isSquare, square])
  rw [Matrix.pow, accepted, ok_bind]
  refine ⟨_, (apply_ite (· >>= _) (e < 0) (m.inverse digits) (pure m)).symm,
    fun base bits hbits => ?_⟩
  dsimp only [Scalar.checkPowSize]
  rw [hbits]
  dsimp only
  split
  · rfl
  · split <;> rfl

/-- The matrix that a power multiplies has a table, and its powers are those of the matrix. Only
negative exponents may fail, namely those of matrices without an inverse. -/
theorem Tabulates.base (h : m.Tabulates A) (e : Int) :
    (e < 0 ∧ A.det = 0 ∧ m.powerBase digits e = .error (.domain .singularMatrix)) ∨
    ((e < 0 → A.det ≠ 0) ∧ ∃ base B, m.powerBase digits e = .ok base ∧ base.Tabulates B ∧
      (m.Reduced → base.Reduced) ∧ B ^ e.natAbs = A ^ e) := by
  cases e with
  | ofNat k => exact .inr ⟨fun negative => absurd negative (by simp), m, A, rfl, h, id, by simp⟩
  | negSucc k =>
    obtain ⟨singular, regular⟩ := h.inverse digits
    have negative : Int.negSucc k < 0 := Int.negSucc_lt_zero k
    rw [powerBase, if_pos negative]
    by_cases zero : A.det = 0
    · exact .inl ⟨negative, zero, singular zero⟩
    · obtain ⟨inv, hinv, inverse, reduced⟩ := regular zero
      refine .inr ⟨fun _ => zero, inv, A⁻¹, hinv, inverse, fun _ => reduced, ?_⟩
      rw [zpow_negSucc, Matrix.inv_pow', Int.natAbs_negSucc]

/-- What a power that is not refused has computed. -/
structure Powered (digits : Nat) (m : Matrix) (A : RatTable n) (e : Int) (p : Matrix) : Prop where
  run : m.pow digits e = .ok p
  invertible : e < 0 → IsUnit A.det
  power : p.Tabulates (A ^ e)
  reduced : p.Reduced
  /-- The guard has passed a table with the power. -/
  guarded : ∃ base B bits, m.powerBase digits e = .ok base ∧ base.Tabulates B ∧
    (m.Reduced → base.Reduced) ∧ B ^ e.natAbs = A ^ e ∧ base.exactBits? = some bits ∧
    (bits + Scalar.natBits n) * e.natAbs ≤ Scalar.maxPowBits

/-- A power is refused, or it has the power of the table. -/
theorem Tabulates.pow (h : m.Tabulates A) (e : Int) :
    (m.PowerRefused digits e ∧ ∃ fault, m.pow digits e = .error (.domain fault)) ∨
    (¬ m.PowerRefused digits e ∧ ∃ p, Powered digits m A e p) := by
  obtain ⟨z, hz, determinant⟩ := h.det digits
  obtain ⟨power, run, guards⟩ := pow_eq digits (h.cols.trans h.height.symm) e
  rcases h.base digits e with
    ⟨negative, zero, hbase⟩ | ⟨regular, base, B, hbase, tabulates, reduced, whole⟩
  · refine .inl ⟨.inl ⟨negative, z, hz, ?_⟩, _, by rw [run, hbase]; rfl⟩
    rw [determinant.isZero]
    exact decide_eq_true zero
  obtain ⟨bits, hbits, _⟩ := exactBits?_of_exact tabulates.exact
  rw [hbase, ok_bind, guards base bits hbits] at run
  by_cases range : Scalar.exponentBound ≤ e.natAbs
  · exact .inl ⟨.inr (.inl range), _, run.trans (if_pos range)⟩
  by_cases long : Scalar.maxPowBits < (bits + Scalar.natBits m.height) * e.natAbs
  · exact .inl ⟨.inr (.inr ⟨base, bits, hbase, hbits, long⟩), _,
      run.trans ((if_neg range).trans (if_pos long))⟩
  obtain ⟨unit, hunit, identity, reducedUnit⟩ := identity_spec h.pos
  obtain ⟨p, hp, table, reducedPower⟩ := Scalar.powLoop_spec (Matrix.mul digits)
    (R := fun (k : Matrix) C => k.Tabulates C ∧ k.Reduced)
    (S := fun (k : Matrix) C => k.Tabulates C)
    (fun hx hy => hx.1.mul digits hy) (fun hx => (hx.mul digits hx).imp fun _ hp => ⟨hp.1, hp.2.1⟩)
    e.natAbs ⟨identity, reducedUnit⟩ tabulates
  rw [if_neg range, if_neg long, h.height, hunit, ok_bind, hp] at run
  rw [one_mul, whole] at table
  rw [h.height] at long
  refine .inr ⟨?_, p, run, fun negative => (regular negative).isUnit, table, reducedPower,
    base, B, bits, hbase, tabulates, reduced, whole, hbits, Nat.le_of_not_lt long⟩
  rintro (⟨negative, z', hz', zero⟩ | out | ⟨base', bits', hbase', hbits', out⟩)
  · cases hz.symm.trans hz'
    rw [determinant.isZero] at zero
    exact regular negative (of_decide_eq_true zero)
  · exact range out
  · cases hbase.symm.trans hbase'
    cases hbits.symm.trans hbits'
    rw [h.height] at out
    exact long out

/-- A power that succeeds is not refused. -/
theorem Tabulates.powered {p : Matrix} {e : Int} (h : m.Tabulates A) (hp : m.pow digits e = .ok p) :
    Powered digits m A e p := by
  rcases h.pow digits e with ⟨_, fault, failure⟩ | ⟨_, q, powered⟩
  · cases failure.symm.trans hp
  · cases powered.run.symm.trans hp
    exact powered

/-- A power is the product of so many factors. -/
theorem Powered.product {p : Matrix} {e : Int} (h : Powered digits m A e p) (reduced : m.Reduced) :
    ∃ base, m.powerBase digits e = .ok base ∧ base.product digits e.natAbs = .ok p := by
  obtain ⟨base, B, _, hbase, tabulates, reducedBase, whole, _⟩ := h.guarded
  obtain ⟨q, hq, factors, reducedProduct⟩ := tabulates.product digits (reducedBase reduced) e.natAbs
  rw [whole] at factors
  exact ⟨base, hbase, h.power.unique factors h.reduced reducedProduct ▸ hq⟩

end

/-- A power of a square matrix of exact and reduced cells is the product of so many factors, and
powers are multiplied by adding their exponents, whatever the signs are. It fails with a fault of
the domain exactly if it is refused, and in no other way. -/
theorem pow_exact (digits : Nat) {m : Matrix} (square : m.cols = m.height)
    (exact : ∀ c ∈ m.cells, c.kind.isExact) (reduced : ∀ c ∈ m.cells, c.reduce = c) :
    (∀ e, (PowerRefused digits m e → ∃ fault, m.pow digits e = .error (.domain fault)) ∧
      (¬ PowerRefused digits m e → ∃ base p, m.powerBase digits e = .ok base ∧
        base.product digits e.natAbs = .ok p ∧ m.pow digits e = .ok p)) ∧
    ∀ a b p q r, m.pow digits a = .ok p → m.pow digits b = .ok q → m.pow digits (a + b) = .ok r →
      p.mul digits q = .ok r := by
  have tabulates := tabulates_of_exact square exact
  refine ⟨fun e => ?_, fun a b p q r hp hq hr => ?_⟩
  · rcases tabulates.pow digits e with ⟨refused, failure⟩ | ⟨accepted, p, powered⟩
    · exact ⟨fun _ => failure, fun accepted => absurd refused accepted⟩
    · obtain ⟨base, hbase, product⟩ := powered.product digits reduced
      exact ⟨fun refused => absurd refused accepted,
        fun _ => ⟨base, p, hbase, product, powered.run⟩⟩
  · have left := tabulates.powered digits hp
    have right := tabulates.powered digits hq
    have both := tabulates.powered digits hr
    obtain ⟨s, hs, product, reducedProduct⟩ := left.power.mul digits right.power
    -- Exponents add up for invertible matrices, and for others if both are not negative.
    have sum : table m.height m.rows ^ (a + b) =
        table m.height m.rows ^ a * table m.height m.rows ^ b := by
      rcases lt_or_ge a 0 with negative | ha
      · exact Matrix.zpow_add (left.invertible negative) a b
      rcases lt_or_ge b 0 with negative | hb
      · exact Matrix.zpow_add (right.invertible negative) a b
      · exact Matrix.zpow_add_of_nonneg ha hb
    rw [← sum] at product
    rw [hs, product.unique both.power reducedProduct both.reduced]

/-- The inverse times the square is the matrix itself, and there is an exponent out of range. -/
theorem pow_swapping :
    (∀ c ∈ swapping.cells, c.kind.isExact) ∧ (∀ c ∈ swapping.cells, c.reduce = c) ∧
    (∃ p q r, swapping.pow 0 (-1) = .ok p ∧ swapping.pow 0 2 = .ok q ∧
      swapping.pow 0 1 = .ok r ∧ p.mul 0 q = .ok r ∧ r.cells = swapping.cells) ∧
    ∃ fault, swapping.pow 0 18446744073709551616 = .error (.domain fault) := by
  have exact : ∀ c ∈ swapping.cells, c.kind.isExact := by decide
  have reduced : ∀ c ∈ swapping.cells, c.reduce = c := by decide +kernel
  have computed : ((swapping.pow 0 (-1)).isOk ∧ (swapping.pow 0 2).isOk) ∧
      (swapping.pow 0 1).toOption.map cells = some swapping.cells := by decide +kernel
  obtain ⟨powers, products⟩ := pow_exact 0 rfl exact reduced
  refine ⟨exact, reduced, ?_, (powers _).1 (.inr (.inl (by decide)))⟩
  have product := products (-1) 2
  rw [show (-1 : Int) + 2 = 1 by decide] at product
  revert computed product
  cases swapping.pow 0 (-1) with
  | error => exact fun computed => nomatch computed.1.1
  | ok p =>
  cases swapping.pow 0 2 with
  | error => exact fun computed => nomatch computed.1.2
  | ok q =>
  cases swapping.pow 0 1 with
  | error => exact fun computed => nomatch computed.2
  | ok r =>
    exact fun computed product =>
      ⟨p, q, r, rfl, rfl, rfl, product p q r rfl rfl rfl, Option.some.inj computed.2⟩

end Matrix
end StackCalc
