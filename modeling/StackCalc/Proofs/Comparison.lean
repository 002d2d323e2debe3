import StackCalc.Proofs.RoundingOrder
import StackCalc.Proofs.SquareRoots

/-! # Comparison of scalars

Two scalars are compared in the narrower kind that holds both. Exact ones are compared as numbers;
beside a float, an exact one is rounded to a float first. -/

namespace StackCalc

namespace ExtDyadic

variable {w : Nat} {x y q : ExtDyadic}

theorem isFinite_iff : x.isFinite = true ↔ x.extent ≠ ⊥ ∧ x.extent ≠ ⊤ := by
  cases x with
  | finite z => exact iff_of_true rfl ⟨WithBot.coe_ne_bot, extent_finite_ne_top z⟩
  | infinite s =>
    refine iff_of_false nofun fun ends => ?_
    cases s with
    | true => exact ends.1 rfl
    | false => exact ends.2 rfl

/-- A quotient of a number that is not positive by one that is not negative. -/
theorem div_nonpos (hx : x.extent ≤ (finite 0).extent) (hy : y.isNegative = false)
    (h : div w x y = some q) : q.extent ≤ (finite 0).extent := by
  cases x with
  | infinite s =>
    cases s with
    | false => exact absurd (top_le_iff.mp hx) (extent_finite_ne_top 0)
    | true =>
      cases y with
      | infinite t => cases h
      | finite y =>
        have sign : decide (numerator y < 0) = false := hy
        rw [div, sign] at h
        cases h
        exact hx
  | finite x =>
    cases y with
    | infinite t =>
      cases h
      exact le_rfl
    | finite y =>
      have sign : decide (numerator y < 0) = false := hy
      rw [div, sign] at h
      split at h
      · cases h
      cases h
      have nonneg := extent_nonneg_iff.mpr
        (isNegative_nearest w (numerator x).natAbs (numerator y).natAbs (scale x - scale y))
      rcases (extent_finite_le.mp hx).lt_or_eq with negative | zero
      · rw [Dyadic.toRat_zero] at negative
        rw [decide_eq_true (numerator_neg_iff.mpr negative), Bool.bne_false, nearest_neg]
        exact extent_neg_le nonneg
      · rw [Dyadic.toRat_inj.mp zero]
        exact le_rfl

/-- An integer of up to `w` bits is the float that it is rounded to, if that is finite. -/
theorem toRat_ofInt {n : Int} {z : Dyadic} (bits : n.natAbs < 2 ^ w)
    (h : ofInt w n = finite z) : z.toRat = n := by
  rcases eq_or_ne n 0 with rfl | nonzero
  · cases h
    rw [Dyadic.toRat_zero, Int.cast_zero]
  have pos : 0 < n.natAbs := Int.natAbs_pos.mpr nonzero
  obtain ⟨a, b, low, high, value⟩ := exists_bits pos bits
  have ha := Rounding.pos_of_lead low
  have unit : (0 : Rat) < 2 ^ b := by positivity
  have low : (2 : Rat) ^ w ≤ 2 * a := by exact_mod_cast low
  have quotient : (n.natAbs : Rat) / (1 : Nat) * 2 ^ (0 : Int) = a * 2 ^ b := by simp [value]
  have rounded : ofInt w n = inRange (n < 0) a b :=
    nearest_eq pos one_pos quotient (by nlinarith) high (by rw [sub_self, abs_zero]; positivity)
  have one : (1 : Rat) ≤ a * 2 ^ b := value ▸ by exact_mod_cast pos
  rcases inRange_cases (n < 0) ha b with ⟨top, -⟩ | ⟨-, below⟩ | ⟨⟨y, hy, number⟩, -⟩
  · rw [rounded, top] at h
    cases h
  · exact absurd one (below.trans_le (zpow_le_one_of_nonpos₀ one_le_two (by decide))).not_ge
  · rw [rounded, hy] at h
    cases h
    rw [number, ← value, signed_natAbs]

/-- A number over one is rounded. -/
theorem div_one (x : ExtDyadic) : div w x (finite 1) = some (round w x) := by
  cases x with
  | infinite s =>
    refine congrArg (fun t => some (infinite t)) ?_
    cases s <;> rfl
  | finite z =>
    have one : numerator 1 = 1 ∧ scale 1 = 0 := by decide
    have sign : decide ((1 : Int) < 0) = false := rfl
    rw [div, one.1, one.2, if_neg one_ne_zero, sub_zero, sign, Bool.bne_false]
    rfl

end ExtDyadic

namespace MPFloat

/-- An integer that is written as a fraction has the float of the integer. -/
theorem ofRat_intCast (n : Int) (d : Nat) : ofRat n d = .ok (ofInt n d) := by
  have unit : IsFloat (width d) (1 : Nat) := by
    refine IsFloat.natCast one_pos (Nat.one_lt_two_pow (width_pos d).ne') ?_
    rw [Nat.cast_one]
    exact one_lt_zpow₀ one_lt_two (by decide)
  have value : (1 : Dyadic).toRat = signed false (1 : Nat) := Dyadic.toRat_natCast 1
  have one : ofInt 1 d = ⟨d, .finite 1⟩ := congrArg (MPFloat.mk d)
    ((ExtDyadic.nearestInt_exact (m := 1) (e := 0) unit (by simp [signed])).eq ⟨1, rfl, value⟩)
  have divided : ExtDyadic.div (width d) (ofInt n d).value (.finite 1) = some (ofInt n d).value :=
    (ExtDyadic.div_one _).trans
      (congrArg some (ExtDyadic.round_nearest (width_pos d) one_pos ..))
  have parts : ofRat n d = (ofInt n d).div (ofInt 1 d) := rfl
  have nonzero : (⟨d, .finite 1⟩ : MPFloat).isZero = false := rfl
  rw [parts, one]
  unfold div
  rw [nonzero, if_neg Bool.false_ne_true]
  unfold ofInt at divided ⊢
  rw [binary_eq, divided]
  rfl

end MPFloat

namespace Scalar

variable {x y z : Scalar} {p q : Rat} {digits : Nat} {a b f : MPFloat}

/-! ## 2. Exact numbers as floats -/

/-- Integers, fractions and finite floats. -/
inductive Ordered : Scalar → Prop
  | exact {x : Scalar} {q : Rat} (number : x.Denotes q) : Ordered x
  | float {f : MPFloat} (finite : f.isFinite = true) : Ordered (.float f)

/-- One number has one float. -/
theorem Denotes.toFloat_unique (hx : x.Denotes q) (hy : y.Denotes q) :
    x.toFloat digits = y.toFloat digits := by
  have canonical {x : Scalar} (hx : x.Denotes q) : x.toFloat digits = MPFloat.ofRat q digits := by
    cases hx with
    | integer n => exact (MPFloat.ofRat_intCast n digits).symm
    | rational => rfl
  rw [canonical hx, canonical hy]

theorem Denotes.toFloat_nonpos (hx : x.Denotes q) (hq : q ≤ 0) (run : x.toFloat digits = .ok a) :
    a.value.extent ≤ (ExtDyadic.finite 0).extent := by
  have integer {n : Int} (hn : n ≤ 0) :
      (MPFloat.ofInt n digits).value.extent ≤ (ExtDyadic.finite 0).extent := by
    have hn : (n : Rat) ≤ 0 := by exact_mod_cast hn
    show (ExtDyadic.nearestInt (MPFloat.width digits) n 0).extent ≤
      (ExtDyadic.nearestInt (MPFloat.width digits) 0 0).extent
    exact ExtDyadic.nearestInt_mono (MPFloat.width_pos digits) (by simpa using hn)
  cases hx with
  | integer n =>
    cases run
    exact integer (by exact_mod_cast hq)
  | rational =>
    obtain ⟨-, quotient⟩ := MPFloat.ofRat_eq_ok run
    exact ExtDyadic.div_nonpos (integer (Rat.num_nonpos.mpr hq))
      (MPFloat.isNegative_ofInt (by omega)) quotient

/-- Rounding two scalars to floats does not bring them into the opposite order. -/
def InOrder (digits : Nat) (x y : Scalar) : Prop :=
  Value.order digits (.scalar x) (.scalar y) = .ok .lt →
    ∀ a b, x.toFloat digits = .ok a → y.toFloat digits = .ok b → a.compareWith b ≠ .gt

/-- Rounding two scalars to floats keeps them apart, unless both are beyond the range of floats. -/
def Apart (digits : Nat) (x y : Scalar) : Prop :=
  Value.order digits (.scalar x) (.scalar y) = .ok .lt →
    ∀ a b, x.toFloat digits = .ok a → y.toFloat digits = .ok b →
      a.isFinite = true ∨ b.isFinite = true → a.compareWith b = .lt

/-! ## 3. Pairs -/

theorem Denotes.kind_ne (hx : x.Denotes q) : x.kind ≠ .float ∧ x.kind ≠ .complex := by
  cases hx <;> exact ⟨nofun, nofun⟩

theorem Ordered.kind_ne (h : x.Ordered) : x.kind ≠ .complex := by
  cases h with
  | exact number => exact number.kind_ne.2
  | float => nofun

theorem Ordered.denotes (h : x.Ordered) (exact : x.kind ≠ .float) : ∃ q, x.Denotes q := by
  cases h with
  | exact number => exact ⟨_, number⟩
  | float => exact absurd rfl exact

theorem Denotes.order (hx : x.Denotes p) (hy : y.Denotes q) :
    Scalar.order digits x y = .ok (compare p q) := by
  have same : orderOf p q = compare p q := by
    rcases orderOf_cases p q with ⟨h, ho⟩ | ⟨h, ho⟩ | ⟨h, ho⟩ <;> rw [ho]
    · exact (compare_lt_iff_lt.mpr h).symm
    · exact (compare_eq_iff_eq.mpr h).symm
    · exact (compare_gt_iff_gt.mpr h).symm
  have run {x y : Scalar} (hx : x.Denotes p) (hy : y.Denotes q) (hk : x.kind = y.kind) :
      x.compareSame y = some (compare p q) := same ▸ hx.compareSame hy hk
  rcases hx.promote (d := digits) hy with ⟨m, n, h, rfl, rfl⟩ | h
  · simp only [Scalar.order, h, ok_bind, ScalarPair.first, ScalarPair.second,
      run (.integer m) (.integer n) rfl]
    rfl
  · simp only [Scalar.order, h, ok_bind, ScalarPair.first, ScalarPair.second,
      run (.rational p) (.rational q) rfl]
    rfl

theorem Denotes.order_lt (hx : x.Denotes p) (hy : y.Denotes q) (less : p < q) :
    Scalar.order digits x y = .ok .lt :=
  (hx.order hy).trans (congrArg Except.ok (compare_lt_iff_lt.mpr less))

/-- Beside a float, both are compared as floats. -/
theorem compared (hx : x.Ordered) (hy : y.Ordered) (beside : x.kind = .float ∨ y.kind = .float) :
    order digits x y = (do
      let a ← x.toFloat digits
      let b ← y.toFloat digits
      return a.compareWith b) ∧
    equals digits x y = (do
      let a ← x.toFloat digits
      let b ← y.toFloat digits
      return a.same b) := by
  have promoted : promote digits x y = do
      return .floats (← x.toFloat digits) (← y.toFloat digits) := by
    have hx := hx.kind_ne
    have hy := hy.kind_ne
    cases x <;> cases y <;> first
      | rfl
      | exact absurd rfl hx
      | exact absurd rfl hy
      | rcases beside with h | h <;> cases h
  unfold order equals
  rw [promoted]
  cases x.toFloat digits with
  | error e => exact ⟨rfl, rfl⟩
  | ok a =>
    cases y.toFloat digits with
    | error e => exact ⟨rfl, rfl⟩
    | ok b => exact ⟨rfl, rfl⟩

theorem order_eq_ok {o : Ordering} (hx : x.Ordered) (hy : y.Ordered)
    (beside : x.kind = .float ∨ y.kind = .float) (run : order digits x y = .ok o) :
    ∃ a b, x.toFloat digits = .ok a ∧ y.toFloat digits = .ok b ∧ o = a.compareWith b := by
  rw [(compared hx hy beside).1] at run
  obtain ⟨a, ha, run⟩ := bind_eq_ok.mp run
  obtain ⟨b, hb, run⟩ := bind_eq_ok.mp run
  cases run
  exact ⟨a, b, ha, hb, rfl⟩

theorem order_of_floats (hx : x.Ordered) (hy : y.Ordered)
    (beside : x.kind = .float ∨ y.kind = .float) (ha : x.toFloat digits = .ok a)
    (hb : y.toFloat digits = .ok b) : order digits x y = .ok (a.compareWith b) := by
  rw [(compared hx hy beside).1, ha, ok_bind, hb]
  rfl

/-- A conversion on one side only, of two scalars one of which is a float. -/
theorem one_conversion (digits : Nat) (hx : x.Ordered) (hy : y.Ordered) :
    (∃ p q, x.Denotes p ∧ y.Denotes q) ∨
      ((x.kind = .float ∨ y.kind = .float) ∧
        ((∃ a, x.toFloat digits = .ok a) ∨ ∃ b, y.toFloat digits = .ok b)) := by
  cases hx with
  | exact hp =>
    cases hy with
    | exact hq => exact .inl ⟨_, _, hp, hq⟩
    | float => exact .inr ⟨.inr rfl, .inr ⟨_, rfl⟩⟩
  | float => exact .inr ⟨.inl rfl, .inl ⟨_, rfl⟩⟩

/-- The comparison of a pair the other way round. -/
theorem order_swap (digits : Nat) (hx : x.Ordered) (hy : y.Ordered) :
    order digits y x = (order digits x y).map Ordering.swap := by
  rcases one_conversion digits hx hy with ⟨p, q, hp, hq⟩ | ⟨beside, converted⟩
  · rw [hp.order hq, hq.order hp]
    exact congrArg Except.ok Std.OrientedCmp.eq_swap
  · rw [(compared hx hy beside).1, (compared hy hx beside.symm).1]
    have swap (a b : MPFloat) : b.compareWith a = (a.compareWith b).swap :=
      (ExtDyadic.compareWith_swap a.value b.value).symm
    cases ha : x.toFloat digits with
    | error e =>
      obtain ⟨a, run⟩ | ⟨b, hb⟩ := converted
      · cases ha.symm.trans run
      · rw [hb]
        rfl
    | ok a =>
      cases y.toFloat digits with
      | error e => rfl
      | ok b => exact congrArg Except.ok (swap a b)

/-- Two scalars are equal if none of them is above the other one. -/
theorem equals_eq (digits : Nat) (hx : x.Ordered) (hy : y.Ordered) :
    equals digits x y = (order digits x y).map fun o => decide (o = .eq) := by
  rcases one_conversion digits hx hy with ⟨p, q, hp, hq⟩ | ⟨beside, -⟩
  · rw [hp.order hq, hp.equals hq]
    exact congrArg Except.ok (decide_eq_decide.mpr compare_eq_iff_eq.symm)
  · rw [(compared hx hy beside).1, (compared hx hy beside).2]
    cases x.toFloat digits with
    | error e => rfl
    | ok a =>
      cases y.toFloat digits with
      | error e => rfl
      | ok b =>
        exact congrArg Except.ok (decide_eq_decide.mpr ExtDyadic.compareWith_eq_eq_iff.symm)

/-! ## 4. Three scalars -/

/-- If the first scalar is not above the second one and that not above the third one, the first one
is not above the third one. -/
def Transitive (digits : Nat) (x y z : Scalar) : Prop :=
  ∀ o₁ o₂ o₃, Value.order digits (.scalar x) (.scalar y) = .ok o₁ → o₁ ≠ .gt →
    Value.order digits (.scalar y) (.scalar z) = .ok o₂ → o₂ ≠ .gt →
    Value.order digits (.scalar x) (.scalar z) = .ok o₃ → o₃ ≠ .gt

/-- Numbers are in transitive order. -/
theorem transitive_exact {r : Rat} (hx : x.Denotes p) (hy : y.Denotes q) (hz : z.Denotes r) :
    Transitive digits x y z := by
  intro o₁ o₂ o₃ first h₁ second h₂ third
  cases (hx.order hy).symm.trans first
  cases (hy.order hz).symm.trans second
  cases (hx.order hz).symm.trans third
  exact compare_le_iff_le.mpr ((compare_le_iff_le.mp h₁).trans (compare_le_iff_le.mp h₂))

/-- So are floats, and what is always compared as one. -/
theorem transitive_floats (hx : x.Ordered) (hy : y.Ordered) (hz : z.Ordered)
    (xy : x.kind = .float ∨ y.kind = .float) (yz : y.kind = .float ∨ z.kind = .float)
    (xz : x.kind = .float ∨ z.kind = .float) : Transitive digits x y z := by
  intro o₁ o₂ o₃ first h₁ second h₂ third
  obtain ⟨a, b, ha, hb, rfl⟩ := order_eq_ok hx hy xy first
  obtain ⟨b', c, hb', hc, rfl⟩ := order_eq_ok hy hz yz second
  obtain ⟨a', c', ha', hc', rfl⟩ := order_eq_ok hx hz xz third
  cases ha.symm.trans ha'
  cases hb.symm.trans hb'
  cases hc.symm.trans hc'
  exact ExtDyadic.compareWith_ne_gt_iff.mpr ((ExtDyadic.compareWith_ne_gt_iff.mp h₁).trans
    (ExtDyadic.compareWith_ne_gt_iff.mp h₂))

theorem InOrder.le (keeps : InOrder digits x y) (hx : x.Denotes p) (hy : y.Denotes q)
    (le : p ≤ q) (ha : x.toFloat digits = .ok a) (hb : y.toFloat digits = .ok b) :
    a.value.extent ≤ b.value.extent := by
  rcases le.lt_or_eq with less | rfl
  · exact ExtDyadic.compareWith_ne_gt_iff.mp (keeps (hx.order_lt hy less) a b ha hb)
  · rw [hx.toFloat_unique hy] at ha
    cases ha.symm.trans hb
    exact le_rfl

/-- A float beside two exact numbers that are rounded without being reversed. -/
theorem InOrder.transitive (keeps : InOrder digits x y) (hx : x.Denotes p) (hy : y.Denotes q)
    (finite : f.isFinite = true) :
    Transitive digits x y (.float f) ∧ Transitive digits (.float f) x y := by
  have le {o : Ordering} (run : order digits x y = .ok o) (ho : o ≠ .gt) : p ≤ q := by
    cases (hx.order hy).symm.trans run
    exact compare_le_iff_le.mp ho
  constructor
  · intro o₁ o₂ o₃ first h₁ second h₂ third
    obtain ⟨b, f', hb, hf, rfl⟩ := order_eq_ok (.exact hy) (.float finite) (.inr rfl) second
    obtain ⟨a, f'', ha, hf', rfl⟩ := order_eq_ok (.exact hx) (.float finite) (.inr rfl) third
    cases hf
    cases hf'
    exact ExtDyadic.compareWith_ne_gt_iff.mpr ((keeps.le hx hy (le first h₁) ha hb).trans
      (ExtDyadic.compareWith_ne_gt_iff.mp h₂))
  · intro o₁ o₂ o₃ first h₁ second h₂ third
    obtain ⟨f', a, hf, ha, rfl⟩ := order_eq_ok (.float finite) (.exact hx) (.inl rfl) first
    obtain ⟨f'', b, hf', hb, rfl⟩ := order_eq_ok (.float finite) (.exact hy) (.inl rfl) third
    cases hf
    cases hf'
    exact ExtDyadic.compareWith_ne_gt_iff.mpr ((ExtDyadic.compareWith_ne_gt_iff.mp h₁).trans
      (keeps.le hx hy (le second h₂) ha hb))

/-- An infinite float has the sign of its number. -/
theorem infinite_cases (hx : x.Denotes p) (ha : x.toFloat digits = .ok a)
    (infinite : a.isFinite ≠ true) :
    p < 0 ∧ a.value.extent = ⊥ ∨ 0 < p ∧ a.value.extent = ⊤ := by
  have ends : a.value.extent = ⊥ ∨ a.value.extent = ⊤ := by
    by_contra inside
    exact infinite (ExtDyadic.isFinite_iff.mpr (not_or.mp inside))
  rcases ends with bottom | top
  · refine .inl ⟨not_le.mp fun nonneg => ?_, bottom⟩
    have := ExtDyadic.extent_nonneg_iff.mpr (hx.isNegative_toFloat nonneg ha)
    rw [bottom] at this
    exact WithBot.coe_ne_bot (le_bot_iff.mp this)
  · refine .inr ⟨not_le.mp fun nonpos => ?_, top⟩
    have := hx.toFloat_nonpos nonpos ha
    rw [top] at this
    exact ExtDyadic.extent_finite_ne_top 0 (top_le_iff.mp this)

/-- A float between two exact numbers that are kept apart. -/
theorem Apart.transitive (apart : Apart digits x y) (hx : x.Denotes p) (hy : y.Denotes q)
    (finite : f.isFinite = true) : Transitive digits y (.float f) x := by
  intro o₁ o₂ o₃ first h₁ second h₂ third
  obtain ⟨b, f', hb, hf, rfl⟩ := order_eq_ok (.exact hy) (.float finite) (.inr rfl) first
  obtain ⟨f'', a, hf', ha, rfl⟩ := order_eq_ok (.float finite) (.exact hx) (.inl rfl) second
  cases hf
  cases hf'
  have below := ExtDyadic.compareWith_ne_gt_iff.mp h₁
  have above := ExtDyadic.compareWith_ne_gt_iff.mp h₂
  cases (hy.order hx).symm.trans third
  refine compare_le_iff_le.mpr (not_lt.mp fun less => ?_)
  by_cases inside : a.isFinite = true ∨ b.isFinite = true
  · have := apart (hx.order_lt hy less) a b ha hb inside
    exact (ExtDyadic.compareWith_lt_iff.mp this).not_ge (below.trans above)
  · obtain ⟨infiniteA, infiniteB⟩ := not_or.mp inside
    obtain ⟨notBot, notTop⟩ := ExtDyadic.isFinite_iff.mp finite
    rcases infinite_cases hx ha infiniteA with ⟨-, bottom⟩ | ⟨positive, -⟩
    · rw [bottom] at above
      exact notBot (le_bot_iff.mp above)
    rcases infinite_cases hy hb infiniteB with ⟨negative, -⟩ | ⟨-, top⟩
    · linarith
    · rw [top] at below
      exact notTop (top_le_iff.mp below)

theorem compareWith_self (a : MPFloat) : a.compareWith a = .eq :=
  ExtDyadic.compareWith_eq_eq_iff.mpr rfl

/-- Two exact numbers that are reversed have a float beside them that shows it. -/
theorem inOrder_of_transitive (hx : x.Denotes p) (hy : y.Denotes q)
    (h : ∀ f : MPFloat, f.isFinite = true →
      Transitive digits x y (.float f) ∧ Transitive digits (.float f) x y) :
    InOrder digits x y := by
  intro less a b ha hb reversed
  have pq : p < q := compare_lt_iff_lt.mp (Except.ok.inj ((hx.order hy).symm.trans less))
  by_cases finiteA : a.isFinite = true
  · exact (h a finiteA).2 .eq .lt .gt
      (compareWith_self a ▸ order_of_floats (.float finiteA) (.exact hx) (.inl rfl) rfl ha) nofun
      less nofun
      (reversed ▸ order_of_floats (.float finiteA) (.exact hy) (.inl rfl) rfl hb) rfl
  by_cases finiteB : b.isFinite = true
  · exact (h b finiteB).1 .lt .eq .gt less nofun
      (compareWith_self b ▸ order_of_floats (.exact hy) (.float finiteB) (.inr rfl) hb rfl) nofun
      (reversed ▸ order_of_floats (.exact hx) (.float finiteB) (.inr rfl) ha rfl) rfl
  · refine ExtDyadic.compareWith_ne_gt_iff.mpr ?_ reversed
    rcases infinite_cases hx ha finiteA with ⟨-, bottom⟩ | ⟨positive, -⟩
    · exact bottom ▸ bot_le
    rcases infinite_cases hy hb finiteB with ⟨negative, -⟩ | ⟨-, top⟩
    · linarith
    · exact top ▸ le_top

/-- Two exact numbers that are not kept apart have a float between them that shows it. -/
theorem apart_of_transitive (hx : x.Denotes p) (hy : y.Denotes q)
    (h : ∀ f : MPFloat, f.isFinite = true → Transitive digits y (.float f) x) :
    Apart digits x y := by
  intro less a b ha hb finite
  have less : order digits x y = .ok .lt := less
  have more : order digits y x = .ok .gt := by
    rw [order_swap digits (.exact hx) (.exact hy), less]
    rfl
  by_contra other
  have reversed : b.compareWith a ≠ .gt :=
    ExtDyadic.compareWith_ne_gt_iff.mpr (not_lt.mp (mt ExtDyadic.compareWith_lt_iff.mpr other))
  rcases finite with finite | finite
  · exact h a finite _ .eq .gt
      (order_of_floats (.exact hy) (.float finite) (.inr rfl) hb rfl) reversed
      (compareWith_self a ▸ order_of_floats (.float finite) (.exact hx) (.inl rfl) rfl ha) nofun
      more rfl
  · exact h b finite .eq _ .gt
      (compareWith_self b ▸ order_of_floats (.exact hy) (.float finite) (.inr rfl) hb rfl) nofun
      (order_of_floats (.float finite) (.exact hx) (.inl rfl) rfl ha) reversed more rfl

/-- Rounding does not reverse integers. -/
theorem inOrder_integers (digits : Nat) (m n : Int) :
    InOrder digits (.integer m) (.integer n) := by
  intro less a b ha hb
  cases ha
  cases hb
  have less := ((Denotes.integer m).order (.integer n)).symm.trans less
  have less := (compare_lt_iff_lt.mp (Except.ok.inj less)).le
  exact ExtDyadic.compareWith_ne_gt_iff.mpr
    (ExtDyadic.nearestInt_mono (MPFloat.width_pos digits) (by simpa using less))

/-- Integers that fit the bits of a float are kept apart. -/
theorem apart_integers {m n : Int} (hm : m.natAbs < 2 ^ MPFloat.width digits)
    (hn : n.natAbs < 2 ^ MPFloat.width digits) : Apart digits (.integer m) (.integer n) := by
  intro less a b ha hb finite
  have weak := ExtDyadic.compareWith_ne_gt_iff.mp (inOrder_integers digits m n less a b ha hb)
  cases ha
  cases hb
  refine ExtDyadic.compareWith_lt_iff.mpr (weak.lt_of_ne fun same => ?_)
  have same : ExtDyadic.ofInt (MPFloat.width digits) m = .ofInt (MPFloat.width digits) n :=
    ExtDyadic.extent_injective same
  have exact (z : Dyadic) (hz : ExtDyadic.ofInt (MPFloat.width digits) m = .finite z) : m = n := by
    have value := (ExtDyadic.toRat_ofInt hm hz).symm.trans
      (ExtDyadic.toRat_ofInt hn (same.symm.trans hz))
    exact_mod_cast value
  have unequal : m ≠ n := by
    rintro rfl
    have less := ((Denotes.integer m).order (.integer m)).symm.trans less
    rw [compare_eq_iff_eq.mpr rfl] at less
    cases less
  have finite : (ExtDyadic.ofInt (MPFloat.width digits) m).isFinite = true :=
    finite.elim id fun finite => (congrArg ExtDyadic.isFinite same).trans finite
  cases value : ExtDyadic.ofInt (MPFloat.width digits) m with
  | finite z => exact unequal (exact z value)
  | infinite s =>
    rw [value] at finite
    cases finite

end Scalar

namespace Value

open Scalar (Ordered Transitive InOrder Apart)

variable {x y z : Scalar}

/-- A comparison fails only for a fraction without a float beside a float. -/
theorem order_isOk_iff (digits : Nat) (hx : x.Ordered) (hy : y.Ordered) :
    (order digits (scalar x) (scalar y)).isOk ↔
      (y.kind = .float → ¬ (scalar x).OutOfRange digits) ∧
      (x.kind = .float → ¬ (scalar y).OutOfRange digits) := by
  cases hx with
  | exact hp =>
    cases hy with
    | exact hq =>
      have run : order digits (scalar x) (scalar y) = .ok _ := hp.order hq
      rw [run]
      exact iff_of_true rfl ⟨fun h => absurd h hq.kind_ne.1, fun h => absurd h hp.kind_ne.1⟩
    | @float f finite =>
      have run : order digits (scalar x) (scalar (.float f)) = _ :=
        (Scalar.compared (.exact hp) (.float finite) (.inr rfl)).1
      have converts : (order digits (scalar x) (scalar (.float f))).isOk =
          (x.toFloat digits).isOk := by
        rw [run]
        cases x.toFloat digits <;> rfl
      rw [converts, toFloat_isOk_iff hp]
      exact ⟨fun h => ⟨fun _ => h, fun k => absurd k hp.kind_ne.1⟩, fun h => h.1 rfl⟩
  | @float f finite =>
    have run : order digits (scalar (.float f)) (scalar y) = _ :=
      (Scalar.compared (.float finite) hy (.inl rfl)).1
    have converts : (order digits (scalar (.float f)) (scalar y)).isOk =
        (y.toFloat digits).isOk := by
      rw [run]
      cases y.toFloat digits <;> rfl
    have inRange (g : MPFloat) : ¬ (scalar (.float g)).OutOfRange digits := by
      rintro ⟨q, fraction, -⟩
      cases fraction
    rw [converts]
    cases hy with
    | exact hq =>
      rw [toFloat_isOk_iff hq]
      exact ⟨fun h => ⟨fun k => absurd k hq.kind_ne.1, fun _ => h⟩, fun h => h.2 rfl⟩
    | float => exact iff_of_true rfl ⟨fun _ => inRange _, fun _ => inRange _⟩

/-- Of three kinds that are not just once that of floats, no pair is without a float, or every. -/
theorem floats_of_count {j k l : Kind} (h : [j, k, l].count .float ≠ 1) :
    (j ≠ .float ∧ k ≠ .float ∧ l ≠ .float) ∨
      ((j = .float ∨ k = .float) ∧ (k = .float ∨ l = .float) ∧ (j = .float ∨ l = .float)) := by
  by_cases hj : j = .float <;> by_cases hk : k = .float <;> by_cases hl : l = .float <;>
    simp_all

/-- The comparison of integers, fractions and finite floats of any precision. The other way round it
is reversed, equality is a comparison without a difference, and only a fraction without a float
beside a float is not compared. Three scalars are in transitive order unless just one of them is a
float. Two exact ones are in transitive order with all floats before and after them if and only if
rounding does not reverse them, and with all floats between them if and only if it keeps them apart.
Integers are not reversed, and they are kept apart if they fit the bits of a float. -/
theorem order_preorder (digits : Nat) (hx : x.Ordered) (hy : y.Ordered) (hz : z.Ordered) :
    order digits (scalar y) (scalar x) = (order digits (scalar x) (scalar y)).map Ordering.swap ∧
      equals digits (scalar x) (scalar y) =
        (order digits (scalar x) (scalar y)).map (fun o => decide (o = .eq)) ∧
      ((order digits (scalar x) (scalar y)).isOk ↔
        (y.kind = .float → ¬ (scalar x).OutOfRange digits) ∧
        (x.kind = .float → ¬ (scalar y).OutOfRange digits)) ∧
      ([x.kind, y.kind, z.kind].count .float ≠ 1 → Transitive digits x y z) ∧
      (x.kind ≠ .float → y.kind ≠ .float →
        ((∀ f : MPFloat, f.isFinite = true →
            Transitive digits x y (.float f) ∧ Transitive digits (.float f) x y) ↔
          InOrder digits x y) ∧
        ((∀ f : MPFloat, f.isFinite = true → Transitive digits y (.float f) x) ↔
          Apart digits x y)) ∧
      ∀ m n : Int, InOrder digits (.integer m) (.integer n) ∧
        (m.natAbs < 2 ^ MPFloat.width digits → n.natAbs < 2 ^ MPFloat.width digits →
          Apart digits (.integer m) (.integer n)) := by
  refine ⟨Scalar.order_swap digits hx hy, Scalar.equals_eq digits hx hy,
    order_isOk_iff digits hx hy, ?_, ?_, fun m n =>
      ⟨Scalar.inOrder_integers digits m n, Scalar.apart_integers⟩⟩
  · intro floats
    rcases floats_of_count floats with ⟨exactX, exactY, exactZ⟩ | ⟨xy, yz, xz⟩
    · obtain ⟨p, hp⟩ := hx.denotes exactX
      obtain ⟨q, hq⟩ := hy.denotes exactY
      obtain ⟨r, hr⟩ := hz.denotes exactZ
      exact Scalar.transitive_exact hp hq hr
    · exact Scalar.transitive_floats hx hy hz xy yz xz
  · intro exactX exactY
    obtain ⟨p, hp⟩ := hx.denotes exactX
    obtain ⟨q, hq⟩ := hy.denotes exactY
    refine ⟨⟨Scalar.inOrder_of_transitive hp hq, fun keeps f finite => ?_⟩,
      ⟨Scalar.apart_of_transitive hp hq, fun apart f finite => ?_⟩⟩
    · exact keeps.transitive hp hq finite
    · exact apart.transitive hp hq finite

/-- A fraction and two floats of other precisions. -/
theorem order_preorder_mixed :
    order 32 (float (.ofInt 1 20)) (rational (1 / 3)) = .ok .gt ∧
      Transitive 32 (.rational (1 / 3)) (.float (.ofInt 1 20)) (.float (.ofInt 2 16)) := by
  obtain ⟨reverse, -, -, floats, -⟩ := order_preorder (x := .rational (1 / 3))
    (y := .float (.ofInt 1 20)) (z := .float (.ofInt 2 16)) 32
    (.exact (.rational (1 / 3))) (.float rfl) (.float rfl)
  have below : order 32 (rational (1 / 3)) (float (.ofInt 1 20)) = .ok .lt := by decide +kernel
  exact ⟨reverse.trans (congrArg (Except.map Ordering.swap) below), floats (by decide)⟩

/-- An integer that is rounded to the float of a smaller one is not above that float, and the float
is not above the smaller integer. -/
theorem order_crossed : order 32 (integer (10 ^ 60 + 1)) (float (.ofInt (10 ^ 60) 32)) = .ok .eq ∧
    order 32 (float (.ofInt (10 ^ 60) 32)) (integer (10 ^ 60)) = .ok .eq ∧
    order 32 (integer (10 ^ 60 + 1)) (integer (10 ^ 60)) = .ok .gt := by
  decide +kernel

end Value
end StackCalc
