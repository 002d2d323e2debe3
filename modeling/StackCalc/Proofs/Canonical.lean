import StackCalc.Proofs.Kinds

/-! # Canonical values

The declared kind of a list says what its elements are. `Value.Canonical` states it for every list
in a value, however deep, and also in the constants of expressions. Lists are made canonical by
`ofItems` and stay so under `reduce`, which gives a value its one reduced form. -/

namespace StackCalc

/-! ## 1. What canonical means -/

/-- What the declared kind of a list says about its elements. Whole fractions in a list of
fractions are integers, so such a list holds both kinds. -/
def ElementsFit (k : Kind) (items : List Value) : Prop :=
  match k with
  | .rational => (∀ v ∈ items, v.kind.isExact) ∧ ∃ v ∈ items, v.kind = .rational
  | k => ∀ v ∈ items, v.kind = k

/-- A matrix with a cell for each row and column, and some of both. -/
def Matrix.Full (m : Matrix) : Prop :=
  0 < m.height ∧ 0 < m.cols ∧ m.cells.length = m.height * m.cols

mutual

/-- All lists and matrices in a value are canonical. -/
def Value.Canonical : Value → Prop
  | .scalar _ => True
  | .matrix m => m.Full
  | .list k items => ElementsFit k items ∧ CanonicalItems items
  | .time _ => True
  | .symbolic e => e.Canonical

/-- All lists and matrices in some values are canonical. -/
def CanonicalItems : List Value → Prop
  | [] => True
  | v :: vs => v.Canonical ∧ CanonicalItems vs

/-- All lists and matrices in the constants of an expression are canonical. -/
def Expr.Canonical : Expr → Prop
  | .var _ => True
  | .const v => v.Canonical
  | .apply _ args => CanonicalArgs args

/-- All lists and matrices in the constants of some expressions are canonical. -/
def CanonicalArgs : List Expr → Prop
  | [] => True
  | e :: es => e.Canonical ∧ CanonicalArgs es

end

theorem canonicalItems_iff {vs : List Value} : CanonicalItems vs ↔ ∀ v ∈ vs, v.Canonical := by
  induction vs with
  | nil => simp [CanonicalItems]
  | cons v vs ih => simp [CanonicalItems, ih]

theorem canonicalArgs_iff {es : List Expr} : CanonicalArgs es ↔ ∀ e ∈ es, e.Canonical := by
  induction es with
  | nil => simp [CanonicalArgs]
  | cons e es ih => simp [CanonicalArgs, ih]

theorem Matrix.full (m : Matrix) : m.Full := by
  obtain ⟨hr, hc, hl⟩ := m.rectangular
  refine ⟨List.length_pos_iff.mpr hr, hc, ?_⟩
  have each : m.rows.map List.length = List.replicate m.rows.length m.cols :=
    List.eq_replicate_iff.mpr ⟨List.length_map _, by simpa using hl⟩
  simp [Matrix.cells, Matrix.height, List.length_flatten, each]

namespace Value

@[simp]
theorem canonical_scalar (x : Scalar) : (scalar x).Canonical := by simp [Canonical]

@[simp]
theorem canonical_matrix (m : Matrix) : (matrix m).Canonical := by
  simpa [Canonical] using m.full

@[simp]
theorem canonical_time (t : Time) : (time t).Canonical := by simp [Canonical]

@[simp]
theorem canonical_symbolic {e : Expr} : (symbolic e).Canonical ↔ e.Canonical := by simp [Canonical]

@[simp]
theorem canonical_list {k : Kind} {items : List Value} :
    (list k items).Canonical ↔ ElementsFit k items ∧ ∀ v ∈ items, v.Canonical := by
  rw [Canonical, canonicalItems_iff]

/-! ## 2. Reduction -/

theorem reduceItems_eq_map (vs : List Value) : reduceItems vs = vs.map reduce := by
  induction vs with
  | nil => rfl
  | cons v vs ih => rw [reduceItems, ih, List.map_cons]

/-- Reduction changes the kind of a value only from fraction to integer. -/
theorem reduce_kind (v : Value) :
    v.reduce.kind = v.kind ∨ v.kind = .rational ∧ v.reduce.kind = .integer := by
  cases v with
  | scalar x =>
    cases x with
    | rational q =>
      by_cases h : q.den = 1 <;> simp [reduce, Scalar.reduce, kind, Scalar.kind, h]
    | integer _ | float _ | complex _ => exact .inl rfl
  | matrix _ | list _ _ | time _ | symbolic _ => exact .inl rfl

theorem elementsFit_reduce {k : Kind} {items : List Value} (h : ElementsFit k items) :
    ElementsFit (reducedKind k (reduceItems items)) (reduceItems items) := by
  rw [reduceItems_eq_map]
  by_cases hk : k = .rational
  · subst hk
    obtain ⟨exact, _⟩ := h
    have kinds : ∀ v ∈ items, v.reduce.kind = .integer ∨ v.reduce.kind = .rational := by
      intro v hv
      have hv := exact v hv
      rcases reduce_kind v with hr | ⟨_, hr⟩
      · rw [hr]
        simpa [Kind.isExact] using hv
      · exact .inl hr
    -- Where all fractions turn out whole, the list becomes one of integers.
    by_cases broken : ∃ v ∈ items, v.reduce.kind = .rational
    · have kept : reducedKind .rational (items.map reduce) = .rational := by
        simpa [reducedKind] using broken
      rw [kept]
      refine ⟨fun w hw => ?_, ?_⟩
      · obtain ⟨v, hv, rfl⟩ := List.mem_map.mp hw
        rcases kinds v hv with h | h <;> simp [h, Kind.isExact]
      · obtain ⟨v, hv, h⟩ := broken
        exact ⟨v.reduce, List.mem_map_of_mem hv, h⟩
    · have whole : reducedKind .rational (items.map reduce) = .integer := by
        simpa [reducedKind] using broken
      rw [whole]
      intro w hw
      obtain ⟨v, hv, rfl⟩ := List.mem_map.mp hw
      exact (kinds v hv).resolve_right fun h => broken ⟨v, hv, h⟩
  · have same : ∀ w ∈ items.map reduce, w.kind = k := by
      intro w hw
      obtain ⟨v, hv, rfl⟩ := List.mem_map.mp hw
      have hv : v.kind = k := by
        cases k <;> first | exact h v hv | exact absurd rfl hk
      rcases reduce_kind v with hr | ⟨hr, _⟩
      · exact hr.trans hv
      · exact absurd (hv.symm.trans hr) hk
    have kept : reducedKind k (items.map reduce) = k := by simp [reducedKind, hk]
    rw [kept]
    cases k <;> first | exact same | exact absurd rfl hk

theorem reducedKind_reducedKind (k : Kind) (items : List Value) :
    reducedKind (reducedKind k items) items = reducedKind k items := by
  unfold reducedKind
  split
  · simp
  · simp_all

end Value

mutual

theorem Value.canonical_reduce : ∀ v : Value, v.Canonical → v.reduce.Canonical
  | .scalar _, _ => by simp [Value.reduce]
  | .matrix _, _ => by simp [Value.reduce]
  | .list k items, h => by
    rw [Value.Canonical] at h
    rw [Value.reduce, Value.Canonical]
    exact ⟨Value.elementsFit_reduce h.1, canonicalItems_reduce items h.2⟩
  | .time _, _ => by simp [Value.reduce]
  | .symbolic e, h => by
    rw [Value.Canonical] at h
    rw [Value.reduce, Value.Canonical]
    exact canonicalExpr_reduce e h

theorem canonicalItems_reduce : ∀ vs : List Value,
    CanonicalItems vs → CanonicalItems (Value.reduceItems vs)
  | [], _ => trivial
  | v :: vs, h => by
    rw [Value.reduceItems]
    exact ⟨Value.canonical_reduce v h.1, canonicalItems_reduce vs h.2⟩

theorem canonicalExpr_reduce : ∀ e : Expr, e.Canonical → (Value.reduceExpr e).Canonical
  | .var _, _ => by simp [Value.reduceExpr, Expr.Canonical]
  | .const v, h => by
    rw [Expr.Canonical] at h
    rw [Value.reduceExpr, Expr.Canonical]
    exact Value.canonical_reduce v h
  | .apply _ args, h => by
    rw [Expr.Canonical] at h
    rw [Value.reduceExpr, Expr.Canonical]
    exact canonicalArgs_reduce args h

theorem canonicalArgs_reduce : ∀ es : List Expr,
    CanonicalArgs es → CanonicalArgs (Value.reduceArgs es)
  | [], _ => trivial
  | e :: es, h => by
    rw [Value.reduceArgs]
    exact ⟨canonicalExpr_reduce e h.1, canonicalArgs_reduce es h.2⟩

end

theorem Scalar.reduce_reduce (x : Scalar) : x.reduce.reduce = x.reduce := by
  cases x with
  | rational q => by_cases h : q.den = 1 <;> simp [Scalar.reduce, h]
  | integer _ | float _ | complex _ => rfl

theorem Matrix.map_map_reduce (m : Matrix) :
    (m.map Scalar.reduce).map Scalar.reduce = m.map Scalar.reduce := by
  simp [Matrix.map, Function.comp_def, Scalar.reduce_reduce]

mutual

/-- Reduction gives a canonical form: reducing again changes nothing. -/
theorem Value.reduce_reduce : ∀ v : Value, v.reduce.reduce = v.reduce
  | .scalar x => by rw [Value.reduce, Value.reduce, Scalar.reduce_reduce]
  | .matrix m => by rw [Value.reduce, Value.reduce, Matrix.map_map_reduce]
  | .list k items => by
    rw [Value.reduce, Value.reduce, reduceItems_reduceItems items, Value.reducedKind_reducedKind]
  | .time _ => rfl
  | .symbolic e => by rw [Value.reduce, Value.reduce, reduceExpr_reduceExpr e]

theorem reduceItems_reduceItems : ∀ vs : List Value,
    Value.reduceItems (Value.reduceItems vs) = Value.reduceItems vs
  | [] => rfl
  | v :: vs => by
    rw [Value.reduceItems, Value.reduceItems, Value.reduce_reduce v, reduceItems_reduceItems vs]

theorem reduceExpr_reduceExpr : ∀ e : Expr,
    Value.reduceExpr (Value.reduceExpr e) = Value.reduceExpr e
  | .var _ => rfl
  | .const v => by rw [Value.reduceExpr, Value.reduceExpr, Value.reduce_reduce v]
  | .apply _ args => by rw [Value.reduceExpr, Value.reduceExpr, reduceArgs_reduceArgs args]

theorem reduceArgs_reduceArgs : ∀ es : List Expr,
    Value.reduceArgs (Value.reduceArgs es) = Value.reduceArgs es
  | [] => rfl
  | e :: es => by
    rw [Value.reduceArgs, Value.reduceArgs, reduceExpr_reduceExpr e, reduceArgs_reduceArgs es]

end

/-! ## 3. Conversions and lists -/

namespace Value

theorem canonical_ofValue {v : Value} (h : v.Canonical) : (Expr.ofValue v).Canonical := by
  cases v with
  | symbolic e => simpa [Expr.ofValue] using h
  | scalar _ | matrix _ | list _ _ | time _ => simpa only [Expr.ofValue, Expr.Canonical] using h

/-- Widening gives a value of the wanted kind. -/
theorem widen_kind {digits : Nat} {v w : Value} {target : Kind}
    (h : v.widen digits target = .ok w) : w.kind = target := by
  unfold widen at h
  split at h
  · cases h
    assumption
  · split at h
    all_goals first
      | contradiction
      | (cases h; rfl)
      | (obtain ⟨x, _, rfl⟩ := map_eq_ok.mp h; rfl)

theorem canonical_widen {digits : Nat} {v : Value} {target : Kind} (h : v.Canonical) :
    Yields Canonical (v.widen digits target) := by
  unfold widen
  split
  · simpa
  · split
    all_goals simp [canonical_ofValue h, rational, float, complex]

theorem mapM_eq_ok {α β : Type} {f : α → Except Error β} {xs : List α} {ys : List β}
    (h : xs.mapM f = .ok ys) :
    (∀ y ∈ ys, ∃ x ∈ xs, f x = .ok y) ∧ ∀ x ∈ xs, ∃ y ∈ ys, f x = .ok y := by
  induction xs generalizing ys with
  | nil =>
    cases h
    simp
  | cons x xs ih =>
    rw [List.mapM_cons] at h
    obtain ⟨y, hy, h⟩ := bind_eq_ok.mp h
    obtain ⟨zs, hzs, h⟩ := bind_eq_ok.mp h
    cases h
    obtain ⟨back, forth⟩ := ih hzs
    constructor
    · intro w hw
      rcases List.mem_cons.mp hw with rfl | hw
      · exact ⟨x, by simp, hy⟩
      · obtain ⟨v, hv, h⟩ := back w hw
        exact ⟨v, List.mem_cons_of_mem _ hv, h⟩
    · intro v hv
      rcases List.mem_cons.mp hv with rfl | hv
      · exact ⟨y, by simp, hy⟩
      · obtain ⟨w, hw, h⟩ := forth v hv
        exact ⟨w, List.mem_cons_of_mem _ hw, h⟩

/-- An element of a list with a declared kind. Integers are left alone among fractions. -/
def asElement (digits : Nat) (k : Kind) (v : Value) : Except Error Value :=
  if k = .rational ∧ v.kind = .integer then .ok v else v.widen digits k

theorem asElement_kind {digits : Nat} {k : Kind} {v w : Value}
    (h : asElement digits k v = .ok w) : w.kind = k ∨ k = .rational ∧ w = v := by
  unfold asElement at h
  split at h
  · rename_i hk
    cases h
    exact .inr ⟨hk.1, rfl⟩
  · exact .inl (widen_kind h)

theorem elementsFit_asElements {digits : Nat} {k : Kind} {v : Value} {vs ws : List Value}
    (hk : elementKind v.kind vs = .ok k) (h : (v :: vs).mapM (asElement digits k) = .ok ws) :
    ElementsFit k ws := by
  obtain ⟨back, forth⟩ := mapM_eq_ok h
  obtain ⟨mem, widens⟩ : Kind.Widest ((v :: vs).map kind) k := (elementKind_eq_ok_iff.mp hk).1
  by_cases hr : k = .rational
  · subst hr
    have exact (x : Value) (hx : x ∈ v :: vs) : x.kind.isExact :=
      Kind.isExact_of_widensTo (widens _ (List.mem_map_of_mem hx))
    obtain ⟨x, hx, hxk⟩ := List.mem_map.mp mem
    refine ⟨fun w hw => ?_, ?_⟩
    · obtain ⟨y, hy, he⟩ := back w hw
      rcases asElement_kind he with h | ⟨_, rfl⟩
      · simp [h, Kind.isExact]
      · exact exact w hy
    · obtain ⟨w, hw, he⟩ := forth x hx
      refine ⟨w, hw, ?_⟩
      rcases asElement_kind he with h | ⟨_, rfl⟩
      · exact h
      · exact hxk
  · have same : ∀ w ∈ ws, w.kind = k := by
      intro w hw
      obtain ⟨y, hy, he⟩ := back w hw
      exact (asElement_kind he).resolve_right fun h => hr h.1
    cases k <;> first | exact same | exact absurd rfl hr

/-- A list that is made of some values. Its kind is the widest one, and its elements are the values
as that kind has them. -/
structure Listing (digits : Nat) (items : List Value) (k : Kind) (ws : List Value) : Prop where
  widest : items ≠ [] → Kind.Widest (items.map kind) k
  empty : ws = [] → k = .integer
  fit : ElementsFit k ws
  origin : ∀ w ∈ ws, ∃ v ∈ items, asElement digits k v = .ok w

theorem listing_of_ofItems {digits : Nat} {items : List Value} {w : Value}
    (h : ofItems digits items = .ok w) : ∃ k ws, w = list k ws ∧ Listing digits items k ws := by
  cases items with
  | nil =>
    cases h
    exact ⟨.integer, [], rfl, absurd rfl, fun _ => rfl, nofun, nofun⟩
  | cons v vs =>
    obtain ⟨k, hk, h⟩ := bind_eq_ok.mp h
    obtain ⟨ws, hws, h⟩ := bind_eq_ok.mp h
    cases h
    obtain ⟨back, forth⟩ := mapM_eq_ok hws
    obtain ⟨x, hx, _⟩ := forth v List.mem_cons_self
    exact ⟨k, ws, rfl, fun _ => (elementKind_eq_ok_iff.mp hk).1,
      fun none => absurd (none ▸ hx) List.not_mem_nil, elementsFit_asElements hk hws, back⟩

/-- What holds of some values, and still of those that are widened, holds of the elements of their
list. -/
theorem Listing.each {digits : Nat} {items : List Value} {k : Kind} {ws : List Value}
    {P : Value → Prop} (h : Listing digits items k ws) (given : ∀ v ∈ items, P v)
    (widened : ∀ v ∈ items, ¬ (k = .rational ∧ v.kind = .integer) → Yields P (v.widen digits k)) :
    ∀ w ∈ ws, P w := by
  intro w hw
  obtain ⟨v, hv, run⟩ := h.origin w hw
  unfold asElement at run
  split at run
  · cases run
    exact given w hv
  · rename_i other
    exact widened v hv other w run

/-- The list of canonical values is canonical. -/
theorem canonical_ofItems {digits : Nat} {items : List Value} (h : ∀ v ∈ items, v.Canonical) :
    Yields Canonical (ofItems digits items) := by
  intro w hw
  obtain ⟨k, ws, rfl, listing⟩ := listing_of_ofItems hw
  exact canonical_list.mpr ⟨listing.fit, listing.each h fun v hv _ => canonical_widen (h v hv)⟩

/-- A list is reduced if its elements are. -/
theorem reduce_list {k : Kind} {items : List Value} (fit : ElementsFit k items)
    (reduced : ∀ v ∈ items, v.reduce = v) : (list k items).reduce = list k items := by
  have same : reduceItems items = items := by
    rw [reduceItems_eq_map]
    exact (List.map_congr_left reduced).trans (List.map_id items)
  have kept : reducedKind k items = k := by
    -- Among fractions one is broken, or the list would be one of integers.
    refine if_neg ?_
    rintro ⟨rfl, none⟩
    obtain ⟨v, hv, fraction⟩ := fit.2
    simpa [fraction] using List.all_eq_true.mp none v hv
  rw [reduce, same, kept]

end Value
end StackCalc
