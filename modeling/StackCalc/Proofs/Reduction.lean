import Mathlib.Data.List.Forall2
import StackCalc.Proofs.Evaluation
import StackCalc.Proofs.Invariant
import StackCalc.Proofs.Rational

/-! # Reduction to a canonical form

Reduction goes through lists, matrices and the constants of expressions, and changes nothing but the
fractions that are whole. So a value has its structure afterwards, and its numbers, and it has the
one form in which its numbers are written. The kinds that lists declare are found again for the
elements as they are then: `Value.Declared` says of all lists in a value that their kind is that of
their elements, and it is kept wherever values are made. -/

namespace StackCalc

/-! ## 1. Parts of values -/

mutual

/-- All values in a value: the value itself, cells, elements, and constants of expressions. -/
def Value.parts : Value → List Value
  | .scalar x => [.scalar x]
  | .matrix m => .matrix m :: m.cells.map .scalar
  | .list k items => .list k items :: partsOfItems items
  | .time t => [.time t]
  | .symbolic e => .symbolic e :: e.parts

def partsOfItems : List Value → List Value
  | [] => []
  | v :: vs => v.parts ++ partsOfItems vs

/-- All values in the constants of an expression. -/
def Expr.parts : Expr → List Value
  | .var _ => []
  | .const v => v.parts
  | .apply _ args => partsOfArgs args

def partsOfArgs : List Expr → List Value
  | [] => []
  | e :: es => e.parts ++ partsOfArgs es

end

theorem partsOfItems_eq (vs : List Value) : partsOfItems vs = vs.flatMap Value.parts := by
  induction vs with
  | nil => rfl
  | cons v vs ih => rw [partsOfItems, ih, List.flatMap_cons]

theorem partsOfArgs_eq (es : List Expr) : partsOfArgs es = es.flatMap Expr.parts := by
  induction es with
  | nil => rfl
  | cons e es ih => rw [partsOfArgs, ih, List.flatMap_cons]

mutual

/-- Reduction reduces every part where it stands. -/
theorem Value.parts_reduce : ∀ v : Value, v.reduce.parts = v.parts.map Value.reduce
  | .scalar x => rfl
  | .matrix m => by
    simp [Value.reduce, Value.parts, Matrix.cells, Matrix.map, List.map_flatten, Function.comp_def]
  | .list k items => by
    rw [Value.reduce, Value.parts, Value.parts, parts_reduceItems items, List.map_cons,
      Value.reduce]
  | .time t => rfl
  | .symbolic e => by
    rw [Value.reduce, Value.parts, Value.parts, parts_reduceExpr e, List.map_cons, Value.reduce]

theorem parts_reduceItems : ∀ vs : List Value,
    partsOfItems (Value.reduceItems vs) = (partsOfItems vs).map Value.reduce
  | [] => rfl
  | v :: vs => by
    rw [Value.reduceItems, partsOfItems, partsOfItems, List.map_append, Value.parts_reduce v,
      parts_reduceItems vs]

theorem parts_reduceExpr : ∀ e : Expr, (Value.reduceExpr e).parts = e.parts.map Value.reduce
  | .var _ => rfl
  | .const v => by rw [Value.reduceExpr, Expr.parts, Expr.parts, Value.parts_reduce v]
  | .apply _ args => by rw [Value.reduceExpr, Expr.parts, Expr.parts, parts_reduceArgs args]

theorem parts_reduceArgs : ∀ es : List Expr,
    partsOfArgs (Value.reduceArgs es) = (partsOfArgs es).map Value.reduce
  | [] => rfl
  | e :: es => by
    rw [Value.reduceArgs, partsOfArgs, partsOfArgs, List.map_append, parts_reduceExpr e,
      parts_reduceArgs es]

end

/-- A fraction that reduction leaves is not whole. -/
theorem Value.den_of_reduce {v : Value} {q : Rat} (h : v.reduce = rational q) : q.den ≠ 1 := by
  cases v with
  | scalar x =>
    cases x with
    | rational r =>
      intro whole
      unfold Value.reduce Scalar.reduce at h
      dsimp only at h
      split at h
      · cases h
      · rename_i fraction
        cases h
        exact fraction whole
    | integer | float | complex => cases h
  | matrix | list | time | symbolic => cases h

/-! ## 2. Structure and numbers -/

/-- Two scalars that are the same, or exact and for one number. -/
def Scalar.SameNumber (x y : Scalar) : Prop := x = y ∨ ∃ q, x.Denotes q ∧ y.Denotes q

theorem Scalar.sameNumber_reduce (x : Scalar) : x.SameNumber x.reduce := by
  cases x with
  | rational q => exact .inr ⟨q, .rational q, (Denotes.rational q).reduce⟩
  | integer | float | complex => exact .inl rfl

mutual

/-- Values of one structure with the same numbers in the same places. The kinds that lists declare
may differ. -/
inductive Value.Alike : Value → Value → Prop
  | scalar {x y : Scalar} (h : x.SameNumber y) : (Value.scalar x).Alike (.scalar y)
  | matrix {m n : Matrix} (cols : m.cols = n.cols)
      (rows : List.Forall₂ (List.Forall₂ Scalar.SameNumber) m.rows n.rows) :
      (Value.matrix m).Alike (.matrix n)
  | list (k j : Kind) {vs ws : List Value} (h : List.Forall₂ Value.Alike vs ws) :
      (Value.list k vs).Alike (.list j ws)
  | time (t : Time) : (Value.time t).Alike (.time t)
  | symbolic {d e : Expr} (h : d.Alike e) : (Value.symbolic d).Alike (.symbolic e)

/-- Expressions of one structure with the same numbers in the same places. -/
inductive Expr.Alike : Expr → Expr → Prop
  | var (name : String) : (Expr.var name).Alike (.var name)
  | const {v w : Value} (h : v.Alike w) : (Expr.const v).Alike (.const w)
  | apply (name : String) {ds es : List Expr} (h : List.Forall₂ Expr.Alike ds es) :
      (Expr.apply name ds).Alike (.apply name es)

end

mutual

theorem Value.alike_reduce : ∀ v : Value, v.Alike v.reduce
  | .scalar x => .scalar x.sameNumber_reduce
  | .matrix m => by
    refine .matrix rfl (List.forall₂_map_right_iff.mpr (List.forall₂_same.mpr fun r _ => ?_))
    exact List.forall₂_map_right_iff.mpr (List.forall₂_same.mpr fun x _ => x.sameNumber_reduce)
  | .list k items => by
    rw [Value.reduce]
    exact .list _ _ (alike_reduceItems items)
  | .time t => .time t
  | .symbolic e => by
    rw [Value.reduce]
    exact .symbolic (alike_reduceExpr e)

theorem alike_reduceItems : ∀ vs : List Value, List.Forall₂ Value.Alike vs (Value.reduceItems vs)
  | [] => .nil
  | v :: vs => by
    rw [Value.reduceItems]
    exact .cons (Value.alike_reduce v) (alike_reduceItems vs)

theorem alike_reduceExpr : ∀ e : Expr, e.Alike (Value.reduceExpr e)
  | .var name => .var name
  | .const v => by
    rw [Value.reduceExpr]
    exact .const (Value.alike_reduce v)
  | .apply name args => by
    rw [Value.reduceExpr]
    exact .apply name (alike_reduceArgs args)

theorem alike_reduceArgs : ∀ es : List Expr, List.Forall₂ Expr.Alike es (Value.reduceArgs es)
  | [] => .nil
  | e :: es => by
    rw [Value.reduceArgs]
    exact .cons (alike_reduceExpr e) (alike_reduceArgs es)

end

/-! ## 3. Declared kinds -/

/-- The kind that a list declares is the common kind of its elements, or that of fractions with
integers among them. An empty list is one of integers. -/
def Declares (k : Kind) (items : List Value) : Prop :=
  ElementsFit k items ∧ (items = [] → k = .integer)

/-- Every list in a value declares the kind of its elements. -/
def Value.Declared (v : Value) : Prop := ∀ k items, .list k items ∈ v.parts → Declares k items

/-- Every list in the constants of an expression declares the kind of its elements. -/
def Expr.Declared (e : Expr) : Prop := ∀ k items, .list k items ∈ e.parts → Declares k items

theorem Declares.reduce {k : Kind} {items : List Value} (h : Declares k items) :
    Declares (Value.reducedKind k (Value.reduceItems items)) (Value.reduceItems items) := by
  refine ⟨Value.elementsFit_reduce h.1, fun none => ?_⟩
  rw [Value.reduceItems_eq_map, List.map_eq_nil_iff] at none
  rw [h.2 none]
  rfl

namespace Expr

theorem declared_apply {name : String} {args : List Expr} :
    (apply name args).Declared ↔ ∀ e ∈ args, e.Declared := by
  simp only [Declared, parts, partsOfArgs_eq, List.mem_flatMap]
  exact ⟨fun h e he k items mem => h k items ⟨e, he, mem⟩,
    fun h k items ⟨e, he, mem⟩ => h e he k items mem⟩

end Expr

namespace Value

theorem declared_scalar (x : Scalar) : (scalar x).Declared := by
  simp [Declared, parts]

theorem declared_matrix (m : Matrix) : (matrix m).Declared := by
  simp [Declared, parts]

theorem declared_time (t : Time) : (time t).Declared := by
  simp [Declared, parts]

theorem declared_list {k : Kind} {items : List Value} :
    (list k items).Declared ↔ Declares k items ∧ ∀ v ∈ items, v.Declared := by
  simp only [Declared, parts, partsOfItems_eq, List.mem_cons, List.mem_flatMap, list.injEq]
  constructor
  · exact fun h => ⟨h k items (.inl ⟨rfl, rfl⟩),
      fun v hv j others mem => h j others (.inr ⟨v, hv, mem⟩)⟩
  · rintro ⟨own, each⟩ j others (⟨rfl, rfl⟩ | ⟨v, hv, mem⟩)
    · exact own
    · exact each v hv j others mem

theorem declared_symbolic {e : Expr} : (symbolic e).Declared ↔ e.Declared := by
  simp [Declared, Expr.Declared, parts]

theorem Declared.ofValue {v : Value} (h : v.Declared) : (Expr.ofValue v).Declared := by
  cases v with
  | symbolic e => exact declared_symbolic.mp h
  | scalar | matrix | list | time => exact h

theorem Declared.reduce {v : Value} (h : v.Declared) : v.reduce.Declared := by
  intro k items mem
  rw [parts_reduce] at mem
  obtain ⟨w, hw, reduced⟩ := List.mem_map.mp mem
  cases w with
  | list j others =>
    rw [Value.reduce] at reduced
    cases reduced
    exact (h j others hw).reduce
  | scalar | matrix | time | symbolic => cases reduced

theorem Declared.widen {digits : Nat} {v : Value} {target : Kind} (h : v.Declared) :
    Yields Declared (v.widen digits target) := by
  unfold Value.widen
  split
  · exact yields_ok.mpr h
  · split
    all_goals simp [declared_scalar, declared_symbolic, h.ofValue, rational, float, complex]

/-- A list that is made of some values declares the widest of their kinds. -/
theorem declared_ofItems {digits : Nat} {items : List Value} (h : ∀ v ∈ items, v.Declared) :
    Yields Declared (ofItems digits items) := by
  intro w hw
  obtain ⟨k, ws, rfl, listing⟩ := listing_of_ofItems hw
  exact declared_list.mpr
    ⟨⟨listing.fit, listing.empty⟩, listing.each h fun v hv _ => (h v hv).widen⟩

end Value

mutual

theorem Value.Constructed.declared : ∀ {v : Value}, v.Constructed → v.Declared
  | _, .scalar x => Value.declared_scalar x
  | _, .matrix m => Value.declared_matrix m
  | _, .time t => Value.declared_time t
  | _, .ofItems h hv => Value.declared_ofItems (fun w hw => (h w hw).declared) _ hv
  | _, .reduced h => h.declared.reduce
  | _, .symbolic h => Value.declared_symbolic.mpr h.declared

theorem Expr.Constructed.declared : ∀ {e : Expr}, e.Constructed → e.Declared
  | _, .var _ => fun _ _ => nofun
  | _, .const h => h.declared
  | _, .apply _ h => Expr.declared_apply.mpr fun e he => (h e he).declared

end

/-! ## 4. The canonical form -/

/-- Reduction is a canonical form. Reducing twice changes nothing, no part of the reduced value is
a whole fraction, its structure is that of the value with the same numbers in the same places, and
every list in it declares the kind of its elements. Exact scalars for one number become one. -/
theorem Value.reduced_form {v : Value} (h : v.Constructed) :
    v.reduce.reduce = v.reduce ∧ (∀ q, rational q ∈ v.reduce.parts → q.den ≠ 1) ∧
    v.Alike v.reduce ∧ (∀ k items, list k items ∈ v.reduce.parts → Declares k items) ∧
    ∀ (x y : Scalar) (q : Rat), x.Denotes q → y.Denotes q →
      (scalar x).reduce = (scalar y).reduce := by
  refine ⟨reduce_reduce v, fun q mem => ?_, alike_reduce v, h.declared.reduce,
    fun x y q hx hy => hx.reduce_eq.trans hy.reduce_eq.symm⟩
  rw [parts_reduce] at mem
  obtain ⟨w, _, reduced⟩ := List.mem_map.mp mem
  exact den_of_reduce reduced

/-- A variable plus a list of two fractions, one of which is whole. -/
def Value.wholeAndHalf : Value :=
  .symbolic (.apply "+" [.var "x", .const (.list .rational [.rational 2, .rational (5 / 2)])])

/-- The whole fraction becomes an integer, and the list remains one of fractions. -/
theorem Value.reduced_form_nested : wholeAndHalf.Constructed ∧
    wholeAndHalf.reduce =
      .symbolic (.apply "+" [.var "x", .const (.list .rational [.integer 2, .rational (5 / 2)])]) ∧
    wholeAndHalf.reduce.reduce = wholeAndHalf.reduce ∧ wholeAndHalf.Alike wholeAndHalf.reduce := by
  have fractions : ∀ w ∈ [Value.rational 2, .rational (5 / 2)], w.Constructed := by
    simp only [List.forall_mem_cons]
    exact ⟨.scalar _, .scalar _, nofun⟩
  have constructed : wholeAndHalf.Constructed := by
    refine .symbolic (.apply "+" ?_)
    simp only [List.forall_mem_cons]
    exact ⟨.var "x", .const (@Constructed.ofItems 10 _ _ fractions rfl), nofun⟩
  obtain ⟨once, _, alike, _⟩ := reduced_form constructed
  refine ⟨constructed, ?_, once, alike⟩
  have whole : (Scalar.rational 2).reduce = .integer 2 := rfl
  have half : (Scalar.rational (5 / 2)).reduce = .rational (5 / 2) := by
    have fraction : (5 / 2 : Rat).den ≠ 1 := by decide +kernel
    exact if_neg fraction
  simp [wholeAndHalf, reduce, reduceExpr, reduceArgs, reduceItems, reducedKind, rational, integer,
    whole, half, kind, Scalar.kind]

end StackCalc
