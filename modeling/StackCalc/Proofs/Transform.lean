import StackCalc.Proofs.Canonical
import StackCalc.Session

/-! # Transforms of operands

What an operation computes is made out of the values of its operands: most results are scalars,
matrices or times, lists come from `ofItems` or are operands that pass through, and an expression
is an operation that is deferred. Whatever these ways of making values keep, operations keep. -/

namespace StackCalc

/-! ## 1. Values made out of others -/

/-- A name that is none of the given ones in lower case. -/
def Avoids (lower : List String) (name : String) : Prop := Text.foldCase name ∉ lower

instance (lower : List String) (name : String) : Decidable (Avoids lower name) :=
  inferInstanceAs (Decidable (_ ∉ _))

/-- The names that the history and calls by name are reached under. -/
def reserved : List String := ["undo", "execute", "exec", "call"]

/-- A name that applications are deferred under. The history and the calls by name never are. -/
abbrev Deferrable (op : String) : Prop := Avoids reserved op

/-- Values made out of those in `S`, in the ways in which operations make them. -/
inductive Value.Made (S : Value → Prop) : Value → Prop
  | given {v : Value} (h : S v) : v.Made S
  | scalar (x : Scalar) : (Value.scalar x).Made S
  | matrix (m : Matrix) : (Value.matrix m).Made S
  | time (t : Time) : (Value.time t).Made S
  | element {k : Kind} {items : List Value} {v : Value} (h : (Value.list k items).Made S)
      (hv : v ∈ items) : v.Made S
  | ofItems {digits : Nat} {items : List Value} {v : Value} (h : ∀ w ∈ items, w.Made S)
      (hv : Value.ofItems digits items = .ok v) : v.Made S
  | expression {v : Value} (h : v.Made S) : (Value.symbolic (.ofValue v)).Made S
  | deferred {op : String} {args : List Value} (hop : Deferrable op) (h : ∀ v ∈ args, v.Made S) :
      (Value.symbolic (.apply op (args.map Expr.ofValue))).Made S

/-- An operand whose value is made out of those in `S`. -/
def Operand.Made (S : Value → Prop) (o : Operand) : Prop := o.value.Made S

variable {S : Value → Prop}

@[simp]
theorem Operand.made_mk {v : Value} {u : UnitProduct} :
    (⟨v, u⟩ : Operand).Made S ↔ v.Made S := Iff.rfl

@[simp]
theorem Operand.made_plain {v : Value} : (Operand.plain v).Made S ↔ v.Made S := Iff.rfl

namespace Value

@[simp]
theorem made_scalar (x : Scalar) : (scalar x).Made S := .scalar x

@[simp]
theorem made_time (t : Time) : (time t).Made S := .time t

theorem made_widen {digits : Nat} {v : Value} {target : Kind} (h : v.Made S) :
    Yields (Made S) (v.widen digits target) := by
  unfold widen
  split
  · simpa
  · split
    · exact yields_ok.mpr (.expression h)
    all_goals simp [rational, float, complex]

/-- Narrowing gives the value itself or a scalar. -/
theorem narrow_eq_some {v w : Value} {target : Kind} (hw : v.narrow? target = some w) :
    w = v ∨ ∃ x, w = scalar x := by
  unfold narrow? at hw
  split at hw
  · cases hw
    exact .inl rfl
  · split at hw
    · split at hw
      · obtain ⟨x, _, rfl⟩ := Option.map_eq_some_iff.mp hw
        exact .inr ⟨x, rfl⟩
      · cases hw
    · obtain ⟨x, _, rfl⟩ := Option.map_eq_some_iff.mp hw
      exact .inr ⟨x, rfl⟩
    · cases hw

theorem made_narrow {v w : Value} {target : Kind} (h : v.Made S)
    (hw : v.narrow? target = some w) : w.Made S := by
  rcases narrow_eq_some hw with rfl | ⟨x, rfl⟩
  · exact h
  · exact .scalar x

theorem Made.mono {T : Value → Prop} (hS : ∀ v, S v → T v) {v : Value} (h : v.Made S) :
    v.Made T := by
  induction h with
  | given h => exact .given (hS _ h)
  | scalar x => exact .scalar x
  | matrix m => exact .matrix m
  | time t => exact .time t
  | element _ hv ih => exact .element ih hv
  | ofItems _ hv ih => exact .ofItems ih hv
  | expression _ ih => exact .expression ih
  | deferred hop _ ih => exact .deferred hop ih

/-- Out of canonical values only canonical ones are made. -/
theorem Made.canonical {v : Value} (h : v.Made Canonical) : v.Canonical := by
  induction h with
  | given h => exact h
  | scalar x => exact canonical_scalar x
  | matrix m => exact canonical_matrix m
  | time t => exact canonical_time t
  | element _ hv ih => exact (canonical_list.mp ih).2 _ hv
  | ofItems _ hv ih => exact canonical_ofItems ih _ hv
  | expression _ ih => exact canonical_symbolic.mpr (canonical_ofValue ih)
  | deferred _ _ ih =>
    rw [canonical_symbolic, Expr.Canonical, canonicalArgs_iff]
    intro e he
    obtain ⟨v, hv, rfl⟩ := List.mem_map.mp he
    exact canonical_ofValue (ih v hv)

end Value

/-! ## 2. Signatures -/

namespace Signature

/-- A transform whose results are made out of what its operands are made out of. -/
def Transform.Makes (S : Value → Prop) (f : Transform) : Prop :=
  ∀ settings os, (∀ o ∈ os, o.Made S) → Yields (Operand.Made S) (f settings os)

theorem made_convert {digits : Nat} {v : Value} {target : Kind} (h : v.Made S) :
    Yields (Value.Made S) (convert digits v target) := by
  unfold convert
  split
  · split
    · split
      · exact yields_ok.mpr (Value.made_narrow h (by assumption))
      · exact yields_error
    · exact Value.made_widen h
  · exact Value.made_widen h

/-- A conversion takes every operand to one of the wanted kind, with the same unit. -/
theorem tryConversion_eq_some {digits : Nat} {os rs : List Operand} {c : Conversion}
    (hr : tryConversion digits os c = some rs) :
    ∀ r ∈ rs, ∃ o ∈ os, convert digits o.value c.target = .ok r.value ∧ r.unit = o.unit := by
  unfold tryConversion at hr
  split at hr
  · intro r hmem
    cases hm : os.mapM fun (o : Operand) =>
        (convert digits o.value c.target).map fun v => (⟨v, o.unit⟩ : Operand) with
    | error e =>
      rw [hm] at hr
      cases hr
    | ok _ =>
      rw [hm] at hr
      cases hr
      obtain ⟨o, ho, hc⟩ := (Value.mapM_eq_ok hm).1 r hmem
      obtain ⟨v, hv, rfl⟩ := map_eq_ok.mp hc
      exact ⟨o, ho, hv, rfl⟩
  · cases hr

/-- Operands are taken as they are, or after one of the conversions. -/
theorem resolve_eq_ok {s : Signature} {op : String} {digits : Nat} {os rs : List Operand}
    (h : s.resolve op digits os = .ok rs) :
    rs = os ∨ ∃ c ∈ s.conversions, tryConversion digits os c = some rs := by
  unfold resolve at h
  split at h
  · cases h
    exact .inl rfl
  · dsimp only at h
    split at h
    · rename_i hrs
      cases h
      split at hrs
      · exact .inr (List.exists_of_findSome?_eq_some hrs)
      · cases hrs
    · cases h

theorem made_resolve {s : Signature} {op : String} {digits : Nat} {os : List Operand}
    (h : ∀ o ∈ os, o.Made S) :
    Yields (fun rs => ∀ r ∈ rs, r.Made S) (s.resolve op digits os) := by
  intro rs hrs
  rcases resolve_eq_ok hrs with rfl | ⟨c, _, hc⟩
  · exact h
  · intro r hr
    obtain ⟨o, ho, hv, _⟩ := tryConversion_eq_some hc r hr
    exact made_convert (h o ho) _ hv

/-- A deferred application holds its operands as they are. -/
theorem made_defer {op : String} {os : List Operand} (hop : Deferrable op)
    (h : ∀ o ∈ os, o.Made S) : Yields (Operand.Made S) (defer op os) := by
  unfold defer
  simp only [forIn_eq_forM, yields_bind, yields_pure, Operand.made_plain]
  intro _ _
  have deferred : (Value.symbolic (.apply op ((os.map Operand.value).map Expr.ofValue))).Made S :=
    .deferred hop (List.forall_mem_map.mpr h)
  simpa only [List.map_map, Function.comp_def] using deferred

theorem mem_rows {n : Nat} {columns : List (List Operand)} {row : List Operand} {o : Operand}
    (hrow : row ∈ rows n columns) (ho : o ∈ row) : ∃ column ∈ columns, o ∈ column := by
  induction columns generalizing row with
  | nil =>
    have := List.eq_of_mem_replicate hrow
    subst this
    cases ho
  | cons column columns ih =>
    have hrow : row ∈ List.zipWith List.cons column (rows n columns) := hrow
    rw [← List.map_uncurry_zip_eq_zipWith] at hrow
    obtain ⟨⟨p, rest⟩, hp, rfl⟩ := List.mem_map.mp hrow
    obtain ⟨hcol, hrest⟩ := List.of_mem_zip hp
    rcases List.mem_cons.mp ho with rfl | ho
    · exact ⟨column, by simp, hcol⟩
    · obtain ⟨c, hc, hoc⟩ := ih hrest ho
      exact ⟨c, List.mem_cons_of_mem _ hc, hoc⟩

theorem made_spread {n : Nat} {o p : Operand} (h : o.Made S) (hp : p ∈ o.spread n) :
    p.Made S := by
  unfold Operand.spread at hp
  split at hp
  · rename_i k items hv
    obtain ⟨v, hmem, rfl⟩ := List.mem_map.mp hp
    unfold Operand.Made at h
    rw [hv] at h
    exact .element h hmem
  · rw [List.eq_of_mem_replicate hp]
    exact h

theorem made_overElements {op : String} {digits : Nat}
    {f : List Operand → Except Error Operand} {os : List Operand}
    (hf : ∀ row, (∀ o ∈ row, o.Made S) → Yields (Operand.Made S) (f row))
    (h : ∀ o ∈ os, o.Made S) : Yields (Operand.Made S) (overElements op digits f os) := by
  unfold overElements
  split
  · exact yields_throw
  · rename_i n sizes _
    dsimp only
    split
    · exact yields_throw
    · intro r hr
      obtain ⟨results, hresults, hr⟩ := bind_eq_ok.mp hr
      obtain ⟨list, hlist, hr⟩ := bind_eq_ok.mp hr
      cases hr
      refine Value.Made.ofItems (fun v hv => ?_) hlist
      obtain ⟨o, ho, rfl⟩ := List.mem_map.mp hv
      obtain ⟨row, hrow, hf'⟩ := (Value.mapM_eq_ok hresults).1 o ho
      refine hf row (fun p hp => ?_) o hf'
      obtain ⟨column, hcolumn, hpc⟩ := mem_rows hrow hp
      obtain ⟨q, hq, rfl⟩ := List.mem_map.mp hcolumn
      exact made_spread (h q hq) hpc

theorem made_applyWithin {s : Signature} {op : String} {f : Transform} {settings : Settings}
    (hop : Deferrable op) (hf : f.Makes S) (depth : Nat) :
    ∀ os : List Operand, (∀ o ∈ os, o.Made S) →
      Yields (Operand.Made S) (s.applyWithin op f settings depth os) := by
  induction depth with
  | zero =>
    intro os h
    unfold applyWithin
    split
    · exact made_defer hop h
    · split
      · exact yields_error
      · exact yields_bind.mpr ((made_resolve h).mono fun rs hrs => hf settings rs hrs)
  | succ depth ih =>
    intro os h
    unfold applyWithin
    split
    · exact made_defer hop h
    · split
      · exact made_overElements ih h
      · exact yields_bind.mpr ((made_resolve h).mono fun rs hrs => hf settings rs hrs)

/-- What an operation gives through its signature is made out of what its operands are. -/
theorem made_apply {s : Signature} {op : String} {f : Transform} {settings : Settings}
    (hop : Deferrable op) (hf : f.Makes S) {os : List Operand} (h : ∀ o ∈ os, o.Made S) :
    Yields (Operand.Made S) (s.apply op f settings os) :=
  made_applyWithin hop hf _ os h

end Signature

/-! ## 3. Values computed from others -/

/-- What operations compute from operands in `S`: scalars, matrices, times, the shape of a matrix,
and operands that pass through. Computing never makes an expression. -/
inductive Value.Computed (S : Value → Prop) : Value → Prop
  | given {v : Value} (h : S v) : v.Computed S
  | scalar (x : Scalar) : (Value.scalar x).Computed S
  | matrix (m : Matrix) : (Value.matrix m).Computed S
  | time (t : Time) : (Value.time t).Computed S
  | shape (rows cols : Int) :
      (Value.list .integer [.integer rows, .integer cols]).Computed S

/-- An operand whose value is computed from those in `S`. -/
def Operand.Computed (S : Value → Prop) (o : Operand) : Prop := o.value.Computed S

@[simp]
theorem Operand.computed_mk {v : Value} {u : UnitProduct} :
    (⟨v, u⟩ : Operand).Computed S ↔ v.Computed S := Iff.rfl

@[simp]
theorem Operand.computed_plain {v : Value} : (Operand.plain v).Computed S ↔ v.Computed S := Iff.rfl

namespace Value

@[simp]
theorem computed_scalar (x : Scalar) : (scalar x).Computed S := .scalar x

@[simp]
theorem computed_matrix (m : Matrix) : (matrix m).Computed S := .matrix m

@[simp]
theorem computed_time (t : Time) : (time t).Computed S := .time t

/-- What is computed from values is made out of them. -/
theorem Computed.made {v : Value} (h : v.Computed (Made S)) : v.Made S := by
  cases h with
  | given h => exact h
  | scalar x => exact .scalar x
  | matrix m => exact .matrix m
  | time t => exact .time t
  | shape rows cols =>
    have cells : ∀ w ∈ [Value.integer rows, .integer cols], w.Made S := by simp [integer]
    exact @Made.ofItems S 0 _ _ cells rfl

/-- A value that is no expression. -/
def Concrete (v : Value) : Prop := v.kind ≠ .symbolic

instance (v : Value) : Decidable v.Concrete := inferInstanceAs (Decidable (_ ≠ _))

@[simp]
theorem concrete_scalar (x : Scalar) : (scalar x).Concrete := by
  cases x <;> simp [Concrete, kind, Scalar.kind]

/-- What is computed from values that are no expressions is none either. -/
theorem Computed.concrete {v : Value} (h : v.Computed Concrete) : v.Concrete := by
  cases h with
  | given h => exact h
  | scalar x => exact concrete_scalar x
  | matrix m => simp [Concrete, kind]
  | time t => simp [Concrete, kind]
  | shape rows cols => simp [Concrete, kind]

end Value

/-- A transform whose results are computed from its operands. -/
def Signature.Transform.Computes (f : Transform) : Prop :=
  ∀ (S : Value → Prop) settings os, (∀ o ∈ os, S o.value) →
    Yields (Operand.Computed S) (f settings os)

theorem Signature.Transform.Computes.makes {f : Transform} (hf : f.Computes) : f.Makes S :=
  fun settings os h => (hf _ settings os h).mono fun _ => Value.Computed.made

namespace Value

theorem computed_onScalars {op : String} {f : Scalar → Scalar → Except Error Scalar}
    {x y : Value} : Yields (Computed S) (onScalars op f x y) := by
  unfold onScalars
  split <;> simp

theorem computed_neg {v : Value} : Yields (Computed S) v.neg := by
  unfold neg
  split <;> simp

theorem computed_abs {v : Value} : Yields (Computed S) v.abs := by
  unfold abs
  split <;> simp

theorem computed_sqrt {digits : Nat} {v : Value} : Yields (Computed S) (v.sqrt digits) := by
  unfold sqrt
  split <;> simp

theorem computed_modulo {digits : Nat} {x y : Value} : Yields (Computed S) (x.modulo digits y) := by
  unfold modulo
  split
  · exact yields_error
  · exact computed_onScalars

theorem computed_powInt {digits : Nat} {v : Value} {e : Int} :
    Yields (Computed S) (v.powInt digits e) := by
  unfold powInt powIntOther
  split
  · simp
  · (repeat' split) <;> simp [integer]

theorem computed_pow {digits : Nat} {x y : Value} : Yields (Computed S) (pow digits x y) := by
  unfold pow
  split
  · exact computed_powInt
  all_goals simp

theorem computed_round {op : String} {mode : RoundingMode} {v : Value} :
    Yields (Computed S) (v.round op mode) := by
  unfold round
  split <;> simp [integer, float]

theorem computed_fractionPart {op : String} {v : Value} :
    Yields (Computed S) (v.fractionPart op) := by
  unfold fractionPart
  split <;> simp [integer, rational, float]

end Value

/-! ## 4. Operands -/

namespace Operand

theorem computed_add {s : Settings} {a b : Operand} : Yields (Computed S) (add s a b) := by
  simp only [add, yields_bind]
  intro unit _
  split <;> simp [Value.add, Value.computed_onScalars]

theorem computed_sub {s : Settings} {a b : Operand} : Yields (Computed S) (sub s a b) := by
  simp only [sub, yields_bind]
  intro unit _
  split <;> simp [Value.sub, Value.computed_onScalars]

theorem computed_scaleTime {t : Time} {v : Value} : Yields (Value.Computed S) (scaleTime t v) := by
  simp [scaleTime]

theorem computed_mul {s : Settings} {a b : Operand} : Yields (Computed S) (mul s a b) := by
  simp only [mul, yields_bind]
  intro unit _
  split <;> simp [Value.mul, Value.computed_onScalars, computed_scaleTime]

theorem computed_divideTime {t : Time} {v : Value} :
    Yields (Value.Computed S) (divideTime t v) := by
  simp only [divideTime, yields_bind]
  intro q _
  split <;> simp

theorem computed_div {s : Settings} {a b : Operand} : Yields (Computed S) (div s a b) := by
  simp only [div, yields_bind]
  intro unit _
  split <;> simp [Value.div, Value.rational, Value.computed_onScalars, computed_divideTime]

theorem computed_neg {s : Settings} {a : Operand} : Yields (Computed S) (neg s a) := by
  unfold neg
  split <;> simp [Value.computed_neg]

theorem computed_inv {s : Settings} {a : Operand} : Yields (Computed S) (inv s a) := by
  have value : Yields (Value.Computed S) (a.value.inv (digits s)) := by
    simp [Value.inv, Value.div, Value.computed_onScalars]
  unfold inv
  split
  · simp
  · exact yields_bind.mpr <| value.mono fun _ computed => yields_bind.mpr fun _ _ =>
      yields_pure.mpr computed

theorem computed_abs {s : Settings} {a : Operand} : Yields (Computed S) (abs s a) := by
  simp [abs, Value.computed_abs]

theorem computed_sqrt {s : Settings} {a : Operand} : Yields (Computed S) (sqrt s a) := by
  simp only [sqrt, yields_bind]
  intro root _
  split <;> simp [Value.computed_sqrt]

theorem computed_pow {s : Settings} {a b : Operand} : Yields (Computed S) (pow s a b) := by
  simp only [pow, yields_bind]
  intro _ _ unit _
  split <;> simp [Value.computed_pow]

theorem computed_modulo {s : Settings} {a b : Operand} : Yields (Computed S) (modulo s a b) := by
  simp only [modulo, yields_bind]
  intro unit _
  simp [Value.computed_modulo]

theorem computed_floorDiv {s : Settings} {a b : Operand} :
    Yields (Computed S) (floorDiv s a b) := by
  simp only [floorDiv, yields_bind]
  intro _ _ _ _ _ _ _ _
  simp [Value.integer]

theorem computed_extreme {wanted : Ordering} {s : Settings} {a b : Operand} (ha : a.Computed S)
    (hb : b.Computed S) : Yields (Computed S) (extreme wanted s a b) := by
  simp only [extreme, yields_bind]
  intro unit _
  split
  · exact yields_throw
  · rw [yields_pure, computed_mk]
    split
    · exact ha
    · exact hb

@[simp]
theorem computed_truth (b : Bool) : (truth b).Computed S := by
  simp [truth, Value.integer]

end Operand

/-! ## 5. Operands that are no expressions -/

namespace Value

theorem concrete_narrow {v w : Value} {target : Kind} (h : v.Concrete)
    (hw : v.narrow? target = some w) : w.Concrete := by
  rcases narrow_eq_some hw with rfl | ⟨x, rfl⟩
  · exact h
  · exact concrete_scalar x

theorem concrete_ofItems {digits : Nat} {items : List Value} :
    Yields Concrete (ofItems digits items) := by
  cases items with
  | nil => simp [ofItems, Concrete, kind]
  | cons v vs => simp [ofItems, Concrete, kind]

end Value

/-- An operand that is no expression. -/
def Operand.Concrete (o : Operand) : Prop := o.value.Concrete

instance (o : Operand) : Decidable o.Concrete := inferInstanceAs (Decidable o.value.Concrete)

namespace Signature

/-- A signature that converts no operand to an expression. -/
def Concrete (s : Signature) : Prop := ∀ c ∈ s.conversions, c.target ≠ .symbolic

instance (s : Signature) : Decidable s.Concrete := inferInstanceAs (Decidable (∀ _ ∈ _, _))

variable {s : Signature} {op : String} {digits : Nat} {os rs : List Operand}

theorem concrete_convert {v : Value} {target : Kind} (h : v.Concrete) (ht : target ≠ .symbolic) :
    Yields Value.Concrete (convert digits v target) := by
  have widened : Yields Value.Concrete (v.widen digits target) := fun w hw => by
    rw [Value.Concrete, Value.widen_kind hw]
    exact ht
  unfold convert
  split
  · split
    · split
      · exact yields_ok.mpr (Value.concrete_narrow h ‹_›)
      · exact yields_error
    · exact widened
  · exact widened

theorem concrete_resolve (hs : s.Concrete) (h : ∀ o ∈ os, o.Concrete) :
    Yields (fun rs => ∀ r ∈ rs, r.Concrete) (s.resolve op digits os) := by
  intro rs hrs
  rcases resolve_eq_ok hrs with rfl | ⟨c, hc, hconv⟩
  · exact h
  · intro r hr
    obtain ⟨o, ho, hv, _⟩ := tryConversion_eq_some hconv r hr
    exact concrete_convert (h o ho) (hs c hc) _ hv

theorem concrete_overElements {f : List Operand → Except Error Operand} :
    Yields Operand.Concrete (overElements op digits f os) := by
  unfold overElements
  split
  · exact yields_throw
  · dsimp only
    split
    · exact yields_throw
    · intro r hr
      obtain ⟨results, _, hr⟩ := bind_eq_ok.mp hr
      obtain ⟨list, hlist, hr⟩ := bind_eq_ok.mp hr
      cases hr
      exact Value.concrete_ofItems _ hlist

/-- Where operands are no expressions, what is computed from them is none either: lists give lists,
and nothing is deferred. -/
theorem concrete_apply {f : Transform} {settings : Settings} (hs : s.Concrete) (hf : f.Computes)
    (h : ∀ o ∈ os, o.Concrete) : Yields Operand.Concrete (s.apply op f settings os) := by
  have resolved : Yields Operand.Concrete
      (s.resolve op settings.style.precision os >>= f settings) := by
    refine yields_bind.mpr ((concrete_resolve hs h).mono fun rs hrs => ?_)
    exact (hf _ settings rs hrs).mono fun _ => Value.Computed.concrete
  unfold apply applyWithin
  split
  · rename_i deferred
    obtain ⟨_, symbolic⟩ := Bool.and_eq_true_iff.mp deferred
    obtain ⟨o, ho, hk⟩ := List.any_eq_true.mp symbolic
    exact absurd (of_decide_eq_true hk) (h o ho)
  · split
    · split
      · exact yields_error
      · exact concrete_overElements
    · exact resolved

end Signature
end StackCalc
