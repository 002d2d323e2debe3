import StackCalc.Proofs.Broadcast

/-! # Settled values

A value is settled if no expression stands anywhere in it and it is as it is stored without a word.
What sums and products compute from operands without expressions is settled, over lists as well,
and the name of the operation shows in its errors only. -/

namespace StackCalc

/-! ## 1. Results without their errors -/

section
variable {ε α β : Type}

theorem toOption_bind {x : Except ε α} {f : α → Except ε β} :
    (x >>= f).toOption = x.toOption.bind fun a => (f a).toOption := by
  cases x <;> rfl

theorem toOption_map {x : Except ε α} {f : α → β} :
    (x.map f).toOption = x.toOption.map f := by
  cases x <;> rfl

theorem toOption_eq_none {x : Except ε α} : x.toOption = none ↔ ∃ e, x = .error e := by
  cases x <;> simp [Except.toOption]

theorem toOption_eq_some {x : Except ε α} {a : α} : x.toOption = some a ↔ x = .ok a := by
  cases x <;> simp [Except.toOption]

theorem toOption_mapM_congr {f g : α → Except ε β} {as : List α}
    (h : ∀ a ∈ as, (f a).toOption = (g a).toOption) :
    (as.mapM f).toOption = (as.mapM g).toOption := by
  induction as with
  | nil => rfl
  | cons a as ih =>
    obtain ⟨ha, has⟩ := List.forall_mem_cons.mp h
    simp only [List.mapM_cons, toOption_bind, ha, ih has]

theorem toOption_foldlM {f : β → α → Except ε β} {as : List α} {b : β} :
    (as.foldlM f b).toOption = as.foldlM (fun b a => (f b a).toOption) b := by
  induction as generalizing b with
  | nil => rfl
  | cons a as ih =>
    rw [List.foldlM_cons, List.foldlM_cons, toOption_bind]
    exact congrArg _ (funext fun c => ih)

end

/-! ## 2. Values without expressions -/

mutual

/-- Whether no expression stands in a value, at any depth. -/
def Value.symbolFree : Value → Bool
  | .list _ items => symbolFreeItems items
  | .symbolic _ => false
  | _ => true

def symbolFreeItems : List Value → Bool
  | [] => true
  | v :: vs => v.symbolFree && symbolFreeItems vs

end

theorem symbolFreeItems_eq (vs : List Value) : symbolFreeItems vs = vs.all Value.symbolFree := by
  induction vs with
  | nil => rfl
  | cons v vs ih => rw [symbolFreeItems, ih, List.all_cons]

namespace Value

@[simp]
theorem symbolFree_list {k : Kind} {items : List Value} :
    (list k items).symbolFree = true ↔ ∀ v ∈ items, v.symbolFree = true := by
  rw [symbolFree, symbolFreeItems_eq, List.all_eq_true]

theorem symbolFree_concrete {v : Value} (h : v.symbolFree = true) : v.Concrete := by
  cases v with
  | symbolic e => cases h
  | scalar x => exact concrete_scalar x
  | matrix | list | time => simp [Concrete, kind]

/-- A value is without expressions and as it is stored without a word. -/
structure Settled (v : Value) : Prop where
  reduced : v.reduce = v
  symbolFree : v.symbolFree = true

theorem settled_scalar {x : Scalar} (h : x.reduce = x) : (scalar x).Settled :=
  ⟨congrArg scalar h, rfl⟩

theorem settled_integer (n : Int) : (integer n).Settled := settled_scalar rfl

theorem settled_matrix {m : Matrix} (h : ∀ row ∈ m.rows, ∀ x ∈ row, x.reduce = x) :
    (matrix m).Settled := by
  have same : m.map Scalar.reduce = m := by
    obtain ⟨cols, rows, rectangular⟩ := m
    have rowsSame : rows.map (fun row => row.map Scalar.reduce) = rows :=
      List.map_congr_left (fun row hrow => List.map_congr_left (h row hrow) |>.trans
        (List.map_id row)) |>.trans (List.map_id rows)
    simp only [Matrix.map, rowsSame]
  exact ⟨congrArg matrix same, rfl⟩

theorem settled_time (t : Time) : (time t).Settled := ⟨rfl, rfl⟩

/-- Widening a settled value to the kind of a list settles it, but for an integer among
fractions. -/
theorem settled_widen {digits : Nat} {v : Value} {k : Kind} (h : v.Settled) (hk : k ≠ .symbolic)
    (other : ¬ (k = .rational ∧ v.kind = .integer)) : Yields Settled (v.widen digits k) := by
  unfold widen
  split
  · exact yields_ok.mpr h
  · split
    all_goals first
      | exact absurd rfl hk
      | exact absurd ⟨rfl, rfl⟩ other
      | exact yields_error
      | exact yields_ok.mpr (settled_scalar rfl)
      | exact yields_map.mpr fun _ _ => settled_scalar rfl

/-- The list of settled values is settled. -/
theorem settled_ofItems {digits : Nat} {items : List Value} (h : ∀ v ∈ items, v.Settled) :
    Yields Settled (ofItems digits items) := by
  intro w hw
  obtain ⟨k, ws, rfl, listing⟩ := listing_of_ofItems hw
  have settled : ∀ w ∈ ws, w.Settled := by
    refine listing.each h fun v hv other => settled_widen (h v hv) ?_ other
    rintro rfl
    obtain ⟨x, hx, expression⟩ := List.mem_map.mp (listing.widest (List.ne_nil_of_mem hv)).1
    exact symbolFree_concrete (h x hx).symbolFree expression
  exact ⟨reduce_list listing.fit fun w hw => (settled w hw).reduced,
    symbolFree_list.mpr fun w hw => (settled w hw).symbolFree⟩

end Value

/-! ## 3. Operations without expressions -/

/-- An operand without expressions in its value. -/
def Operand.SymbolFree (o : Operand) : Prop := o.value.symbolFree = true

/-- An operand whose value is settled. -/
def Operand.Settled (o : Operand) : Prop := o.value.Settled

theorem Operand.SymbolFree.concrete {o : Operand} (h : o.SymbolFree) : o.Concrete :=
  Value.symbolFree_concrete h

/-- Settled operands are what entries of them hold without a word. -/
theorem Operand.Settled.stored {o : Operand} (h : o.Settled) {style : NumberStyle}
    (unbounded : style.wordBits = 0) : o.stored style = o := by
  obtain ⟨v, unit⟩ := o
  rw [stored_mk, Entry.store_unbounded unbounded]
  exact congrArg (Operand.mk · unit) h.reduced

namespace Signature

open Operand

variable {s : Signature} {op op' : String} {digits : Nat} {settings : Settings} {os : List Operand}

theorem symbolFree_spread {n : Nat} {o p : Operand} (h : o.SymbolFree) (hp : p ∈ o.spread n) :
    p.SymbolFree := by
  unfold Operand.spread at hp
  split at hp
  · rename_i k items hv
    obtain ⟨v, hmem, rfl⟩ := List.mem_map.mp hp
    unfold SymbolFree at h
    rw [hv, Value.symbolFree_list] at h
    exact h v hmem
  · rw [List.eq_of_mem_replicate hp]
    exact h

theorem symbolFree_rows {n : Nat} (h : ∀ o ∈ os, o.SymbolFree) :
    ∀ row ∈ rows n (os.map (Operand.spread n)), ∀ o ∈ row, o.SymbolFree := by
  intro row hrow o ho
  obtain ⟨column, hcolumn, hoc⟩ := mem_rows hrow ho
  obtain ⟨q, hq, rfl⟩ := List.mem_map.mp hcolumn
  exact symbolFree_spread (h q hq) hoc

/-- Nothing is deferred. -/
theorem applyWithin_symbolFree {f : Transform} {depth : Nat} (h : ∀ o ∈ os, o.SymbolFree) :
    s.applyWithin op f settings depth os =
      if s.broadcast && os.any fun o => o.kind = .list then
        match depth with
        | 0 => .error (.typeMismatch op (Operand.kindsText os))
        | d + 1 => overElements op settings.style.precision (s.applyWithin op f settings d) os
      else s.resolve op settings.style.precision os >>= f settings := by
  have plain : ¬ (s.deferred && os.any fun o => o.kind = .symbolic) = true := by
    intro deferred
    obtain ⟨o, ho, symbolic⟩ := List.any_eq_true.mp (Bool.and_eq_true_iff.mp deferred).2
    exact (h o ho).concrete (of_decide_eq_true symbolic)
  unfold applyWithin
  exact if_neg plain

theorem settled_overElements {f : List Operand → Except Error Operand}
    (hf : ∀ row, (∀ o ∈ row, o.SymbolFree) → Yields Operand.Settled (f row))
    (h : ∀ o ∈ os, o.SymbolFree) : Yields Operand.Settled (overElements op digits f os) := by
  unfold overElements
  split
  · exact yields_throw
  · dsimp only
    split
    · exact yields_throw
    · intro r hr
      obtain ⟨results, hresults, hr⟩ := bind_eq_ok.mp hr
      obtain ⟨list, hlist, hr⟩ := bind_eq_ok.mp hr
      cases hr
      refine Value.settled_ofItems (fun v hv => ?_) list hlist
      obtain ⟨o, ho, rfl⟩ := List.mem_map.mp hv
      obtain ⟨row, hrow, hr⟩ := (Value.mapM_eq_ok hresults).1 o ho
      exact hf row (symbolFree_rows h row hrow) o hr

/-- Where what is computed is settled, so are results over lists. -/
theorem settled_apply {f : Transform}
    (hf : ∀ os : List Operand, Yields Operand.Settled (f settings os))
    (h : ∀ o ∈ os, o.SymbolFree) : Yields Operand.Settled (s.apply op f settings os) := by
  have within : ∀ (depth : Nat) (os : List Operand), (∀ o ∈ os, o.SymbolFree) →
      Yields Operand.Settled (s.applyWithin op f settings depth os) := by
    intro depth
    induction depth with
    | zero =>
      intro os h
      rw [applyWithin_symbolFree h]
      split
      · exact yields_error
      · exact yields_bind.mpr fun rs _ => hf rs
    | succ depth ih =>
      intro os h
      rw [applyWithin_symbolFree h]
      split
      · exact settled_overElements ih h
      · exact yields_bind.mpr fun rs _ => hf rs
  exact within _ os h

/-! ## 4. The name of an operation -/

theorem toOption_resolve (op op' : String) :
    (s.resolve op digits os).toOption = (s.resolve op' digits os).toOption := by
  unfold resolve
  split
  · rfl
  · dsimp only
    split <;> rfl

theorem toOption_overElements {f g : List Operand → Except Error Operand}
    (hf : ∀ row, (∀ o ∈ row, o.SymbolFree) → (f row).toOption = (g row).toOption)
    (h : ∀ o ∈ os, o.SymbolFree) :
    (overElements op digits f os).toOption = (overElements op' digits g os).toOption := by
  unfold overElements
  split
  · rfl
  · dsimp only
    split
    · rfl
    · rw [toOption_bind, toOption_bind, toOption_mapM_congr fun row hrow =>
        hf row (symbolFree_rows h row hrow)]

/-- Under two names, an operation has the same results, if it fails on the same operands. -/
theorem toOption_apply {f g : Transform}
    (hf : ∀ os : List Operand, (f settings os).toOption = (g settings os).toOption)
    (h : ∀ o ∈ os, o.SymbolFree) :
    (s.apply op f settings os).toOption = (s.apply op' g settings os).toOption := by
  have computed (os : List Operand) :
      (s.resolve op settings.style.precision os >>= f settings).toOption =
        (s.resolve op' settings.style.precision os >>= g settings).toOption := by
    rw [toOption_bind, toOption_bind, toOption_resolve op op']
    exact congrArg _ (funext hf)
  have within : ∀ (depth : Nat) (os : List Operand), (∀ o ∈ os, o.SymbolFree) →
      (s.applyWithin op f settings depth os).toOption =
        (s.applyWithin op' g settings depth os).toOption := by
    intro depth
    induction depth with
    | zero =>
      intro os h
      rw [applyWithin_symbolFree h, applyWithin_symbolFree h]
      split
      · rfl
      · exact computed os
    | succ depth ih =>
      intro os h
      rw [applyWithin_symbolFree h, applyWithin_symbolFree h]
      split
      · exact toOption_overElements ih h
      · exact computed os
  exact within _ os h

end Signature

/-! ## 5. Sums and products -/

namespace Scalar

variable {digits : Nat} {x y : Scalar}

theorem reduced_add : Yields (fun z => z.reduce = z) (add digits x y) := by
  refine yields_bind.mpr fun pair _ => ?_
  cases pair with
  | integers a b => exact yields_pure.mpr rfl
  | rationals a b => exact yields_pure.mpr (reduce_reduce _)
  | floats a b | complexes a b => exact yields_bind.mpr fun _ _ => yields_pure.mpr rfl

theorem reduced_mul : Yields (fun z => z.reduce = z) (mul digits x y) := by
  refine yields_bind.mpr fun pair _ => ?_
  cases pair with
  | integers a b => exact yields_pure.mpr rfl
  | rationals a b => exact yields_pure.mpr (reduce_reduce _)
  | floats a b | complexes a b => exact yields_bind.mpr fun _ _ => yields_pure.mpr rfl

end Scalar

namespace Matrix

variable {digits : Nat} {m n : Matrix}

theorem rows_ofRows (rows : List (List Scalar)) :
    Yields (fun m => m.rows = rows) (ofRows rows) := by
  unfold ofRows
  dsimp only
  split
  · exact yields_ok.mpr rfl
  · split <;> exact yields_error

/-- A matrix whose rows are computed cell by cell is settled if the cells are reduced. -/
theorem settled_ofRows {α β : Type} {row : α → Except Error (List Scalar)} {as : List α}
    {cells : α → List β} {cell : α → β → Except Error Scalar}
    (hrow : ∀ a, row a = (cells a).mapM (cell a))
    (reduced : ∀ a b, Yields (fun z => z.reduce = z) (cell a b)) :
    Yields (fun m => (Value.matrix m).Settled) (as.mapM row >>= ofRows) := by
  refine yields_bind.mpr fun rows hrows => (rows_ofRows rows).mono ?_
  rintro m rfl
  refine Value.settled_matrix fun r hr x hx => ?_
  obtain ⟨a, _, ha⟩ := (Value.mapM_eq_ok hrows).1 r hr
  rw [hrow a] at ha
  obtain ⟨b, _, hb⟩ := (Value.mapM_eq_ok ha).1 x hx
  exact reduced a b x hb

theorem settled_zipWith {f : Scalar → Scalar → Except Error Scalar}
    (hf : ∀ x y, Yields (fun z => z.reduce = z) (f x y)) :
    Yields (fun m => (Value.matrix m).Settled) (zipWith f m n) := by
  unfold zipWith
  split
  · exact yields_throw
  · exact settled_ofRows (fun _ => rfl) fun _ p => hf p.1 p.2

theorem reduced_dot {r s : List Scalar} : Yields (fun z => z.reduce = z) (dot digits r s) := by
  unfold dot
  generalize r.zip s = pairs
  have run : ∀ (acc : Scalar), acc.reduce = acc → Yields (fun z => z.reduce = z)
      (pairs.foldlM (fun acc p => do acc.add digits (← p.1.mul digits p.2)) acc) := by
    induction pairs with
    | nil => exact fun acc hacc => yields_pure.mpr hacc
    | cons p pairs ih =>
      intro acc _
      rw [List.foldlM_cons, yields_bind]
      exact (yields_bind.mpr fun _ _ => Scalar.reduced_add).mono ih
  exact run _ rfl

theorem settled_add : Yields (fun m => (Value.matrix m).Settled) (add digits m n) :=
  settled_zipWith fun _ _ => Scalar.reduced_add

theorem settled_mul : Yields (fun m => (Value.matrix m).Settled) (mul digits m n) := by
  unfold mul
  split
  · exact yields_throw
  · exact settled_ofRows (fun _ => rfl) fun _ _ => reduced_dot

theorem settled_scale {x : Scalar} :
    Yields (fun m => (Value.matrix m).Settled) (scale digits x m) :=
  settled_ofRows (fun _ => rfl) fun _ _ => Scalar.reduced_mul

end Matrix

namespace Value

theorem settled_onScalars {op : String} {f : Scalar → Scalar → Except Error Scalar} {x y : Value}
    (hf : ∀ x y, Yields (fun z => z.reduce = z) (f x y)) : Yields Settled (onScalars op f x y) := by
  unfold onScalars
  split
  · exact yields_map.mpr ((hf _ _).mono fun _ => settled_scalar)
  · exact yields_error

theorem settled_scaleMatrix {digits : Nat} {v : Value} {m : Matrix} :
    Yields (fun m => (matrix m).Settled) (scaleMatrix digits v m) := by
  unfold scaleMatrix
  split
  · exact Matrix.settled_scale
  · exact yields_error

end Value

namespace Operand

variable {settings : Settings} {a b : Operand}

/-- A settled value settles an operand with any unit. -/
theorem settled_withUnit {v : Except Error Value} (h : Yields Value.Settled v)
    (unit : UnitProduct) : Yields Settled (v >>= fun value => pure ⟨value, unit⟩) :=
  yields_bind.mpr (h.mono fun _ hv => yields_pure.mpr hv)

/-- Every sum is settled. -/
theorem settled_add : Yields Settled (add settings a b) := by
  unfold add
  refine yields_bind.mpr fun unit _ => ?_
  dsimp only
  split
  · exact settled_withUnit (yields_map.mpr Matrix.settled_add) unit
  · exact settled_withUnit (yields_map.mpr fun t _ => Value.settled_time t) unit
  · exact settled_withUnit (Value.settled_onScalars fun _ _ => Scalar.reduced_add) unit

theorem settled_scaleTime {t : Time} {v : Value} : Yields Value.Settled (scaleTime t v) :=
  yields_bind.mpr fun _ _ => yields_bind.mpr fun t _ => yields_pure.mpr (Value.settled_time t)

/-- Every product is settled. -/
theorem settled_mul : Yields Settled (mul settings a b) := by
  unfold mul
  refine yields_bind.mpr fun unit _ => ?_
  dsimp only
  split
  · exact settled_withUnit (yields_map.mpr Matrix.settled_mul) unit
  · exact settled_withUnit (yields_map.mpr Value.settled_scaleMatrix) unit
  · exact settled_withUnit (yields_map.mpr Value.settled_scaleMatrix) unit
  · exact settled_withUnit settled_scaleTime unit
  · exact settled_withUnit settled_scaleTime unit
  · exact settled_withUnit (Value.settled_onScalars fun _ _ => Scalar.reduced_mul) unit

end Operand
end StackCalc
