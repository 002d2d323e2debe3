import StackCalc.Proofs.Evaluator

/-! # Names in values and instructions

The names that an instruction mentions: its keywords, and the variables, operations and references
in its values. A result mentions the names of the operands, and that of an operation that is
deferred, which is never one of the few names that calls and the history are reached by, so an
instruction can be known never to reach them. -/

namespace StackCalc

/-! ## 1. Names of values -/

mutual

/-- The names in a value. -/
def Value.names : Value → List String
  | .scalar _ | .matrix _ | .time _ => []
  | .list _ items => namesOfItems items
  | .symbolic e => e.names

/-- The names in some values. -/
def namesOfItems : List Value → List String
  | [] => []
  | v :: vs => v.names ++ namesOfItems vs

/-- The names in an expression. -/
def Expr.names : Expr → List String
  | .var name => [name]
  | .const v => v.names
  | .apply name args => name :: namesOfArgs args

/-- The names in some expressions. -/
def namesOfArgs : List Expr → List String
  | [] => []
  | e :: es => e.names ++ namesOfArgs es

end

@[simp]
theorem namesOfItems_eq (vs : List Value) : namesOfItems vs = vs.flatMap Value.names := by
  induction vs with
  | nil => rfl
  | cons v vs ih => rw [namesOfItems, ih, List.flatMap_cons]

@[simp]
theorem namesOfArgs_eq (es : List Expr) : namesOfArgs es = es.flatMap Expr.names := by
  induction es with
  | nil => rfl
  | cons e es ih => rw [namesOfArgs, ih, List.flatMap_cons]

namespace Value

theorem names_ofValue (v : Value) : (Expr.ofValue v).names = v.names := by
  unfold Expr.ofValue
  split <;> simp [names, Expr.names]

mutual

/-- The canonical form of a value has the same names. -/
theorem names_reduce : ∀ v : Value, v.reduce.names = v.names
  | scalar _ | matrix _ | time _ => rfl
  | list k items => by
    rw [reduce, names, names, names_reduceItems items]
  | symbolic e => by
    rw [reduce, names, names, names_reduceExpr e]

theorem names_reduceItems : ∀ vs : List Value, namesOfItems (reduceItems vs) = namesOfItems vs
  | [] => rfl
  | v :: vs => by
    rw [reduceItems, namesOfItems, namesOfItems, names_reduce v, names_reduceItems vs]

theorem names_reduceExpr : ∀ e : Expr, (reduceExpr e).names = e.names
  | .var _ => rfl
  | .const v => by
    rw [reduceExpr, Expr.names, Expr.names, names_reduce v]
  | .apply name args => by
    rw [reduceExpr, Expr.names, Expr.names, names_reduceArgs args]

theorem names_reduceArgs : ∀ es : List Expr, namesOfArgs (reduceArgs es) = namesOfArgs es
  | [] => rfl
  | e :: es => by
    rw [reduceArgs, namesOfArgs, namesOfArgs, names_reduceExpr e, names_reduceArgs es]

end

theorem names_widen {digits : Nat} {v : Value} {target : Kind} :
    Yields (fun w => w.names ⊆ v.names) (v.widen digits target) := by
  unfold widen
  split
  · simp
  · split <;> simp [rational, float, complex, names, names_ofValue]

/-- A list has no names but those of its items. -/
theorem names_ofItems {digits : Nat} {items : List Value} :
    Yields (fun w => w.names ⊆ items.flatMap names) (ofItems digits items) := by
  intro w hw
  obtain ⟨k, ws, rfl, listing⟩ := listing_of_ofItems hw
  have given (v : Value) (hv : v ∈ items) : v.names ⊆ items.flatMap names :=
    fun _ hname => List.mem_flatMap.mpr ⟨v, hv, hname⟩
  have each : ∀ w ∈ ws, w.names ⊆ items.flatMap names :=
    listing.each given fun v hv _ w run => List.Subset.trans (names_widen w run) (given v hv)
  rw [names, namesOfItems_eq]
  intro name hname
  obtain ⟨w, hw, hname⟩ := List.mem_flatMap.mp hname
  exact each w hw hname

end Value

/-! ## 2. Vocabularies without some names -/

/-- All names but some of the reserved ones, and the values without these. -/
def Vocabulary.without (lower : List String) (h : lower ⊆ reserved) : Vocabulary where
  names := Avoids lower
  values v := ∀ name ∈ v.names, Avoids lower name
  made := by
    intro v hv
    induction hv with
    | given hv => exact hv
    | scalar _ | matrix _ | time _ => exact List.forall_mem_nil _
    | element _ hv ih =>
      exact fun name hname => ih name (by simpa [Value.names] using ⟨_, hv, hname⟩)
    | ofItems _ hv ih =>
      intro name hname
      obtain ⟨w, hw, hname⟩ := List.mem_flatMap.mp (Value.names_ofItems _ hv hname)
      exact ih w hw name hname
    | expression _ ih => simpa [Value.names, Value.names_ofValue] using ih
    | deferred hop _ ih =>
      rw [Value.names, Expr.names, namesOfArgs_eq, List.forall_mem_cons]
      refine ⟨fun mem => hop (h mem), fun name hname => ?_⟩
      obtain ⟨e, he, hname⟩ := List.mem_flatMap.mp hname
      obtain ⟨v, hv, rfl⟩ := List.mem_map.mp he
      exact ih v hv name (Value.names_ofValue v ▸ hname)
  reduce := by
    intro v hv
    rwa [Value.names_reduce]
  var hv := hv _ (List.mem_singleton.mpr rfl)
  const hv := hv
  apply := by
    intro name args
    rw [Value.names, Expr.names, namesOfArgs_eq, List.forall_mem_cons, List.forall_mem_flatMap]
    rfl

/-! ## 3. Instructions -/

mutual

/-- The names that an instruction mentions, at any depth. -/
def Instruction.names : Instruction → List String
  | .noop | .truth _ | .time _ => []
  | .number v _ => v.names
  | .list items => namesOfItems items
  | .matrix rows => namesOfItems rows.flatten
  | .reference name | .keyword name => [name]
  | .symbolic e => e.names
  | .program body => namesOfBody body

def namesOfBody : List Instruction → List String
  | [] => []
  | i :: is => i.names ++ namesOfBody is

end

@[simp]
theorem namesOfBody_eq (is : List Instruction) :
    namesOfBody is = is.flatMap Instruction.names := by
  induction is with
  | nil => rfl
  | cons i is ih => rw [namesOfBody, ih, List.flatMap_cons]

/-- An instruction that mentions none of the given names, in whatever case. -/
def Instruction.Avoids (lower : List String) (i : Instruction) : Prop :=
  ∀ name ∈ i.names, StackCalc.Avoids lower name

instance (lower : List String) (i : Instruction) : Decidable (i.Avoids lower) :=
  inferInstanceAs (Decidable (∀ _ ∈ _, _))

/-- An instruction is in the vocabulary without the names that it does not mention. -/
theorem Instruction.Avoids.inVocabulary {lower : List String} (h : lower ⊆ reserved) :
    ∀ {i : Instruction}, i.Avoids lower → i.In (.without lower h)
  | .noop, _ => .noop
  | .truth b, _ => .truth b
  | .number _ unit, hi => .number hi unit
  | .list items, hi => .list fun v hv name hname =>
      hi name (by simpa [Instruction.names] using ⟨v, hv, hname⟩)
  | .matrix rows, _ => .matrix rows
  | .time t, _ => .time t
  | .reference _, hi => .reference (hi _ (List.mem_singleton.mpr rfl))
  | .symbolic _, hi => .symbolic hi
  | .keyword _, hi => .keyword (hi _ (List.mem_singleton.mpr rfl))
  | .program body, hi => .program fun j hj => inVocabulary h fun name hname =>
      hi name (by simpa [Instruction.names] using ⟨j, hj, hname⟩)

/-! ## 4. All names -/

/-- All names and values. -/
abbrev Vocabulary.all : Vocabulary := .without [] (List.nil_subset _)

theorem Vocabulary.entry_all (e : StackCalc.Entry) : Vocabulary.all.Entry e :=
  fun _ _ => List.not_mem_nil

theorem Machine.inAll (m : Machine) : m.In .all where
  stack e _ := Vocabulary.entry_all e
  scopes _ _ b _ := Vocabulary.entry_all b.2
  snapshots _ _ _ e _ := Vocabulary.entry_all e

theorem Instruction.inAll (i : Instruction) : i.In .all :=
  Avoids.inVocabulary _ fun _ _ => List.not_mem_nil

end StackCalc
