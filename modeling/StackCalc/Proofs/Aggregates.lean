import StackCalc.Proofs.Partial

/-! # Aggregates

An aggregate combines operands from the left, as many as the number on top of them says. Where it
meets an expression, it waits with what has been combined so far and the next operand as its two
arguments. But run on two arguments, it takes the second one for the number of operands. -/

namespace StackCalc

open Calc Evaluator

/-! ## 1. Operands without unit -/

/-- An operand without unit. -/
def Operand.Unitless (o : Operand) : Prop := o.unit = .none

namespace Signature

variable {s : Signature} {op : String} {digits : Nat} {os : List Operand}

theorem unitless_defer : Yields Operand.Unitless (defer op os) := by
  unfold defer
  simp only [forIn_eq_forM, yields_bind, yields_pure]
  exact fun _ _ => rfl

theorem unitless_resolve (h : ∀ o ∈ os, o.Unitless) :
    Yields (fun rs => ∀ r ∈ rs, r.Unitless) (s.resolve op digits os) := by
  intro rs hrs
  rcases resolve_eq_ok hrs with rfl | ⟨c, _, hc⟩
  · exact h
  · intro r hr
    obtain ⟨o, ho, _, unit⟩ := tryConversion_eq_some hc r hr
    exact unit.trans (h o ho)

theorem unitless_spread {n : Nat} {o p : Operand} (h : o.Unitless) (hp : p ∈ o.spread n) :
    p.Unitless := by
  unfold Operand.spread at hp
  split at hp
  · obtain ⟨v, _, rfl⟩ := List.mem_map.mp hp
    exact h
  · rw [List.eq_of_mem_replicate hp]
    exact h

theorem unitless_overElements {f : List Operand → Except Error Operand}
    (hf : ∀ row, (∀ o ∈ row, o.Unitless) → Yields Operand.Unitless (f row))
    (h : ∀ o ∈ os, o.Unitless) : Yields Operand.Unitless (overElements op digits f os) := by
  unfold overElements
  split
  · exact yields_throw
  · rename_i n sizes _
    dsimp only
    split
    · exact yields_throw
    · intro r hr
      obtain ⟨results, hresults, hr⟩ := bind_eq_ok.mp hr
      obtain ⟨list, _, hr⟩ := bind_eq_ok.mp hr
      cases hr
      cases results with
      | nil =>
        show ((os.find? fun o => o.kind = .list).map Operand.unit).getD .none = .none
        cases found : os.find? fun o => o.kind = .list with
        | none => rfl
        | some o => exact h o (List.mem_of_find?_eq_some found)
      | cons r results =>
        obtain ⟨row, hrow, hr⟩ := (Value.mapM_eq_ok hresults).1 r List.mem_cons_self
        refine hf row (fun p hp => ?_) r hr
        obtain ⟨column, hcolumn, hpc⟩ := mem_rows hrow hp
        obtain ⟨q, hq, rfl⟩ := List.mem_map.mp hcolumn
        exact unitless_spread (h q hq) hpc

/-- What is computed from operands without unit has none either. -/
theorem unitless_apply {f : Transform} {settings : Settings}
    (hf : ∀ os : List Operand, (∀ o ∈ os, o.Unitless) → Yields Operand.Unitless (f settings os))
    (h : ∀ o ∈ os, o.Unitless) : Yields Operand.Unitless (s.apply op f settings os) := by
  have within : ∀ (depth : Nat) (os : List Operand), (∀ o ∈ os, o.Unitless) →
      Yields Operand.Unitless (s.applyWithin op f settings depth os) := by
    intro depth
    induction depth with
    | zero =>
      intro os h
      unfold applyWithin
      split
      · exact unitless_defer
      · split
        · exact yields_error
        · exact yields_bind.mpr ((unitless_resolve h).mono hf)
    | succ depth ih =>
      intro os h
      unfold applyWithin
      split
      · exact unitless_defer
      · split
        · exact unitless_overElements ih h
        · exact yields_bind.mpr ((unitless_resolve h).mono hf)
  exact within _ os h

end Signature

/-! ## 2. Combining -/

/-- An operation that waits with one operand after the other. -/
def Operand.waitingAll (name : String) (os : List Operand) (a : Operand) : Operand :=
  os.foldl (fun a o => waiting name [a, o]) a

/-- An operation that combines as many operands as the number on top of them says. -/
structure Operation.Combines (op : Operation) (s : Signature) (neutral : Value)
    (f : Settings → Operand → Operand → Except Error Operand) : Prop where
  found : Registry.find? op.name = some op
  counted : op.minArgs = 1
  action : op.action = .primitive (foldCounted op.name s neutral f)
  deferred : s.deferred = true
  targets : s.Concrete
  computes : (ofPair op.name f).Computes
  unitless : ∀ settings a b, a.Unitless → b.Unitless → Yields Operand.Unitless (f settings a b)

/-- One step of an aggregate. -/
def Operation.combine (op : Operation) (s : Signature)
    (f : Settings → Operand → Operand → Except Error Operand) (settings : Settings)
    (a b : Operand) : Except Error Operand := s.apply op.name (ofPair op.name f) settings [a, b]

namespace Operand

variable {settings : Settings} {a b : Operand}

theorem unitless_add (ha : a.Unitless) : Yields Unitless (add settings a b) := by
  simp only [add, yields_bind]
  intro unit same
  have none : unit = .none := by
    unfold UnitProduct.requireSame at same
    split at same <;> cases same
    exact ha
  split <;> simp [Unitless, none]

theorem unitless_mul (ha : a.Unitless) (hb : b.Unitless) : Yields Unitless (mul settings a b) := by
  have none : a.unit.mul b.unit = .ok .none := by
    rw [ha, hb]
    rfl
  rw [mul, none, ok_bind]
  split <;> simp [Unitless]

end Operand

namespace Catalogue

theorem combines_sum : sum.Combines additive (.integer 0) Operand.add where
  found := Registry.find_name (Registry.mem_of_aggregates (by simp [aggregates]))
  counted := rfl
  action := rfl
  deferred := rfl
  targets := by decide
  computes := computes_ofPair fun _ _ _ _ _ => Operand.computed_add
  unitless settings a b ha hb := Operand.unitless_add ha

theorem combines_product : product.Combines multiplicative (.integer 1) Operand.mul where
  found := Registry.find_name (Registry.mem_of_aggregates (by simp [aggregates]))
  counted := rfl
  action := rfl
  deferred := rfl
  targets := by decide
  computes := computes_ofPair fun _ _ _ _ _ => Operand.computed_mul
  unitless settings a b ha hb := Operand.unitless_mul ha hb

end Catalogue

namespace Operation.Combines

variable {op : Operation} {s : Signature} {neutral : Value}
  {f : Settings → Operand → Operand → Except Error Operand} (h : op.Combines s neutral f)
  {settings : Settings} {a b : Operand} {os : List Operand}

include h

/-- Two values are combined to a value. -/
theorem combine_concrete (ha : a.Concrete ∧ a.Unitless) (hb : b.Concrete ∧ b.Unitless) :
    Yields (fun r => r.Concrete ∧ r.Unitless) (op.combine s f settings a b) := by
  intro r hr
  constructor
  · exact Signature.concrete_apply h.targets h.computes (by simp [ha, hb]) r hr
  · refine Signature.unitless_apply (fun os hos => ?_) (by simp [ha, hb]) r hr
    unfold ofPair
    split
    · exact h.unitless settings _ _ (hos _ (by simp)) (hos _ (by simp))
    · exact yields_error

/-- With an expression, the operation waits. -/
theorem combine_waits (ha : a.Unitless) (hb : b.Unitless) (symbolic : ¬ (a.Concrete ∧ b.Concrete)) :
    op.combine s f settings a b = .ok (.waiting op.name [a, b]) := by
  have waits : (s.deferred && [a, b].any fun o => decide (o.kind = .symbolic)) = true := by
    rw [h.deferred, Bool.true_and, List.any_eq_true]
    by_cases concrete : a.Concrete
    · exact ⟨b, by simp, decide_eq_true (Decidable.not_not.mp fun hb => symbolic ⟨concrete, hb⟩)⟩
    · exact ⟨a, by simp, decide_eq_true (Decidable.not_not.mp concrete)⟩
  have plain : ∀ o : Operand, o.Unitless → o.unit.requireNone op.name = .ok () := by
    intro o ho
    rw [ho]
    rfl
  unfold combine Signature.apply Signature.applyWithin
  rw [if_pos waits]
  unfold Signature.defer
  simp only [forIn_eq_forM, List.forM_cons, List.forM_nil, plain a ha, plain b hb]
  rfl

/-- Values are combined to a value. -/
theorem foldlM_concrete (ha : a.Concrete ∧ a.Unitless) (hos : ∀ o ∈ os, o.Concrete ∧ o.Unitless) :
    Yields (fun r => r.Concrete ∧ r.Unitless) (os.foldlM (op.combine s f settings) a) :=
  yields_foldlM (fun _ _ => h.combine_concrete) os a ha hos

/-- From the first expression on, the operation waits with every operand. -/
theorem foldlM_waits (ha : a.Unitless) (hos : ∀ o ∈ os, o.Unitless)
    (symbolic : ∀ o ∈ os.head?, ¬ (a.Concrete ∧ o.Concrete)) :
    os.foldlM (op.combine s f settings) a = .ok (.waitingAll op.name os a) := by
  induction os generalizing a with
  | nil => rfl
  | cons o os ih =>
    obtain ⟨ho, hos⟩ := List.forall_mem_cons.mp hos
    rw [List.foldlM_cons, h.combine_waits ha ho (symbolic o rfl)]
    -- what waits is an expression, whatever comes next
    exact ih rfl hos fun _ _ both => both.1 rfl

end Operation.Combines

/-! ## 3. On two operands -/

namespace Evaluator

/-- What comes of an aggregate on two operands on a stack of their own: the second one is taken for
the number of operands, so that the first one comes out if that is one, and nothing otherwise. -/
def countedPair (op : String) (a b : Operand) : Except Error Operand := do
  let n ← b.value.toIndex "count"
  if Calc.maxCount < n then throw (.invalidArgument (.countTooLarge op n Calc.maxCount))
  match n with
  | 0 => throw (.invalidArgument (.manyResults op 2))
  | 1 => return a
  | n + 2 => throw (.insufficientArguments op (n + 3) 2)

variable {op : String} {a b : Operand}

theorem countedPair_one (h : b.value = .integer 1) : countedPair op a b = .ok a := by
  unfold countedPair
  rw [h]
  rfl

theorem countedPair_other (h : b.value ≠ .integer 1) : ∃ e, countedPair op a b = .error e := by
  unfold countedPair
  cases hn : b.value.toIndex "count" with
  | error e => exact ⟨e, rfl⟩
  | ok n =>
    show ∃ e, (if maxCount < n then _ else _ : Except Error Operand) = .error e
    by_cases large : maxCount < n
    · exact ⟨_, if_pos large⟩
    · rw [if_neg large]
      rcases n with - | - | n
      · exact ⟨_, rfl⟩
      · exact absurd (Value.toIndex_eq_ok.mp hn).1 h
      · exact ⟨_, rfl⟩

/-- The plan of an aggregate on a stack of two operands. -/
theorem foldPlan_scratch {s : Signature} {neutral : Value}
    {f : Settings → Operand → Operand → Except Error Operand} (m : Machine) :
    (foldPlan op s neutral f (scratch m [a, b]) >>= fun p =>
      sole op ((scratch m [a, b]).replaced p.1 p.2).stack.entries) =
      countedPair op (a.stored m.settings.style) (b.stored m.settings.style) := by
  have counted : (scratch m [a, b]).counted op =
      ((b.stored m.settings.style).value.toIndex "count" >>= fun n => do
        if maxCount < n then throw (.invalidArgument (.countTooLarge op n maxCount))
        (scratch m [a, b]).checkArgs op (n + 1)
        return n) := rfl
  unfold foldPlan countedPair
  rw [counted]
  cases (b.stored m.settings.style).value.toIndex "count" with
  | error e => rfl
  | ok n =>
    by_cases large : maxCount < n
    · show (((if maxCount < n then _ else _ : Except Error Nat) >>= _) >>= _) =
        (if maxCount < n then _ else _)
      rw [if_pos large, if_pos large]
      rfl
    · show (((if maxCount < n then _ else _ : Except Error Nat) >>= _) >>= _) =
        (if maxCount < n then _ else _)
      rw [if_neg large, if_neg large]
      rcases n with - | - | n
      · rfl
      · exact congrArg Except.ok (Operand.stored_stored m.settings.style a)
      · rfl

end Evaluator

namespace Operation.Combines

variable {op : Operation} {s : Signature} {neutral : Value}
  {f : Settings → Operand → Operand → Except Error Operand} (h : op.Combines s neutral f)

include h

theorem exec_pair (evaluate : Expr → Calc Operand) (a b : Operand) (m : Machine) :
    ∃ flags, exec (applyOperation evaluate op.name [a, b]) m =
      (countedPair op.name (a.stored m.settings.style) (b.stored m.settings.style),
        { m with flags }) := by
  have enough : op.minArgs ≤ [a, b].length := by
    rw [h.counted]
    exact Nat.le_succ 1
  obtain ⟨flags, run⟩ := exec_applyOperation_commit h.found h.action
    (exec_foldCounted op.name s neutral f) evaluate enough m
  exact ⟨flags, run.trans (congrArg (·, _) (foldPlan_scratch m))⟩

theorem outcome_pair (settings : Settings) (a b : Operand) :
    outcome settings op.name [a, b] =
      countedPair op.name (a.stored settings.style) (b.stored settings.style) := by
  obtain ⟨_, run⟩ := h.exec_pair (fun _ => throw tooDeep) a b (Machine.start settings 0)
  rw [outcome, run]
  rfl

/-- On two operands, an aggregate computes. -/
theorem computes_pair : Computes op.name 2 := by
  have kept (settings : Settings) (os : List Operand) (count : os.length = 2) :
      Yields (fun r => ∃ a ∈ os, r = a.stored settings.style) (outcome settings op.name os) := by
    obtain ⟨a, b, rfl⟩ := List.length_eq_two.mp count
    rw [h.outcome_pair]
    intro r hr
    by_cases one : (b.stored settings.style).value = .integer 1
    · cases (countedPair_one one).symm.trans hr
      exact ⟨a, List.mem_cons_self, rfl⟩
    · obtain ⟨e, other⟩ := countedPair_other one
      cases other.symm.trans hr
  constructor
  · intro evaluate os m count
    obtain ⟨a, b, rfl⟩ := List.length_eq_two.mp count
    rw [h.outcome_pair]
    exact h.exec_pair evaluate a b m
  · intro settings os os' count same
    have count' : os'.length = 2 := by
      simpa [count] using (congrArg List.length same).symm
    obtain ⟨a, b, rfl⟩ := List.length_eq_two.mp count
    obtain ⟨a', b', rfl⟩ := List.length_eq_two.mp count'
    simp only [List.map_cons, List.map_nil, List.cons.injEq, and_true] at same
    rw [h.outcome_pair, h.outcome_pair, same.1, same.2]
  · intro settings os count r hr
    obtain ⟨a, _, rfl⟩ := kept settings os count r hr
    exact Operand.stored_stored settings.style a
  · intro settings os count concrete r hr
    obtain ⟨a, ha, rfl⟩ := kept settings os count r hr
    exact (Operand.concrete_stored settings.style a).mpr (concrete a ha)

end Operation.Combines

/-! ## 4. On the stack -/

/-- A count is taken from an entry above as many operands. -/
theorem Machine.counted_eq {m : Machine} {op : String} {x : Entry} {entries : List Entry} {n : Nat}
    (hm : m.stack.entries = x :: entries) (hx : x.value = .integer n) (few : n ≤ maxCount)
    (enough : n ≤ entries.length) : m.counted op = .ok n := by
  have size : m.stack.size = entries.length + 1 := by rw [Stack.size, hm, List.length_cons]
  have top : (m.stack.peek 0).mapError Error.stack = .ok x := by
    rw [Stack.peek, hm]
    rfl
  have index : x.value.toIndex "count" = .ok n :=
    Value.toIndex_eq_ok.mpr ⟨hx, Nat.lt_of_le_of_lt few (by decide)⟩
  have one : m.checkArgs op 1 = .ok () := checkArgs_eq_ok.mpr (by omega)
  have all : m.checkArgs op (n + 1) = .ok () := checkArgs_eq_ok.mpr (by omega)
  refine bind_eq_ok.mpr ⟨(), one, bind_eq_ok.mpr ⟨x, top, bind_eq_ok.mpr ⟨n, index, ?_⟩⟩⟩
  dsimp only
  rw [if_neg (Nat.not_lt.mpr few)]
  exact bind_eq_ok.mpr ⟨(), all, rfl⟩

section
variable {v : View} {xs : List Entry} {count : Entry} {m : Machine} {op : String}

/-- The number of some entries, on top of them, counts them. -/
theorem View.Of.counted (hm : ((v.pushAll xs).push count).Of m)
    (hcount : count.value = .integer xs.length) (few : xs.length ≤ maxCount) :
    m.counted op = .ok xs.length ∧
      (m.topOperands (xs.length + 1)).dropLast = xs.map Entry.operand := by
  have entries : m.stack.entries = count :: (xs.reverse ++ v.entries) := hm.entries
  refine ⟨Machine.counted_eq entries hcount few (by simp), ?_⟩
  rw [Machine.topOperands, entries, List.take_succ_cons, List.take_left' (by simp)]
  simp [Entry.operand]

theorem View.drop_counted :
    ((v.pushAll xs).push count).entries.drop (xs.length + 1) = v.entries := by
  show (count :: (xs.reverse ++ v.entries)).drop (xs.length + 1) = _
  rw [List.drop_succ_cons]
  exact List.drop_left' (by simp)

end

section
variable {op : Operation} {s : Signature} {neutral : Value}
  {f : Settings → Operand → Operand → Except Error Operand} (h : op.Combines s neutral f)
  {v : View} (free : v.scopes.Free)

include h free

/-- The name of an aggregate, run on entries with a count of them on top, leaves on the stack what
it combines their operands to. -/
theorem Session.ends_counted (xs : List Entry) {count : Entry}
    (hcount : count.value = .integer xs.length) (few : xs.length ≤ maxCount) :
    Ends [.keyword op.name] ((v.pushAll xs).push count) v
      ((foldLeft (op.combine s f v.settings) neutral (xs.map Entry.operand)).map fun o =>
        [o.stored v.settings.style]) := by
  let w : View := (v.pushAll xs).push count
  have run (m : Session) (hm : w.Of m) : exec (runInstruction maxNesting (.keyword op.name)) m =
      m.commit (foldLeft (op.combine s f v.settings) neutral (xs.map Entry.operand) >>= fun r =>
        pure (xs.length + 1, [r])) := by
    have enough : op.minArgs ≤ w.entries.length := by
      rw [h.counted]
      exact Nat.le_add_left 1 _
    obtain ⟨counted, operands⟩ : m.counted op.name = .ok xs.length ∧ _ := hm.counted hcount few
    rw [exec_operation (v := w) free h.found enough hm, h.action]
    show exec (foldCounted op.name s neutral f) m = _
    rw [exec_foldCounted, foldPlan, counted]
    show m.commit (foldLeft (op.combine s f m.settings) neutral
      (m.topOperands (xs.length + 1)).dropLast >>= _) = _
    rw [operands, hm.settings]
    rfl
  exact ends_commit (congrArg (fun entries => { v with entries }) View.drop_counted) run

/-- The name of an aggregate, run on operands with their number on top, leaves on the stack what it
combines them to. -/
theorem Session.ends_aggregate (unbounded : v.settings.style.wordBits = 0) (xs : List Entry)
    (few : xs.length ≤ maxCount) :
    Ends [.number (.integer xs.length) .none, .keyword op.name] (v.pushAll xs) v
      ((foldLeft (op.combine s f v.settings) neutral (xs.map Entry.operand)).map fun o =>
        [o.stored v.settings.style]) := by
  have value : (Entry.store (.integer xs.length) .none v.settings.style).value =
      .integer xs.length := by
    rw [Entry.store_unbounded unbounded]
    rfl
  exact (leads_number (.integer xs.length) .none).ends (ends_counted h free xs value few)

end

end StackCalc
