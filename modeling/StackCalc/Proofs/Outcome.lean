import StackCalc.Proofs.Views

/-! # Operations inside expressions

An operation inside an expression runs on a stack of its own. For an operation that computes one
result from its operands, what comes of it is a function of the settings and the operands as they
are stored, and it is what the operation leaves on the stack when its name is run on entries of
them. -/

namespace StackCalc

open Calc Evaluator

/-! ## 1. Operands as they are stored -/

theorem Value.concrete_reduce (v : Value) : v.reduce.Concrete ↔ v.Concrete := by
  unfold Value.Concrete
  rcases v.reduce_kind with same | ⟨rational, integer⟩
  · rw [same]
  · simp [rational, integer]

namespace Operand

/-- The operand that an entry of an operand holds. -/
def stored (style : NumberStyle) (o : Operand) : Operand :=
  (Entry.store o.value o.unit style).operand

variable (style : NumberStyle) (o : Operand)

theorem stored_mk (v : Value) (unit : UnitProduct) :
    (⟨v, unit⟩ : Operand).stored style = ⟨(Entry.store v unit style).value, unit⟩ := rfl

@[simp]
theorem stored_stored : (o.stored style).stored style = o.stored style := by
  obtain ⟨v, unit⟩ := o
  rw [stored_mk, stored_mk, Entry.store_store]

theorem stored_reduce (v : Value) (unit : UnitProduct) :
    (⟨v.reduce, unit⟩ : Operand).stored style = (⟨v, unit⟩ : Operand).stored style := by
  rw [stored_mk, stored_mk, Entry.store_reduce]

@[simp]
theorem concrete_stored : (o.stored style).Concrete ↔ o.Concrete := by
  obtain ⟨v, unit⟩ := o
  unfold Concrete
  rw [stored_mk, ← v.concrete_reduce]
  by_cases hn : ∃ n, v.reduce = .integer n
  · obtain ⟨n, hn⟩ := hn
    rw [Entry.store_integer hn, hn]
    simp [Value.integer]
  · rw [Entry.store_other fun n h => hn ⟨n, h⟩]

end Operand

/-! ## 2. Outcomes -/

namespace Evaluator

/-- What comes of the operation of a name on some operands, on a stack of their own. -/
def outcome (settings : Settings) (name : String) (os : List Operand) : Except Error Operand :=
  (exec (applyOperation (fun _ => throw tooDeep) name os) (Machine.start settings 0)).1

/-- The one operand on a stack. -/
def sole (name : String) : List Entry → Except Error Operand
  | [e] => .ok e.operand
  | es => .error (.invalidArgument (.manyResults name es.length))

/-- The machine that an operation inside an expression runs on. -/
def scratch (m : Machine) (os : List Operand) : Machine :=
  { m with stack := { entries := (os.map m.entryOf).reverse } }

theorem exec_applyOperation {name : String} {op : Operation} {run : Calc Unit}
    (found : Registry.find? name = some op) (hrun : op.action = .primitive run)
    (evaluate : Expr → Calc Operand) {os : List Operand} (enough : op.minArgs ≤ os.length)
    (m : Machine) :
    exec (applyOperation evaluate name os) m =
      let r := exec run (scratch m os)
      (r.1 >>= fun _ => sole name r.2.stack.entries, { r.2 with stack := m.stack }) := by
  have accepted : (scratch m os).checkArgs op.name op.minArgs = .ok () := by
    rw [Machine.checkArgs_eq_ok]
    simpa [scratch, Stack.size] using enough
  have started : exec (do requireArgs op.name op.minArgs; runAction evaluate op.action)
      (scratch m os) = exec run (scratch m os) := by
    rw [exec_bind, exec_requireArgs, accepted, hrun]
    rfl
  unfold applyOperation
  rw [found]
  show exec (get >>= _) m = _
  rw [exec_get_bind, exec_bind, exec_onScratch]
  dsimp only
  rw [show ({ m with stack := { entries := (os.map m.entryOf).reverse } } : Machine) = scratch m os
    from rfl, started]
  cases exec run (scratch m os) with
  | mk r n =>
    cases r with
    | error e => rfl
    | ok _ =>
      dsimp only [Except.map]
      rcases n.stack.entries with - | ⟨e, - | ⟨_, _⟩⟩ <;> rfl

/-- The operands of an operation inside an expression are its arguments as they are stored. -/
theorem topOperands_scratch (m : Machine) (os : List Operand) :
    (scratch m os).topOperands os.length = os.map (Operand.stored m.settings.style) := by
  have whole : (os.map m.entryOf).reverse.take os.length = (os.map m.entryOf).reverse :=
    List.take_of_length_le (by simp)
  show ((os.map m.entryOf).reverse.take os.length).reverse.map _ = _
  rw [whole, List.reverse_reverse, List.map_map]
  rfl

/-- What comes of an operation that carries out a plan. -/
theorem exec_applyOperation_commit {name : String} {op : Operation} {run : Calc Unit}
    {plan : Machine → Except Error (Nat × List Operand)} (found : Registry.find? name = some op)
    (hrun : op.action = .primitive run) (committed : ∀ k, exec run k = k.commit (plan k))
    (evaluate : Expr → Calc Operand) {os : List Operand} (enough : op.minArgs ≤ os.length)
    (m : Machine) :
    ∃ flags, exec (applyOperation evaluate name os) m =
      (plan (scratch m os) >>= fun p => sole name ((scratch m os).replaced p.1 p.2).stack.entries,
        { m with flags }) := by
  rw [exec_applyOperation found hrun evaluate enough, committed]
  unfold Machine.commit
  cases plan (scratch m os) with
  | error e => exact ⟨m.flags, rfl⟩
  | ok p => exact ⟨((scratch m os).replaced p.1 p.2).flags, rfl⟩

section
variable {name : String} {op : Operation} {s : Signature} {f : Signature.Transform}
  {os : List Operand} (found : Registry.find? name = some op)
  (hrun : op.action = .primitive (applyTop op.name op.minArgs s f))
  (count : os.length = op.minArgs)

include found hrun count

theorem exec_applyOperation_apply (evaluate : Expr → Calc Operand) (m : Machine) :
    ∃ flags, exec (applyOperation evaluate name os) m =
      ((s.apply op.name f m.settings (os.map (Operand.stored m.settings.style))).map
        (Operand.stored m.settings.style), { m with flags }) := by
  obtain ⟨flags, h⟩ := exec_applyOperation_commit found hrun (exec_applyTop op.name op.minArgs s f)
    evaluate (Nat.le_of_eq count.symm) m
  refine ⟨flags, h.trans (congrArg (·, _) ?_)⟩
  have operands : (scratch m os).operands op.name op.minArgs =
      .ok (os.map (Operand.stored m.settings.style)) := by
    rw [Machine.operands_eq_ok, ← count, topOperands_scratch]
    exact ⟨by simp [scratch, Stack.size], rfl⟩
  rw [applyPlan, operands]
  show (s.apply op.name f m.settings _ >>= fun r => pure (op.minArgs, [r])) >>= _ = _
  cases s.apply op.name f m.settings (os.map (Operand.stored m.settings.style)) with
  | error e => rfl
  | ok r =>
    have rest : (os.map m.entryOf).reverse.drop op.minArgs = [] :=
      List.drop_eq_nil_of_le (by simp [count])
    show sole name ([m.entryOf r] ++ (os.map m.entryOf).reverse.drop op.minArgs) = _
    rw [rest]
    rfl

theorem outcome_apply (settings : Settings) :
    outcome settings name os =
      (s.apply op.name f settings (os.map (Operand.stored settings.style))).map
        (Operand.stored settings.style) := by
  obtain ⟨_, h⟩ := exec_applyOperation_apply found hrun count (fun _ => throw tooDeep)
    (Machine.start settings 0)
  rw [outcome, h]
  rfl

end

/-! ## 3. Operations that compute -/

/-- On so many operands the operation of a name changes nothing but the flags. What comes of it goes
by the settings and the operands as they are stored, it is as it is stored itself, and it is no
expression unless an operand is. -/
structure Computes (name : String) (count : Nat) : Prop where
  run : ∀ (evaluate : Expr → Calc Operand) (os : List Operand) (m : Machine), os.length = count →
    ∃ flags, exec (applyOperation evaluate name os) m =
      (outcome m.settings name os, { m with flags })
  congr : ∀ (settings : Settings) (os os' : List Operand), os.length = count →
    os.map (Operand.stored settings.style) = os'.map (Operand.stored settings.style) →
    outcome settings name os = outcome settings name os'
  stored : ∀ (settings : Settings) (os : List Operand), os.length = count →
    Yields (fun o => o.stored settings.style = o) (outcome settings name os)
  concrete : ∀ (settings : Settings) (os : List Operand), os.length = count →
    (∀ o ∈ os, o.Concrete) → Yields Operand.Concrete (outcome settings name os)

/-- An operation with one result computes. -/
theorem computes_of_applies {name : String} {op : Operation}
    (found : Registry.find? name = some op) (h : op.Applies) : Computes name op.minArgs := by
  obtain ⟨_, hrun, s, f, rfl, hf, hs, _⟩ := h
  constructor
  · intro evaluate os m count
    rw [outcome_apply found hrun count]
    exact exec_applyOperation_apply found hrun count evaluate m
  · intro settings os os' count same
    have count' : os'.length = op.minArgs := by
      simpa [count] using (congrArg List.length same).symm
    rw [outcome_apply found hrun count, outcome_apply found hrun count', same]
  · intro settings os count
    rw [outcome_apply found hrun count, yields_map]
    exact fun r _ => r.stored_stored settings.style
  · intro settings os count concrete
    rw [outcome_apply found hrun count, yields_map]
    have stored : ∀ o ∈ os.map (Operand.stored settings.style), o.Concrete := by
      simpa using concrete
    exact (Signature.concrete_apply hs hf stored).mono fun r hr =>
      (Operand.concrete_stored settings.style r).mpr hr

end Evaluator

/-- The operations that compute one result from operands. -/
def Catalogue.applicable : List Operation :=
  onOperands.filter fun op => 0 < op.arity ∧ op.results = 1

theorem Catalogue.applicable_of_numeric {op : Operation} (h : op ∈ numeric) : op ∈ applicable := by
  have single : ∀ op ∈ numeric, 0 < op.arity ∧ op.results = 1 := by decide +kernel
  exact List.mem_filter.mpr ⟨by simp [onOperands, h], decide_eq_true (single op h)⟩

theorem applies_of_applicable {op : Operation} (h : op ∈ Catalogue.applicable) :
    op.Applies ∧ 0 < op.minArgs := by
  obtain ⟨hop, single⟩ := List.mem_filter.mp h
  obtain ⟨arity, results⟩ := of_decide_eq_true single
  exact ⟨(Catalogue.onOperands_all op hop).single arity results,
    Int.natAbs_pos.mpr (Int.ne_of_gt arity)⟩

/-! ## 4. Operations on the stack -/

namespace Session

/-- An instruction that carries out a plan with one result leaves that result. -/
theorem ends_commit {i : Instruction} {v w : View} {consumed : Nat} {r : Except Error Operand}
    (below : { w with entries := w.entries.drop consumed } = v)
    (run : ∀ m, w.Of m → exec (runInstruction maxNesting i) m =
      m.commit (r >>= fun o => pure (consumed, [o]))) :
    Ends [i] w v (r.map fun o => [o.stored v.settings.style]) := by
  subst below
  cases r with
  | error e => exact fails_of_exec fun m hm => ⟨m, run m hm⟩
  | ok o =>
    refine ⟨[.store o.value o.unit w.settings.style], rfl, leads_of_exec fun m hm => ?_⟩
    exact ⟨_, (run m hm).trans hm.commit, hm.replaced consumed o⟩

/-- The name of an operation, run on entries, leaves on the stack what it computes from their
operands. -/
theorem ends_apply {v : View} (free : v.scopes.Free) {name : String} {op : Operation}
    (found : Registry.find? name = some op) {s : Signature} {f : Signature.Transform}
    (hrun : op.action = .primitive (applyTop op.name op.minArgs s f)) (xs : List Entry)
    (count : xs.length = op.minArgs) :
    Ends [.keyword name] (v.pushAll xs) v
      ((s.apply op.name f v.settings (xs.map Entry.operand)).map fun o =>
        [o.stored v.settings.style]) := by
  have enough : op.minArgs ≤ (v.pushAll xs).entries.length := by simp [View.pushAll, count]
  have below : (v.pushAll xs).entries.drop op.minArgs = v.entries :=
    List.drop_left' (by simpa using count)
  refine ends_commit (congrArg (fun entries => { v with entries }) below) fun m hm => ?_
  have operands : m.operands op.name op.minArgs = .ok (xs.map Entry.operand) := by
    rw [Machine.operands_eq_ok, Stack.size, hm.entries, Machine.topOperands, hm.entries]
    refine ⟨enough, ?_⟩
    rw [View.pushAll, List.take_left' (by simpa using count), List.reverse_reverse]
    rfl
  rw [exec_operation (v := v.pushAll xs) free found enough hm, hrun]
  show exec (applyTop op.name op.minArgs s f) m = _
  rw [exec_applyTop, applyPlan, operands, hm.settings]
  rfl

/-- The name of an operation, run on entries of some operands, leaves on the stack what comes of the
operation inside an expression. -/
theorem ends_operation {v : View} (free : v.scopes.Free) {name : String} {op : Operation}
    (found : Registry.find? name = some op) (h : op.Applies) {os : List Operand}
    (count : os.length = op.minArgs) {xs : List Entry}
    (hx : xs.map Entry.operand = os.map (Operand.stored v.settings.style)) :
    Ends [.keyword name] (v.pushAll xs) v ((outcome v.settings name os).map fun o => [o]) := by
  obtain ⟨_, hrun, s, f, rfl, _⟩ := h
  have length : xs.length = op.minArgs := by simpa [count] using congrArg List.length hx
  have single : (outcome v.settings name os).map (fun o => [o]) =
      (s.apply op.name f v.settings (os.map (Operand.stored v.settings.style))).map fun o =>
        [o.stored v.settings.style] := by
    rw [outcome_apply found hrun count]
    cases s.apply op.name f v.settings (os.map (Operand.stored v.settings.style)) <;> rfl
  rw [single, ← hx]
  exact ends_apply free found hrun _ length

end Session
end StackCalc
