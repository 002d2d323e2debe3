import StackCalc.Proofs.Execution

/-! # Two-phase commit

The helpers that operations are made of look at their operands, compute, and check for room before
they touch the stack. `Machine.replaced` is the one state that they can leave other than the state
they found, so a failure at any of their exits leaves nothing behind. -/

namespace StackCalc

/-! ## 1. What a commit leaves -/

/-- What is taken for an index is a natural that a word holds. -/
theorem Value.toIndex_eq_ok {what : String} {v : Value} {n : Nat} :
    v.toIndex what = .ok n ↔ v = .integer n ∧ n < indexBound := by
  constructor
  · intro h
    unfold toIndex at h
    split at h
    · rename_i k
      split at h
      · rename_i range
        cases h
        exact ⟨congrArg Value.integer (Int.toNat_of_nonneg range.1).symm,
          by have := range.2; omega⟩
      · cases h
    · cases h
  · rintro ⟨rfl, bound⟩
    simp only [toIndex, Int.natCast_nonneg, Int.ofNat_lt, bound, and_self, if_true,
      Int.toNat_natCast]

namespace Machine

/-- The state after the top `consumed` entries are replaced by results, the first one lowest. -/
def replaced (m : Machine) (consumed : Nat) (results : List Operand) : Machine :=
  let entries := results.map m.entryOf
  { m with
    stack := m.stack.withEntries (entries.reverse ++ m.stack.entries.drop consumed)
    flags := (entries.getLast?.map Entry.flags).getD m.flags }

/-- The top `count` entries as operands, the lowest one first. -/
def topOperands (m : Machine) (count : Nat) : List Operand :=
  (m.stack.entries.take count).reverse.map fun e => ⟨e.value, e.unit⟩

/-- Requires that many entries for an operation. -/
def checkArgs (m : Machine) (op : String) (needed : Nat) : Except Error Unit :=
  if m.stack.size < needed then .error (.insufficientArguments op needed m.stack.size) else .ok ()

/-- The operands of an operation. -/
def operands (m : Machine) (op : String) (count : Nat) : Except Error (List Operand) := do
  m.checkArgs op count
  return m.topOperands count

/-- The count on top of the stack, for an operation that takes as many entries below it. -/
def counted (m : Machine) (op : String) : Except Error Nat := do
  m.checkArgs op 1
  let n ← (← (m.stack.peek 0).mapError .stack).value.toIndex "count"
  if Calc.maxCount < n then throw (.invalidArgument (.countTooLarge op n Calc.maxCount))
  m.checkArgs op (n + 1)
  return n

/-- The outcome of a plan, which is how many entries go and which results come: nothing happens
before the plan is made and has room. -/
def commit (m : Machine) (plan : Except Error (Nat × List Operand)) : Except Error Unit × Machine :=
  match plan with
  | .error e => (.error e, m)
  | .ok (consumed, results) =>
    match m.stack.requireRoom consumed results.length with
    | .ok () => (.ok (), m.replaced consumed results)
    | .error fault => (.error (.stack fault), m)

theorem checkArgs_eq_ok {m : Machine} {op : String} {needed : Nat} {u : Unit} :
    m.checkArgs op needed = .ok u ↔ needed ≤ m.stack.size := by
  unfold checkArgs
  split <;> simp <;> omega

theorem operands_eq_ok {m : Machine} {op : String} {count : Nat} {os : List Operand} :
    m.operands op count = .ok os ↔ count ≤ m.stack.size ∧ os = m.topOperands count := by
  unfold operands
  rw [bind_eq_ok]
  constructor
  · rintro ⟨_, hc, h⟩
    cases h
    exact ⟨checkArgs_eq_ok.mp hc, rfl⟩
  · rintro ⟨hc, rfl⟩
    exact ⟨(), checkArgs_eq_ok.mpr hc, rfl⟩

theorem length_topOperands {m : Machine} {count : Nat} (h : count ≤ m.stack.size) :
    (m.topOperands count).length = count := by
  simpa [topOperands] using show min count m.stack.entries.length = count from Nat.min_eq_left h

theorem counted_le {m : Machine} {op : String} {n : Nat} (h : m.counted op = .ok n) :
    n + 1 ≤ m.stack.size := by
  obtain ⟨_, _, h⟩ := bind_eq_ok.mp h
  obtain ⟨e, _, h⟩ := bind_eq_ok.mp h
  obtain ⟨k, _, h⟩ := bind_eq_ok.mp h
  split at h
  · obtain ⟨_, hk, _⟩ := bind_eq_ok.mp h
    cases hk
  · obtain ⟨_, hk, h⟩ := bind_eq_ok.mp h
    cases h
    exact checkArgs_eq_ok.mp hk

end Machine

/-! ## 2. Room -/

theorem Stack.requireRoom_eq_ok {s : Stack} {remove add : Nat} :
    s.requireRoom remove add = .ok () ↔ ∀ n, s.limit = some n → s.size - remove + add ≤ n := by
  unfold Stack.requireRoom
  split
  · rename_i n hn
    split <;> simp [hn] <;> omega
  · simp_all

namespace Calc

/-- Pushing entries for which there is room does not fail. -/
theorem exec_pushAll (entries : List Entry) (m : Machine)
    (room : m.stack.requireRoom 0 entries.length = .ok ()) :
    exec (forM entries pushEntry) m =
      (.ok ⟨⟩, { m with
        stack := m.stack.withEntries (entries.reverse ++ m.stack.entries)
        flags := (entries.getLast?.map Entry.flags).getD m.flags }) := by
  induction entries generalizing m with
  | nil => rfl
  | cons e es ih =>
    rw [Stack.requireRoom_eq_ok] at room
    -- Each push takes up one of the places for which there is room.
    have one : m.stack.requireRoom 0 1 = .ok () := by
      rw [Stack.requireRoom_eq_ok]
      intro n hn
      have := room n hn
      simp only [List.length_cons] at this
      omega
    have push : exec (pushEntry e) m = (.ok ⟨⟩,
        { m with stack := m.stack.withEntries (e :: m.stack.entries), flags := e.flags }) := by
      simp only [pushEntry, exec_bind, exec_get, exec_liftStack, Stack.push, one]
      rfl
    rw [List.forM_cons, exec_bind, push]
    show exec (forM es pushEntry) _ = _
    rw [ih]
    · simp [Stack.withEntries, List.getLast?_cons, Option.getD_map]
    · rw [Stack.requireRoom_eq_ok]
      intro n hn
      have := room n hn
      simp only [List.length_cons, Stack.size, Stack.withEntries] at this ⊢
      omega

/-- Once its operands are there, a replacement fails only for want of room, and then changes
nothing. -/
theorem exec_replaceTop (consumed : Nat) (results : List Operand) (m : Machine)
    (enough : consumed ≤ m.stack.size) :
    exec (replaceTop consumed results) m = m.commit (.ok (consumed, results)) := by
  simp only [replaceTop, exec_bind, exec_get, exec_liftStack, List.length_map, Machine.commit]
  cases room : m.stack.requireRoom consumed results.length with
  | error fault => rfl
  | ok _ =>
    have popped : m.stack.popMany consumed = .ok (m.stack.entries.take consumed,
        m.stack.withEntries (m.stack.entries.drop consumed)) := by
      simp [Stack.popMany, Nat.not_lt.mpr enough]
    simp only [mapError_ok, popped, exec_modify, forIn_eq_forM]
    rw [exec_pushAll]
    · rfl
    · rw [Stack.requireRoom_eq_ok] at room ⊢
      intro n hn
      have := room n hn
      simp only [Stack.size, Stack.withEntries, List.length_drop, List.length_map] at this ⊢
      omega

@[simp]
theorem exec_requireArgs (op : String) (needed : Nat) (m : Machine) :
    exec (requireArgs op needed) m = (m.checkArgs op needed, m) := by
  simp only [requireArgs, exec_get_bind, Machine.checkArgs]
  split <;> rfl

@[simp]
theorem exec_operands (op : String) (count : Nat) (m : Machine) :
    exec (operands op count) m = (m.operands op count, m) := by
  refine exec_bind_read (exec_requireArgs op count m) fun _ => ?_
  rw [exec_get_bind]
  rfl

@[simp]
theorem exec_top (m : Machine) : exec top m = ((m.stack.peek 0).mapError .stack, m) := by
  simp only [top, exec_get_bind, exec_liftStack]

@[simp]
theorem exec_count (op : String) (m : Machine) : exec (count op) m = (m.counted op, m) := by
  refine exec_bind_read (exec_requireArgs op 1 m) fun _ => ?_
  refine exec_bind_read (exec_top m) fun e => ?_
  refine exec_bind_read (exec_lift m _) fun n => ?_
  split
  · rfl
  · exact exec_bind_read (exec_requireArgs op (n + 1) m) fun _ => rfl

/-- A step that only reads, followed by one that commits the plan it is given. -/
theorem exec_bind_commit {α : Type} {x : Calc α} {r : Except Error α} {f : α → Calc Unit}
    {g : α → Except Error (Nat × List Operand)} {m : Machine} (hx : exec x m = (r, m))
    (hf : ∀ a, r = .ok a → exec (f a) m = m.commit (g a)) :
    exec (x >>= f) m = m.commit (r >>= g) := by
  rw [exec_bind, hx]
  cases r with
  | error e => rfl
  | ok a => exact hf a rfl

/-! ## 3. The helpers -/

/-- How many entries an operation with one result consumes, and the result. -/
def applyPlan (op : String) (arity : Nat) (s : Signature) (f : Signature.Transform) (m : Machine) :
    Except Error (Nat × List Operand) := do
  let os ← m.operands op arity
  let result ← s.apply op f m.settings os
  return (arity, [result])

/-- How many entries an operation with any number of results consumes, and the results. -/
def applyManyPlan (op : String) (arity : Nat) (s : Signature)
    (f : Settings → List Operand → Except Error (List Operand)) (m : Machine) :
    Except Error (Nat × List Operand) := do
  let os ← m.operands op arity
  let results ← (do f m.settings (← s.resolve op m.settings.style.precision os))
  return (arity, results)

/-- A transform of one operand. -/
def ofSingle (op : String) (f : Settings → Operand → Except Error Operand) :
    Signature.Transform := fun settings os =>
  match os with
  | [a] => f settings a
  | _ => .error (.typeMismatch op (Operand.kindsText os))

/-- A transform of two operands. -/
def ofPair (op : String) (f : Settings → Operand → Operand → Except Error Operand) :
    Signature.Transform := fun settings os =>
  match os with
  | [a, b] => f settings a b
  | _ => .error (.typeMismatch op (Operand.kindsText os))

/-- Operands combined from the left. No operands give the neutral value. -/
def foldLeft (step : Operand → Operand → Except Error Operand) (neutral : Value) :
    List Operand → Except Error Operand
  | [] => .ok (.plain neutral)
  | o :: os => os.foldlM step o

/-- How many entries a counted operation consumes, the count and as many operands below it, and
its result. -/
def foldPlan (op : String) (s : Signature) (neutral : Value)
    (f : Settings → Operand → Operand → Except Error Operand) (m : Machine) :
    Except Error (Nat × List Operand) := do
  let n ← m.counted op
  let os := (m.topOperands (n + 1)).dropLast
  let result ← foldLeft (fun acc next => s.apply op (ofPair op f) m.settings [acc, next]) neutral os
  return (n + 1, [result])

theorem exec_applyTop (op : String) (arity : Nat) (s : Signature) (f : Signature.Transform)
    (m : Machine) : exec (applyTop op arity s f) m = m.commit (applyPlan op arity s f m) := by
  refine exec_bind_commit (exec_operands op arity m) fun os hos => ?_
  rw [exec_get_bind]
  refine exec_bind_commit (exec_lift m _) fun result _ => ?_
  exact exec_replaceTop arity [result] m (Machine.operands_eq_ok.mp hos).1

theorem exec_applyTopMany (op : String) (arity : Nat) (s : Signature)
    (f : Settings → List Operand → Except Error (List Operand)) (m : Machine) :
    exec (applyTopMany op arity s f) m = m.commit (applyManyPlan op arity s f m) := by
  refine exec_bind_commit (exec_operands op arity m) fun os hos => ?_
  rw [exec_get_bind]
  refine exec_bind_commit (exec_lift m _) fun results _ => ?_
  exact exec_replaceTop arity results m (Machine.operands_eq_ok.mp hos).1

theorem exec_countedOperands (op : String) (m : Machine) :
    exec (countedOperands op) m =
      (do let n ← m.counted op; return (m.topOperands (n + 1)).dropLast, m) := by
  rw [countedOperands, exec_bind, exec_count]
  cases h : m.counted op with
  | error e => rfl
  | ok n =>
    have hos : m.operands op (n + 1) = .ok (m.topOperands (n + 1)) :=
      Machine.operands_eq_ok.mpr ⟨Machine.counted_le h, rfl⟩
    show exec (operands op (n + 1) >>= fun os => pure os.dropLast) m = _
    rw [exec_bind, exec_operands, hos]
    rfl

theorem exec_foldCounted (op : String) (s : Signature) (neutral : Value)
    (f : Settings → Operand → Operand → Except Error Operand) (m : Machine) :
    exec (foldCounted op s neutral f) m = m.commit (foldPlan op s neutral f m) := by
  rw [foldCounted, exec_bind, exec_countedOperands, foldPlan]
  cases h : m.counted op with
  | error e => rfl
  | ok n =>
    have enough := Machine.counted_le h
    have length : (m.topOperands (n + 1)).dropLast.length + 1 = n + 1 := by
      rw [List.length_dropLast, Machine.length_topOperands enough, Nat.add_sub_cancel]
    show exec (get >>= _) m =
      m.commit (foldLeft _ neutral _ >>= fun result => pure (n + 1, [result]))
    rw [exec_get_bind]
    refine exec_bind_commit (exec_lift m _) fun result _ => ?_
    rw [length]
    exact exec_replaceTop (n + 1) [result] m enough

end Calc

namespace Evaluator

open Calc

/-- The name of an operation that no variable has runs the operation, if its operands are there. -/
theorem exec_keyword_unbound {name : String} {op : Operation} {m : Machine} (levels : Nat)
    (unbound : m.scopes.get? name = none) (found : Registry.find? name = some op) :
    exec (runInstruction levels (.keyword name)) m =
      match m.checkArgs op.name op.minArgs with
      | .ok () => exec (runAction (evaluateExpr levels) op.action) m
      | .error e => (.error e, m) := by
  have resolved : resolveName m.scopes name = .ok (.operation op) := by
    simp [resolveName, unbound, found]
  unfold runInstruction
  show exec (get >>= _) m = _
  rw [exec_get_bind, resolved, exec_bind, exec_lift]
  show exec (requireArgs op.name op.minArgs >>= _) m = _
  rw [exec_bind, exec_requireArgs]
  cases m.checkArgs op.name op.minArgs <;> rfl

end Evaluator

/-! ## 4. The two phases -/

/-- A step that either fails and leaves the machine as it found it, or does nothing but replace the
operands of a plan by its results, for which there is room. -/
structure TwoPhase (x : Calc Unit) (m : Machine) (plan : Except Error (Nat × List Operand)) :
    Prop where
  failed : ∀ e n, x.exec m = (.error e, n) → n = m
  done : ∀ n, x.exec m = (.ok (), n) → ∃ consumed results, plan = .ok (consumed, results) ∧
    consumed ≤ m.stack.size ∧ n = m.replaced consumed results
  room : ∀ consumed results, plan = .ok (consumed, results) →
    m.stack.requireRoom consumed results.length = .ok () →
    x.exec m = (.ok (), m.replaced consumed results)

theorem TwoPhase.of_commit {x : Calc Unit} {m : Machine}
    {plan : Except Error (Nat × List Operand)} (h : x.exec m = m.commit plan)
    (enough : ∀ consumed results, plan = .ok (consumed, results) → consumed ≤ m.stack.size) :
    TwoPhase x m plan where
  failed e n he := by
    rw [h] at he
    unfold Machine.commit at he
    split at he
    · exact (Prod.mk.inj he).2.symm
    · split at he
      · cases (Prod.mk.inj he).1
      · exact (Prod.mk.inj he).2.symm
  done n hn := by
    rw [h] at hn
    unfold Machine.commit at hn
    split at hn
    · cases (Prod.mk.inj hn).1
    · rename_i consumed results
      split at hn
      · exact ⟨consumed, results, rfl, enough consumed results rfl, (Prod.mk.inj hn).2.symm⟩
      · cases (Prod.mk.inj hn).1
  room consumed results hp hr := by
    rw [h, hp]
    simp only [Machine.commit, hr]

namespace Calc

theorem applyPlan_enough {op : String} {arity : Nat} {s : Signature} {f : Signature.Transform}
    {m : Machine} {consumed : Nat} {results : List Operand}
    (h : applyPlan op arity s f m = .ok (consumed, results)) : consumed ≤ m.stack.size := by
  obtain ⟨os, hos, h⟩ := bind_eq_ok.mp h
  obtain ⟨result, _, h⟩ := bind_eq_ok.mp h
  cases h
  exact (Machine.operands_eq_ok.mp hos).1

theorem applyManyPlan_enough {op : String} {arity : Nat} {s : Signature}
    {f : Settings → List Operand → Except Error (List Operand)} {m : Machine} {consumed : Nat}
    {results : List Operand} (h : applyManyPlan op arity s f m = .ok (consumed, results)) :
    consumed ≤ m.stack.size := by
  obtain ⟨os, hos, h⟩ := bind_eq_ok.mp h
  obtain ⟨result, _, h⟩ := bind_eq_ok.mp h
  cases h
  exact (Machine.operands_eq_ok.mp hos).1

theorem foldPlan_enough {op : String} {s : Signature} {neutral : Value}
    {f : Settings → Operand → Operand → Except Error Operand} {m : Machine} {consumed : Nat}
    {results : List Operand} (h : foldPlan op s neutral f m = .ok (consumed, results)) :
    consumed ≤ m.stack.size := by
  obtain ⟨n, hn, h⟩ := bind_eq_ok.mp h
  obtain ⟨result, _, h⟩ := bind_eq_ok.mp h
  cases h
  exact Machine.counted_le hn

end Calc

/-- Every helper has two phases, on every machine and for every signature and transform: an error
leaves the machine as it was, and success replaces the operands and nothing else. -/
theorem helpers_two_phase (m : Machine) (op : String) (s : Signature) :
    (∀ arity f, TwoPhase (Calc.applyTop op arity s f) m (Calc.applyPlan op arity s f m)) ∧
    (∀ arity f, TwoPhase (Calc.applyTopMany op arity s f) m (Calc.applyManyPlan op arity s f m)) ∧
    ∀ neutral f, TwoPhase (Calc.foldCounted op s neutral f) m (Calc.foldPlan op s neutral f m) :=
  ⟨fun arity f => .of_commit (Calc.exec_applyTop op arity s f m) fun _ _ => Calc.applyPlan_enough,
    fun arity f => .of_commit (Calc.exec_applyTopMany op arity s f m)
      fun _ _ => Calc.applyManyPlan_enough,
    fun neutral f => .of_commit (Calc.exec_foldCounted op s neutral f m)
      fun _ _ => Calc.foldPlan_enough⟩

end StackCalc
