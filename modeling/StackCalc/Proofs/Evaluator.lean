import StackCalc.Proofs.Course

/-! # The course of evaluation

Whatever the evaluator runs has a course in the vocabulary of what it is run on. Each function is
proved for any evaluation of the expressions below it that has such a course, and induction on the
levels of nesting that are left closes the circle. -/

namespace StackCalc

open Calc

/-! ## 1. Steps within a vocabulary -/

section
variable {V : Vocabulary} {α β : Type} {Q Q' : α → Prop} {R : β → Prop} {m : Machine}

/-- The outcome of a step has come about by a course, and its result satisfies `Q`. -/
structure Along (V : Vocabulary) (Q : α → Prop) (m : Machine) (r : Except Error α × Machine) :
    Prop where
  course : Course V m r.2
  result : Yields Q r.1

/-- A step that has a course on every machine which holds values of the vocabulary only. -/
def Within (V : Vocabulary) (Q : α → Prop) (x : Calc α) : Prop :=
  ∀ m : Machine, m.In V → Along V Q m (exec x m)

namespace Along

theorem error {e : Error} {n : Machine} (h : Course V m n) : Along V Q m (.error e, n) :=
  ⟨h, yields_error⟩

theorem ok {a : α} {n : Machine} (h : Course V m n) (ha : Q a) : Along V Q m (.ok a, n) :=
  ⟨h, yields_ok.mpr ha⟩

/-- A step that starts by reading the state. -/
theorem read {x : Calc α} {r : Except Error α} {f : α → Calc β} (hx : exec x m = (r, m))
    (hf : ∀ a, r = .ok a → Along V R m (exec (f a) m)) : Along V R m (exec (x >>= f) m) := by
  rw [exec_bind, hx]
  cases r with
  | error e => exact .error (.idle m)
  | ok a => exact hf a rfl

theorem get {f : Machine → Calc β} (h : Along V R m (exec (f m) m)) :
    Along V R m (exec (get >>= f) m) := by
  rwa [exec_get_bind]

theorem after {n : Machine} {r : Except Error α × Machine} (first : Course V m n)
    (h : Along V Q n r) : Along V Q m r := ⟨first.andThen h.course, h.result⟩

/-- A step and what follows it. The values stay in the vocabulary on the way. -/
theorem andThen {x : Calc α} {f : α → Calc β} (hm : m.In V) (hx : Along V Q m (exec x m))
    (hf : ∀ a n, exec x m = (.ok a, n) → Q a → n.In V → Along V R n (exec (f a) n)) :
    Along V R m (exec (x >>= f) m) := by
  rw [exec_bind]
  cases h : exec x m with
  | mk r n =>
    rw [h] at hx
    cases r with
    | error e => exact .error hx.course
    | ok a =>
      exact .after hx.course (hf a n h (yields_ok.mp hx.result) (hx.course.keeps hm))

theorem bind {x : Calc α} {f : α → Calc β} (hm : m.In V) (hx : Along V Q m (exec x m))
    (hf : ∀ a, Q a → Within V R (f a)) : Along V R m (exec (x >>= f) m) :=
  hx.andThen hm fun a n _ ha hn => hf a ha n hn

end Along

namespace Within

protected theorem pure {a : α} (h : Q a) : Within V Q (pure a) := fun m _ => .ok (.idle m) h

protected theorem throw {e : Error} : Within V Q (throw e) := fun m _ => .error (.idle m)

protected theorem bind {x : Calc α} {f : α → Calc β} (hx : Within V Q x)
    (hf : ∀ a, Q a → Within V R (f a)) : Within V R (x >>= f) := fun m hm => (hx m hm).bind hm hf

theorem forM {as : List α} {f : α → Calc PUnit} (h : ∀ a ∈ as, Within V (fun _ => True) (f a)) :
    Within V (fun _ => True) (forM as f) := by
  induction as with
  | nil => exact .pure trivial
  | cons a as ih =>
    rw [List.forM_cons]
    exact .bind (h a (by simp)) fun _ _ => ih fun b hb => h b (List.mem_cons_of_mem a hb)

theorem mapM {as : List α} {f : α → Calc β} (h : ∀ a ∈ as, Within V R (f a)) :
    Within V (fun bs => ∀ b ∈ bs, R b) (as.mapM f) := by
  induction as with
  | nil => exact .pure (List.forall_mem_nil _)
  | cons a as ih =>
    rw [List.mapM_cons]
    refine .bind (h a (by simp)) fun b hb => ?_
    refine .bind (ih fun c hc => h c (List.mem_cons_of_mem a hc)) fun bs hbs => ?_
    exact .pure (List.forall_mem_cons.mpr ⟨hb, hbs⟩)

end Within

end

theorem Effect.along {V : Vocabulary} {m : Machine} {r : Except Error Unit × Machine}
    (h : Effect m r) : Along V (fun _ => True) m r := ⟨.effect h, yields_true⟩

namespace Calc

variable {V : Vocabulary} {m : Machine}

theorem mem_peek {s : Stack} {depth : Nat} {e : Entry} (h : s.peek depth = .ok e) :
    e ∈ s.entries := by
  unfold Stack.peek at h
  split at h
  · rename_i hx
    cases h
    exact List.mem_of_getElem? hx
  · cases h

theorem top_eq_ok {e : Entry} (h : (m.stack.peek 0).mapError Error.stack = .ok e) :
    e ∈ m.stack.entries := mem_peek (mapError_eq_ok.mp h)

/-- An entry is pushed if there is room. -/
theorem exec_pushEntry (e : Entry) (m : Machine) :
    (∃ fault, exec (pushEntry e) m = (.error fault, m)) ∨
      m.stack.requireRoom 0 1 = .ok () ∧ exec (pushEntry e) m = (.ok (), m.pushed e) := by
  simp only [pushEntry, exec_bind, exec_get, exec_liftStack, Stack.push]
  cases room : m.stack.requireRoom 0 1 with
  | error fault => exact .inl ⟨_, rfl⟩
  | ok _ => exact .inr ⟨rfl, rfl⟩

/-- Entries are replaced if they are there and there is room. -/
theorem exec_replaceTop_cases (consumed : Nat) (results : List Operand) (m : Machine) :
    (∃ e, exec (replaceTop consumed results) m = (.error e, m)) ∨
      consumed ≤ m.stack.size ∧ m.stack.requireRoom consumed results.length = .ok () ∧
        exec (replaceTop consumed results) m = (.ok (), m.replaced consumed results) := by
  by_cases enough : consumed ≤ m.stack.size
  · rw [exec_replaceTop consumed results m enough]
    unfold Machine.commit
    split
    · cases ‹Except.ok _ = Except.error _›
    · cases ‹Except.ok _ = Except.ok _›
      split
      · exact .inr ⟨enough, ‹_›, rfl⟩
      · exact .inl ⟨_, rfl⟩
  · refine .inl ?_
    simp only [replaceTop, exec_bind, exec_get, exec_liftStack, List.length_map, Stack.popMany,
      if_pos (Nat.not_le.mp enough)]
    cases m.stack.requireRoom consumed results.length with
    | error fault => exact ⟨_, rfl⟩
    | ok _ => exact ⟨_, rfl⟩

/-- Operands of the vocabulary replace entries. -/
theorem within_replaceTop {consumed : Nat} {o : Operand} (ho : V.Operand o) :
    Within V (fun _ => True) (replaceTop consumed [o]) := by
  intro m _
  rcases exec_replaceTop_cases consumed [o] m with ⟨e, h⟩ | ⟨enough, room, h⟩
  · rw [h]
    exact .error (.idle m)
  · rw [h]
    exact .ok (.stored consumed o enough room ho) trivial

theorem within_pushOperand {o : Operand} (ho : V.Operand o) :
    Within V (fun _ => True) (pushOperand o) := by
  intro m _
  refine .get ?_
  rcases exec_pushEntry (m.entryOf o) m with ⟨e, h⟩ | ⟨room, h⟩
  · rw [h]
    exact .error (.idle m)
  · rw [h]
    exact .ok (.stored 0 o (Nat.zero_le _) room ho) trivial

theorem along_pushBound {name : String} {e : Entry} (bound : m.scopes.get? name = some e) :
    Along V (fun _ => True) m (exec (pushEntry e) m) := by
  rcases exec_pushEntry e m with ⟨fault, h⟩ | ⟨room, h⟩
  · rw [h]
    exact .error (.idle m)
  · rw [h]
    exact .ok (.effect (.pushed name e bound room)) trivial

end Calc

namespace Evaluator

/-- What a step on a stack of its own gives, and that the old stack is back. -/
theorem exec_onScratch {α : Type} (entries : List Entry) (step : Calc α) (m : Machine) :
    exec (onScratch entries step) m =
      let r := exec step { m with stack := { entries } }
      (r.1.map fun a => (a, r.2.stack), { r.2 with stack := m.stack }) := by
  rw [onScratch, exec_get_bind, exec_modify_bind, exec_bind, exec_caught]
  dsimp only
  rw [exec_get_bind, exec_modify_bind, exec_bind, exec_lift]
  cases (exec step { m with stack := { entries } }).1 with
  | error e => rfl
  | ok a => rfl

/-- What a step between two changes of the state gives. -/
theorem exec_between {α : Type} (enter leave : Machine → Machine) (step : Calc α) (m : Machine) :
    exec (between enter leave step) m =
      ((exec step (enter m)).1, leave (exec step (enter m)).2) := by
  rw [between, exec_modify_bind, exec_bind, exec_caught]
  dsimp only
  rw [exec_modify_bind, exec_lift]

/-- What a step one level deeper gives, and that the level is left again. -/
theorem exec_deeper {α : Type} (step : Calc α) (m : Machine) :
    exec (deeper step) m =
      let r := exec step { m with nesting := m.nesting + 1 }
      (r.1, { r.2 with nesting := r.2.nesting - 1 }) := exec_between _ _ step m

/-- What a step in a scope of its own gives, and that the scope is closed. -/
theorem exec_inScope (step : Calc Unit) (m : Machine) :
    exec (inScope step) m =
      let r := exec step { m with scopes := m.scopes.enter }
      (r.1, { r.2 with scopes := r.2.scopes.leave }) := exec_between _ _ step m

variable {V : Vocabulary}

/-! ## 2. Calls -/

/-- An action that a vocabulary admits. -/
def Admitted (V : Vocabulary) (action : Action) : Prop :=
  action.Does ∨ V.Undoes ∧ action = .primitive Calc.undo

/-- A variable in scope, or an operation that the vocabulary admits. -/
inductive Callee.In (V : Vocabulary) (scopes : Scopes) : Callee → Prop
  | variable {name : String} {e : Entry} (bound : scopes.get? name = some e) :
      Callee.In V scopes (.variable e)
  | operation {op : Operation} (admitted : Admitted V op.action) :
      Callee.In V scopes (.operation op)

theorem admitted_find {name : String} {op : Operation} (hn : V.names name)
    (h : Registry.find? name = some op) : Admitted V op.action := by
  rcases does_operations op (Registry.mem_of_find h) with rfl | does
  · exact .inr ⟨⟨name, hn, h⟩, rfl⟩
  · exact .inl does

theorem within_resolveName {scopes : Scopes} {name : String} (hn : V.names name) :
    Yields (Callee.In V scopes) (resolveName scopes name) := by
  unfold resolveName
  split
  · rename_i bound
    exact yields_ok.mpr (.variable bound)
  · split
    · rename_i op hop
      exact yields_ok.mpr (.operation (admitted_find hn hop))
    · exact yields_error

theorem within_calledName {e : Entry} (he : V.Entry e) : Yields V.names (calledName e) := by
  unfold Vocabulary.Entry at he
  unfold calledName
  split
  · rename_i hv
    exact yields_ok.mpr (V.var (hv ▸ he))
  · rename_i hv
    exact yields_ok.mpr (V.apply.mp (hv ▸ he)).1
  · exact yields_error

/-- The callee is in the vocabulary, and the entries below its name stay. -/
theorem within_followCalls {scopes : Scopes} : ∀ entries : List Entry, (∀ e ∈ entries, V.Entry e) →
    Yields (fun p => p.1.In V scopes ∧ p.2 <:+ entries) (followCalls scopes entries)
  | [], _ => yields_error
  | e :: below, h => by
    obtain ⟨he, hbelow⟩ := List.forall_mem_cons.mp h
    rw [followCalls, yields_bind]
    refine (within_calledName he).mono fun name hn => ?_
    rw [yields_bind]
    refine (within_resolveName hn).mono fun callee hc => ?_
    split
    · exact yields_pure.mpr ⟨hc, List.suffix_cons e below⟩
    · split
      · split
        · exact yields_throw
        · exact (within_followCalls below hbelow).mono fun p hp =>
            ⟨hp.1, hp.2.trans (List.suffix_cons e below)⟩
      · exact yields_pure.mpr ⟨hc, List.suffix_cons e below⟩

theorem along_undo (undoes : V.Undoes) (m : Machine) :
    Along V (fun _ => True) m (exec undo m) := by
  rw [exec_undo]
  split
  · exact .error (.idle m)
  · rename_i entries history h
    exact .ok (.undone undoes entries history h) trivial

/-- A step on a stack of its own, with a course of its own. -/
theorem along_onScratch {α : Type} {Q : α → Prop} {step : Calc α} {m : Machine} (hm : m.In V)
    {args : List Operand} (ha : ∀ o ∈ args, V.Operand o) (hs : Within V Q step) :
    Along V (fun p => Q p.1 ∧ ∀ e ∈ p.2.entries, V.Entry e) m
      (exec (onScratch (args.map m.entryOf).reverse step) m) := by
  let started := { m with stack := { entries := (args.map m.entryOf).reverse } }
  have hin : started.In V := by
    refine ⟨fun e h => ?_, hm.scopes, hm.snapshots⟩
    obtain ⟨o, ho, rfl⟩ := List.mem_map.mp (List.mem_reverse.mp h)
    exact Vocabulary.entry_store (ha o ho) _ _
  obtain ⟨course, result⟩ := hs started hin
  rw [exec_onScratch]
  refine ⟨.scratch args ha course, fun p hp => ?_⟩
  obtain ⟨a, hr, rfl⟩ := map_eq_ok.mp hp
  exact ⟨result a hr, (course.keeps hin).stack⟩

/-- Storing an entry under a name fails, or takes both off the stack and binds the name. -/
theorem along_assignTop {m : Machine} : Along V (fun _ => True) m (exec assignTop m) := by
  refine .read (exec_top m) fun _ _ => .read (exec_lift m _) fun name _ => ?_
  split
  · exact .error (.idle m)
  · rename_i free
    refine .get (.read (exec_liftStack m _) fun e he => .read (exec_liftStack m _) fun p hp => ?_)
    have held := mem_peek (mapError_eq_ok.mp he)
    have free := Bool.eq_false_iff.mpr free
    exact .ok (.assigned name e held free p.2 (.of_popMany (mapError_eq_ok.mp hp))) trivial

section
variable {evaluate : Expr → Calc Operand}
  (he : ∀ e : Expr, V.values (.symbolic e) → Within V V.Operand (evaluate e))

include he

theorem within_evaluateTop : Within V (fun _ => True) (evaluateTop evaluate) := by
  intro m hm
  refine .read (exec_top m) fun e htop => ?_
  have hv : V.values e.value := hm.stack e (top_eq_ok htop)
  split
  · rename_i expr heq
    exact .bind hm (he expr (heq ▸ hv) m hm) fun o ho => within_replaceTop ho
  · exact .ok (.idle m) trivial

theorem within_runDirect {action : Action} (ha : Admitted V action) :
    Within V (fun _ => True) (runDirect evaluate action) := by
  intro m hm
  rcases ha with does | ⟨undoes, rfl⟩
  · cases action with
    | primitive run => exact (does m).along
    | evaluate => exact within_evaluateTop he m hm
    | assign => exact along_assignTop
    | call => exact .ok (.idle m) trivial
  · exact along_undo undoes m

/-- What a name stands for is run on a machine whose scopes it is found in. -/
theorem along_runCallee {m : Machine} (hm : m.In V) {callee : Callee}
    (hc : callee.In V m.scopes) :
    Along V (fun _ => True) m (exec (runCallee evaluate callee) m) := by
  cases hc with
  | «variable» bound => exact along_pushBound bound
  | operation admitted =>
    exact .read (exec_requireArgs _ _ m) fun _ _ => within_runDirect he admitted m hm

theorem within_callTop : Within V (fun _ => True) (callTop evaluate) := by
  intro m hm
  refine .get (.read (exec_lift m _) fun p hp => ?_)
  obtain ⟨hcallee, hbelow⟩ := within_followCalls m.stack.entries hm.stack p hp
  rw [exec_modify_bind]
  -- The callee is found in the scopes as they are, and taking the names off leaves them so.
  have taken : Course V m { m with stack := m.stack.withEntries p.2 } :=
    .taken _ (.of_suffix hbelow)
  exact .after taken (along_runCallee he (taken.keeps hm) hcallee)

theorem within_runAction {action : Action} (ha : Admitted V action) :
    Within V (fun _ => True) (runAction evaluate action) := by
  cases action with
  | call => exact within_callTop he
  | primitive _ | evaluate | assign => exact within_runDirect he ha

theorem within_runName {name : String} (hn : V.names name) :
    Within V (fun _ => True) (runName evaluate name) := by
  intro m hm
  refine .get (.read (exec_lift m _) fun callee hc => ?_)
  cases within_resolveName hn callee hc with
  | «variable» bound => exact along_pushBound bound
  | operation admitted =>
    exact .read (exec_requireArgs _ _ m) fun _ _ => within_runAction he admitted m hm

/-! ## 3. Expressions -/

theorem within_applyOperation {name : String} {args : List Operand} (hn : V.names name)
    (ha : ∀ o ∈ args, V.Operand o) : Within V V.Operand (applyOperation evaluate name args) := by
  intro m hm
  unfold applyOperation
  split
  · exact .error (.idle m)
  · rename_i op hop
    have ran : Within V (fun _ => True)
        (do requireArgs op.name op.minArgs; runAction evaluate op.action) := fun n hn =>
      .read (exec_requireArgs _ _ n) fun _ _ => within_runAction he (admitted_find ‹_› hop) n hn
    refine .get (.bind hm (along_onScratch hm ha ran) fun p hp => ?_)
    split
    rename_i scratch
    have hscratch : ∀ e ∈ scratch.entries, V.Entry e := hp.2
    split
    · rename_i e hentries
      rw [hentries] at hscratch
      exact .pure (hscratch e (List.mem_singleton.mpr rfl))
    · exact .throw

theorem within_evaluateBound {e : Entry} (hv : V.Entry e) :
    Within V V.Operand (evaluateBound evaluate e) := by
  unfold Vocabulary.Entry at hv
  unfold evaluateBound
  split
  · rename_i inner heq
    exact he inner (heq ▸ hv)
  · exact .pure hv

theorem within_evaluateNode {e : Expr} (h : V.values (.symbolic e)) :
    Within V V.Operand (evaluateNode evaluate e) := by
  intro m hm
  have unevaluated : Along V V.Operand m (exec (pure (.plain (.symbolic e))) m) := .ok (.idle m) h
  unfold evaluateNode
  split
  · refine .get ?_
    split
    · exact within_evaluateBound he (hm.scopes.get ‹_›) m hm
    · exact unevaluated
  · exact .ok (.idle m) (V.const h)
  · refine .get ?_
    split
    · exact within_evaluateBound he (hm.scopes.get ‹_›) m hm
    · split
      · exact within_applyOperation he (V.apply.mp h).1 (List.forall_mem_nil _) m hm
      · exact unevaluated
  · rename_i name args _
    obtain ⟨hn, hargs⟩ := V.apply.mp h
    refine .bind hm (Within.mapM (fun a ha => he a (hargs a ha)) m hm) fun os hos => ?_
    split
    · refine .pure ?_
      refine V.apply.mpr ⟨hn, fun x hx => ?_⟩
      obtain ⟨o, ho, rfl⟩ := List.mem_map.mp hx
      exact V.made (.expression (.given (hos o ho)))
    · exact within_applyOperation he hn hos

end

/-- A step one level deeper, with a course of its own. -/
theorem within_deeper {α : Type} {Q : α → Prop} {step : Calc α} (h : Within V Q step) :
    Within V Q (deeper step) := by
  intro m hm
  have hin : Machine.In V { m with nesting := m.nesting + 1 } :=
    ⟨hm.stack, hm.scopes, hm.snapshots⟩
  rw [exec_deeper]
  exact ⟨.deeper (h _ hin).course, (h _ hin).result⟩

/-- Evaluation stays in the vocabulary of its machine and its expression. -/
theorem within_evaluateExpr (levels : Nat) :
    ∀ e : Expr, V.values (.symbolic e) → Within V V.Operand (evaluateExpr levels e) := by
  induction levels with
  | zero => exact fun _ _ => .throw
  | succ levels ih => exact fun _ h => within_deeper (within_evaluateNode ih h)

end Evaluator

/-! ## 4. Instructions -/

/-- An instruction with names and values of a vocabulary, programs of any nesting among them. -/
inductive Instruction.In (V : Vocabulary) : Instruction → Prop
  | noop : noop.In V
  | truth (b : Bool) : (truth b).In V
  | number {v : Value} (h : V.values v) (unit : UnitProduct) : (number v unit).In V
  | list {items : List Value} (h : ∀ v ∈ items, V.values v) : (list items).In V
  | matrix (rows : List (List Value)) : (matrix rows).In V
  | time (t : Time) : (time t).In V
  | reference {name : String} (h : V.names name) : (reference name).In V
  | symbolic {e : Expr} (h : V.values (.symbolic e)) : (symbolic e).In V
  | keyword {name : String} (h : V.names name) : (keyword name).In V
  | program {body : List Instruction} (h : ∀ i ∈ body, i.In V) : (program body).In V

namespace Evaluator

variable {V : Vocabulary}

/-- A step in a scope of its own, with a course of its own. -/
theorem within_inScope {step : Calc Unit} (h : Within V (fun _ => True) step) :
    Within V (fun _ => True) (inScope step) := by
  intro m hm
  have hin : Machine.In V { m with scopes := m.scopes.enter } :=
    ⟨hm.stack, hm.scopes.enter, hm.snapshots⟩
  rw [exec_inScope]
  exact ⟨.inner (h _ hin).course, (h _ hin).result⟩

/-- A literal is pushed. -/
theorem within_pushMade {v : Value} (h : v.Made V.values) (unit : UnitProduct) :
    Within V (fun _ => True) (pushOperand ⟨v, unit⟩) :=
  within_pushOperand (V.made h)

/-- An instruction has a course in its vocabulary. The recursion is on the levels, as programs are
run with one level less. -/
theorem within_runInstruction : ∀ (levels : Nat) (i : Instruction), i.In V →
    Within V (fun _ => True) (runInstruction levels i)
  | levels, i, h => by
    unfold runInstruction
    cases h with
    | noop => exact .pure trivial
    | truth b => exact within_pushMade (.scalar _) _
    | number h unit => exact within_pushMade (.given h) unit
    | list h =>
      exact fun m hm => .get (.read (exec_lift m _) fun v hv =>
        within_pushMade (.ofItems (fun w hw => .given (h w hw)) hv) .none m hm)
    | matrix rows =>
      exact fun m hm => .read (exec_lift m _) fun c _ => within_pushMade (.matrix c) .none m hm
    | time t => exact within_pushMade (.time t) .none
    | reference h =>
      exact within_pushMade (.given (V.apply.mpr ⟨h, List.forall_mem_nil _⟩)) .none
    | symbolic h => exact within_pushMade (.given h) .none
    | keyword h => exact within_runName (within_evaluateExpr levels) h
    | program h =>
      cases levels with
      | zero => exact .throw
      | succ levels =>
        refine within_deeper (within_inScope ?_)
        exact .forM fun j hj => within_runInstruction levels j (h j hj)

end Evaluator
end StackCalc
