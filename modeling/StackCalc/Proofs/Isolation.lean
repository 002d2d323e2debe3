import StackCalc.Proofs.Outcome
import StackCalc.Proofs.Snapshots
import StackCalc.Proofs.StackOnly

/-! # What evaluation leaves alone

The operations inside an expression run on a stack of their own, but on the settings, the variables
and the history of the session. Their arguments are no expressions, so none of them can name a
variable: the variables and the entries below the expression stay as they are, whether the
evaluation fails or not. The settings and the history do not. A display mode or undo that is called
from an expression takes effect, and a failure does not take it back. -/

namespace StackCalc

open Calc Evaluator

/-! ## 1. Steps that leave the variables alone -/

namespace Machine

/-- The variables and the limits are the same. How entries are shown and stored may change if
`sets` holds, and the latest snapshots may be lost if `undoes` does. -/
structure Apart (sets undoes : Prop) (m n : Machine) : Prop where
  scopes : n.scopes = m.scopes
  restyled : ∃ style modes, n.settings = { m.settings with style, modes }
  settings : ¬ sets → n.settings = m.settings
  history : ∃ lost, n.history = m.history.dropLatest lost ∧ (¬ undoes → lost = 0)

/-- The history keeps to the settings. -/
abbrev Bounded (m : Machine) : Prop := m.history.Bounded m.settings.undoDepth

variable {sets undoes : Prop} {m n k : Machine}

theorem StackOnly.apart (h : m.StackOnly n) : m.Apart sets undoes n where
  scopes := h.scopes
  restyled := ⟨m.settings.style, m.settings.modes, h.settings⟩
  settings _ := h.settings
  history := ⟨0, h.history, fun _ => rfl⟩

namespace Apart

theorem refl (m : Machine) : m.Apart sets undoes m := (StackOnly.refl m).apart

theorem trans (h : m.Apart sets undoes n) (h' : n.Apart sets undoes k) :
    m.Apart sets undoes k where
  scopes := h'.scopes.trans h.scopes
  restyled := by
    obtain ⟨style, modes, restyled⟩ := h.restyled
    obtain ⟨style', modes', restyled'⟩ := h'.restyled
    exact ⟨style', modes', by rw [restyled', restyled]⟩
  settings same := (h'.settings same).trans (h.settings same)
  history := by
    obtain ⟨lost, dropped, kept⟩ := h.history
    obtain ⟨lost', dropped', kept'⟩ := h'.history
    refine ⟨lost + lost', ?_, fun never => ?_⟩
    · rw [dropped', dropped, History.dropLatest_dropLatest]
    · rw [kept never, kept' never]

theorem mono {sets' undoes' : Prop} (h : m.Apart sets undoes n) (hs : sets → sets')
    (hu : undoes → undoes') : m.Apart sets' undoes' n where
  scopes := h.scopes
  restyled := h.restyled
  settings same := h.settings fun holds => same (hs holds)
  history := by
    obtain ⟨lost, dropped, kept⟩ := h.history
    exact ⟨lost, dropped, fun never => kept fun holds => never (hu holds)⟩

theorem bounded (h : m.Apart sets undoes n) (hm : m.Bounded) : n.Bounded := by
  obtain ⟨_, _, restyled⟩ := h.restyled
  obtain ⟨lost, dropped, _⟩ := h.history
  rw [Bounded, restyled, dropped]
  exact hm.dropLatest lost

/-- What stack there is does not matter. -/
theorem withStack (h : m.Apart sets undoes n) (before later : Stack) :
    Machine.Apart sets undoes { m with stack := before } { n with stack := later } :=
  ⟨h.scopes, h.restyled, h.settings, h.history⟩

end Apart

end Machine

namespace Calc

variable {α β : Type}

/-- A step that leaves the variables and the limits alone. -/
def Apart (sets undoes : Prop) (x : Calc α) : Prop :=
  ∀ m : Machine, m.Bounded → m.Apart sets undoes (exec x m).2

variable {sets undoes : Prop}

theorem StackOnly.apart {x : Calc α} (h : x.StackOnly) : x.Apart sets undoes :=
  fun m _ => (h m).apart

theorem Apart.bind {x : Calc α} {f : α → Calc β} (hx : x.Apart sets undoes)
    (hf : ∀ a, (f a).Apart sets undoes) : (x >>= f).Apart sets undoes := by
  intro m hm
  rw [exec_bind]
  have first := hx m hm
  cases h : exec x m with
  | mk r n =>
    rw [h] at first
    cases r with
    | error e => exact first
    | ok a => exact first.trans (hf a n (first.bounded hm))

theorem apart_changeSettings {f : Settings → Settings}
    (hf : ∀ s, ∃ style modes, f s = { s with style, modes }) :
    (changeSettings f).Apart True undoes := by
  intro m hm
  obtain ⟨style, modes, hset⟩ := hf m.settings
  rcases exec_changeSettings f m with ⟨e, h⟩ | ⟨_, _, h⟩
  · rw [h]
    exact .refl m
  · rw [h, hset]
    exact ⟨rfl, ⟨style, modes, rfl⟩, fun never => absurd trivial never,
      ⟨0, hm.withDepth_eq, fun _ => rfl⟩⟩

theorem apart_undo : undo.Apart sets True := by
  intro m _
  rw [exec_undo]
  split
  · exact .refl m
  · rename_i entries history h
    refine ⟨rfl, ⟨m.settings.style, m.settings.modes, rfl⟩, fun _ => rfl, 1, ?_, ?_⟩
    · rw [History.pop_eq_some h]
      rfl
    · exact fun never => absurd trivial never

end Calc

namespace Catalogue

theorem apart_restyle (f : NumberStyle → NumberStyle) : (restyle f).Apart True False :=
  apart_changeSettings fun s => ⟨f s.style, s.modes, rfl⟩

theorem apart_remode (f : DisplayModes → DisplayModes) : (remode f).Apart True False :=
  apart_changeSettings fun s => ⟨s.style, f s.modes, rfl⟩

theorem apart_restyleByTop (op : String) (f : NumberStyle → Nat → NumberStyle) :
    (restyleByTop op f).Apart True False := by
  have top : Calc.top.StackOnly := stackOnly_of_read fun m => ⟨_, exec_top m⟩
  refine top.apart.bind fun e => ?_
  refine (stackOnly_lift _).apart.bind fun _ => ?_
  refine (stackOnly_lift _).apart.bind fun n => ?_
  split
  · exact fun m _ => .refl m
  · exact (apart_restyle _).bind fun _ => (stackOnly_rearrange _).apart

/-- An operation that changes settings has no other effect beyond the stack. -/
theorem apart_setters : ∀ op ∈ setters, ∃ run, op.action = .primitive run ∧
    run.Apart True False := by
  have listed : setters = [binary, octal, decimal, hexadecimal, base, wordSize, signed, unsigned,
      precision, degrees, radians, gradians, rectangular, polar, mixed, improper] := rfl
  simp only [listed, List.forall_mem_cons]
  exact ⟨⟨_, rfl, apart_restyle _⟩, ⟨_, rfl, apart_restyle _⟩, ⟨_, rfl, apart_restyle _⟩,
    ⟨_, rfl, apart_restyle _⟩, ⟨_, rfl, apart_restyleByTop _ _⟩, ⟨_, rfl, apart_restyleByTop _ _⟩,
    ⟨_, rfl, apart_restyle _⟩, ⟨_, rfl, apart_restyle _⟩, ⟨_, rfl, apart_restyleByTop _ _⟩,
    ⟨_, rfl, apart_remode _⟩, ⟨_, rfl, apart_remode _⟩, ⟨_, rfl, apart_remode _⟩,
    ⟨_, rfl, apart_remode _⟩, ⟨_, rfl, apart_remode _⟩, ⟨_, rfl, apart_remode _⟩,
    ⟨_, rfl, apart_remode _⟩, List.forall_mem_nil _⟩

end Catalogue

/-! ## 2. Operations on a stack without expressions -/

theorem Value.symbolic_of_kind {v : Value} (h : v.kind = .symbolic) : ∃ e, v = .symbolic e := by
  cases v with
  | symbolic e => exact ⟨e, rfl⟩
  | scalar x => exact absurd h (concrete_scalar x)
  | list | matrix | time => cases h

namespace Machine

/-- No entry on the stack is an expression. -/
def OnConcrete (m : Machine) : Prop := ∀ e ∈ m.stack.entries, e.value.Concrete

end Machine

namespace Evaluator

variable {m : Machine} {evaluate : Expr → Calc Operand}

/-- A step that looks at the top entry, and goes on to read only if that is no expression. -/
theorem exec_top_read {f : Entry → Calc Unit} (hm : m.OnConcrete)
    (hf : ∀ e : Entry, e.value.Concrete → ∃ r, exec (f e) m = (r, m)) :
    ∃ r, exec (Calc.top >>= f) m = (r, m) := by
  rw [exec_bind, exec_top]
  cases h : (m.stack.peek 0).mapError Error.stack with
  | error fault => exact ⟨_, rfl⟩
  | ok e => exact hf e (hm e (top_eq_ok h))

theorem variableName_concrete (op : String) {e : Entry} (he : e.value.Concrete) :
    ∃ fault, Catalogue.variableName op e = .error fault := by
  unfold Catalogue.variableName
  split
  · rename_i name symbolic
    exact absurd (by rw [symbolic]; rfl) he
  · exact ⟨_, rfl⟩

theorem calledName_concrete {e : Entry} (he : e.value.Concrete) :
    ∃ fault, calledName e = .error fault := by
  unfold calledName
  split
  · rename_i name symbolic
    exact absurd (by rw [symbolic]; rfl) he
  · rename_i name symbolic
    exact absurd (by rw [symbolic]; rfl) he
  · exact ⟨_, rfl⟩

/-- Without a name on top of the stack, a step that takes one fails. -/
theorem exec_named (op : String) (f : String → Calc Unit) (hm : m.OnConcrete) :
    ∃ r, exec (do f (← lift (Catalogue.variableName op (← Calc.top)))) m = (r, m) := by
  refine exec_top_read hm fun e he => ?_
  obtain ⟨fault, h⟩ := variableName_concrete op he
  rw [h]
  exact ⟨_, rfl⟩

theorem exec_evaluateTop_concrete (hm : m.OnConcrete) :
    ∃ r, exec (evaluateTop evaluate) m = (r, m) := by
  refine exec_top_read hm fun e he => ?_
  split
  · rename_i inner symbolic
    exact absurd (by rw [symbolic]; rfl) he
  · exact ⟨_, rfl⟩

theorem exec_callTop_concrete (hm : m.OnConcrete) :
    ∃ r, exec (callTop evaluate) m = (r, m) := by
  have failed : ∃ fault, followCalls m.scopes m.stack.entries = .error fault := by
    unfold Machine.OnConcrete at hm
    cases h : m.stack.entries with
    | nil => exact ⟨_, rfl⟩
    | cons e below =>
      obtain ⟨fault, hfault⟩ := calledName_concrete (hm e (by simp [h]))
      refine ⟨fault, ?_⟩
      rw [followCalls, hfault]
      rfl
  obtain ⟨fault, h⟩ := failed
  rw [callTop, exec_get_bind, h]
  exact ⟨_, rfl⟩

/-- The operations on names find none on a stack without expressions. -/
theorem exec_references (evaluate : Expr → Calc Operand) (hm : m.OnConcrete) :
    ∀ op ∈ Catalogue.references,
    ∃ r, exec (runAction evaluate op.action) m = (r, m) := by
  simp only [Catalogue.references, List.forall_mem_cons]
  exact ⟨exec_named _ _ hm, exec_named _ _ hm, exec_named _ _ hm, exec_evaluateTop_concrete hm,
    exec_callTop_concrete hm, List.forall_mem_nil _⟩

/-- On a stack without expressions, an operation leaves the variables and the limits alone. Only
those that change settings change them, and only undo touches the history. -/
theorem apart_runAction (bounded : m.Bounded) (hm : m.OnConcrete) {op : Operation}
    (hop : op ∈ Registry.operations) :
    m.Apart (op ∈ Catalogue.setters) (op = Catalogue.undo)
      (exec (runAction evaluate op.action) m).2 := by
  rcases stackOnly_operations op hop with ⟨run, hrun, only⟩ | rfl | setter | reference
  · rw [hrun]
    exact (only m).apart
  · exact (apart_undo m bounded).mono id fun _ => rfl
  · obtain ⟨run, hrun, apart⟩ := Catalogue.apart_setters op setter
    rw [hrun]
    exact (apart m bounded).mono (fun _ => setter) False.elim
  · obtain ⟨r, h⟩ := exec_references evaluate hm op reference
    rw [h]
    exact .refl m

end Evaluator

/-! ## 3. Evaluation -/

/-- Names of which one leads to an operation that changes settings. -/
def SetsBy (names : String → Prop) : Prop :=
  ∃ name op, names name ∧ Registry.find? name = some op ∧ op ∈ Catalogue.setters

/-- Names of which one leads to undo. -/
def UndoesBy (names : String → Prop) : Prop :=
  ∃ name, names name ∧ Registry.find? name = some Catalogue.undo

/-- An entry with an expression, if it has one, over the given names. -/
def Entry.Over (names : String → Prop) (e : Entry) : Prop := ∀ name ∈ e.value.names, names name

/-- The stack, the variables and the limits are the same. What becomes of the settings and the
history depends on the names. -/
structure Machine.Sealed (names : String → Prop) (m n : Machine) : Prop where
  stack : n.stack = m.stack
  apart : m.Apart (SetsBy names) (UndoesBy names) n

theorem Machine.Sealed.refl (names : String → Prop) (m : Machine) : m.Sealed names m :=
  ⟨rfl, .refl m⟩

theorem Machine.Sealed.trans {names : String → Prop} {m n k : Machine} (h : m.Sealed names n)
    (h' : n.Sealed names k) : m.Sealed names k :=
  ⟨h'.stack.trans h.stack, h.apart.trans h'.apart⟩

/-- A step that leaves the stack, the variables and the limits alone, as long as the variables are
bound to expressions over the given names. -/
def Calc.Seals {α : Type} (names : String → Prop) (x : Calc α) : Prop :=
  ∀ m : Machine, m.Bounded → m.scopes.All (Entry.Over names) → m.Sealed names (exec x m).2

namespace Calc.Seals

variable {α β : Type} {names : String → Prop}

theorem of_read {x : Calc α} (h : ∀ m, ∃ r, exec x m = (r, m)) : x.Seals names := by
  intro m _ _
  obtain ⟨r, hr⟩ := h m
  rw [hr]
  exact .refl names m

protected theorem pure (a : α) : (pure a : Calc α).Seals names := of_read fun _ => ⟨_, rfl⟩

protected theorem throw (e : Error) : (throw e : Calc α).Seals names := of_read fun _ => ⟨_, rfl⟩

protected theorem bind {x : Calc α} {f : α → Calc β} (hx : x.Seals names)
    (hf : ∀ a, (f a).Seals names) : (x >>= f).Seals names := by
  intro m bounded scopes
  rw [exec_bind]
  have first := hx m bounded scopes
  cases h : exec x m with
  | mk r n =>
    rw [h] at first
    cases r with
    | error e => exact first
    | ok a =>
      refine first.trans (hf a n (first.apart.bounded bounded) ?_)
      rw [first.apart.scopes]
      exact scopes

/-- A step that starts by reading the state. -/
theorem get {f : Machine → Calc β}
    (hf : ∀ m : Machine, m.scopes.All (Entry.Over names) → (f m).Seals names) :
    (get >>= f).Seals names := by
  intro m bounded scopes
  rw [exec_get_bind]
  exact hf m scopes m bounded scopes

theorem mapM {as : List α} {f : α → Calc β} (h : ∀ a ∈ as, (f a).Seals names) :
    (as.mapM f).Seals names := by
  induction as with
  | nil => exact .pure []
  | cons a as ih =>
    rw [List.mapM_cons]
    refine .bind (h a (by simp)) fun b => ?_
    exact .bind (ih fun c hc => h c (List.mem_cons_of_mem a hc)) fun bs => .pure (b :: bs)

end Calc.Seals

namespace Evaluator

variable {names : String → Prop}

/-- A step on a stack of its own does nothing to the old one. -/
theorem seals_onScratch {α : Type} {entries : List Entry} {step : Calc α}
    (hs : ∀ m : Machine, m.Bounded → m.stack.entries = entries →
      m.Apart (SetsBy names) (UndoesBy names) (exec step m).2) :
    (onScratch entries step).Seals names := by
  intro m bounded _
  rw [exec_onScratch]
  exact ⟨rfl, (hs { m with stack := { entries } } bounded rfl).withStack m.stack m.stack⟩

theorem seals_deeper {α : Type} {step : Calc α} (h : step.Seals names) :
    (deeper step).Seals names := by
  intro m bounded scopes
  obtain ⟨stack, apart⟩ := h { m with nesting := m.nesting + 1 } bounded scopes
  rw [exec_deeper]
  exact ⟨stack, apart.scopes, apart.restyled, apart.settings, apart.history⟩

section
variable {evaluate : Expr → Calc Operand}

theorem seals_applyOperation {name : String} (hn : names name) {args : List Operand}
    (concrete : ∀ o ∈ args, o.Concrete) : (applyOperation evaluate name args).Seals names := by
  unfold applyOperation
  split
  · exact .throw _
  · rename_i op found
    refine .get fun m _ => .bind (seals_onScratch fun n bounded entries => ?_) fun p => ?_
    · have onConcrete : n.OnConcrete := by
        intro e he
        rw [entries, List.mem_reverse] at he
        obtain ⟨o, ho, rfl⟩ := List.mem_map.mp he
        exact (Operand.concrete_stored _ o).mpr (concrete o ho)
      rw [exec_bind, exec_requireArgs]
      cases n.checkArgs op.name op.minArgs with
      | error e => exact .refl n
      | ok _ =>
        exact (apart_runAction bounded onConcrete (Registry.mem_of_find found)).mono
          (fun setter => ⟨name, op, hn, found, setter⟩)
          (fun isUndo => ⟨name, hn, found.trans (congrArg some isUndo)⟩)
    · split
      split
      · exact .pure _
      · exact .throw _

variable (he : ∀ e : Expr, (∀ name ∈ e.names, names name) → (evaluate e).Seals names)

include he

theorem seals_evaluateBound {e : Entry} (known : e.Over names) :
    (evaluateBound evaluate e).Seals names := by
  unfold Entry.Over at known
  unfold evaluateBound
  split
  · rename_i inner symbolic
    rw [symbolic] at known
    exact he inner known
  · exact .pure _

theorem seals_evaluateNode {e : Expr} (known : ∀ name ∈ e.names, names name) :
    (evaluateNode evaluate e).Seals names := by
  unfold evaluateNode
  split
  · refine .get fun m scopes => ?_
    split
    · exact seals_evaluateBound he (scopes.get ‹_›)
    · exact .pure _
  · exact .pure _
  · rename_i name
    refine .get fun m scopes => ?_
    split
    · exact seals_evaluateBound he (scopes.get ‹_›)
    · split
      · exact seals_applyOperation (known name (by simp [Expr.names])) (List.forall_mem_nil _)
      · exact .pure _
  · rename_i name args _
    rw [Expr.names, namesOfArgs_eq, List.forall_mem_cons] at known
    refine .bind (.mapM fun a ha => he a fun n hn => ?_) fun os => ?_
    · exact known.2 n (List.mem_flatMap.mpr ⟨a, ha, hn⟩)
    · split
      · exact .pure _
      · rename_i none
        have concrete : ∀ o ∈ os, ¬ o.kind = .symbolic := by simpa using none
        exact seals_applyOperation known.1 concrete

end

/-- Evaluation leaves the stack, the variables and the limits alone. -/
theorem seals_evaluateExpr (levels : Nat) : ∀ e : Expr, (∀ name ∈ e.names, names name) →
    (evaluateExpr levels e).Seals names := by
  induction levels with
  | zero => exact fun _ _ => .throw _
  | succ levels ih => exact fun _ known => seals_deeper (seals_evaluateNode ih known)

end Evaluator

/-! ## 4. Evaluating the top of the stack -/

/-- The names of the operations that change settings. -/
def Catalogue.setterNames : List String :=
  setters.flatMap fun op => op.name :: op.aliases

theorem Catalogue.lower_setterNames :
    ∀ op ∈ setters, ∀ known ∈ op.name :: op.aliases, Text.foldCase known ∈ setterNames := by
  decide +kernel

/-- Names that avoid those of the operations that change settings lead to none of these. -/
theorem not_setsBy {names : String → Prop}
    (h : ∀ name, names name → Avoids Catalogue.setterNames name) : ¬ SetsBy names := by
  rintro ⟨name, op, hname, found, setter⟩
  obtain ⟨known, hknown, hlower⟩ := Registry.lower_of_find found
  refine h name hname ?_
  rw [hlower]
  exact Catalogue.lower_setterNames op setter known hknown

theorem not_undoesBy {names : String → Prop} (h : ∀ name, names name → Avoids ["undo"] name) :
    ¬ UndoesBy names := by
  rintro ⟨name, hname, found⟩
  exact h name hname (List.mem_singleton.mpr (Registry.lower_of_undo found))

namespace Session

variable {m : Session} {e : Expr} {x : Entry} {below : List Entry}

theorem exec_keyword_eval (levels : Nat) (free : m.scopes.Free)
    (hm : m.stack.entries = x :: below) : exec (runInstruction levels (.keyword "eval")) m =
      exec (evaluateTop (evaluateExpr levels)) m := by
  have found : Registry.find? Catalogue.evaluate.name = some Catalogue.evaluate :=
    Registry.find_name (Registry.mem_of_references (by simp [Catalogue.references]))
  have enough : m.checkArgs Catalogue.evaluate.name Catalogue.evaluate.minArgs = .ok () := by
    rw [Machine.checkArgs_eq_ok, Stack.size, hm]
    exact Nat.le_add_left 1 below.length
  rw [← show Catalogue.evaluate.name = "eval" from rfl,
    exec_keyword_unbound levels (free.unbound found) found, enough]
  rfl

theorem exec_eval_symbolic (levels : Nat) (free : m.scopes.Free)
    (hm : m.stack.entries = x :: below) (hx : x.value = .symbolic e) :
    exec (runInstruction levels (.keyword "eval")) m =
      exec (evaluateExpr levels e >>= fun o => replaceTop 1 [o]) m := by
  have top : m.stack.peek 0 = .ok x := by simp [Stack.peek, hm]
  rw [exec_keyword_eval levels free hm, evaluateTop, exec_bind, exec_top, top]
  dsimp only [mapError_ok]
  rw [hx]

/-- An expression on top of the stack is replaced by its result, or nothing becomes of the stack.
The variables and the limits stay. -/
theorem exec_eval_sealed {names : String → Prop} (free : m.scopes.Free) (bounded : m.Bounded)
    (hm : m.stack.entries = x :: below) (hx : x.value = .symbolic e)
    (known : ∀ name ∈ e.names, names name) (scopes : m.scopes.All (Entry.Over names))
    {levels : Nat} {r : Except Error Unit} {n : Session}
    (h : exec (runInstruction levels (.keyword "eval")) m = (r, n)) :
    m.Apart (SetsBy names) (UndoesBy names) n ∧
      (r = .ok () → ∃ y, n.stack = m.stack.withEntries (y :: below)) := by
  rw [exec_eval_symbolic levels free hm hx, exec_bind] at h
  obtain ⟨stack, apart⟩ := seals_evaluateExpr levels e known m bounded scopes
  cases evaluated : exec (evaluateExpr levels e) m with
  | mk value k =>
    rw [evaluated] at h stack apart
    cases value with
    | error fault =>
      cases h
      exact ⟨apart, fun failed => by cases failed⟩
    | ok o =>
      dsimp only at h stack apart
      have replaced := stackOnly_replaceTop 1 [o] k
      rw [h] at replaced
      refine ⟨apart.trans replaced.apart, fun succeeded => ?_⟩
      cases succeeded
      rcases exec_replaceTop_cases 1 [o] k with ⟨fault, failed⟩ | ⟨_, _, done⟩
      · cases failed.symm.trans h
      · cases done.symm.trans h
        refine ⟨k.entryOf o, ?_⟩
        simp [Machine.replaced, stack, hm]

theorem leavesSnapshot_eval (m : Session) : leavesSnapshot m (.keyword "eval") = true := by
  have found : Registry.find? Catalogue.evaluate.name = some Catalogue.evaluate :=
    Registry.find_name (Registry.mem_of_references (by simp [Catalogue.references]))
  have recorded : (Registry.find? "eval").any Operation.recorded = true := by
    rw [← show Catalogue.evaluate.name = "eval" from rfl, found]
    rfl
  rw [leavesSnapshot, recorded, Bool.or_true]

/-- The names in an entry and in the variables of a session. -/
def Mentions (m : Session) (x : Entry) (name : String) : Prop :=
  name ∈ x.value.names ∨ ∃ f ∈ m.scopes.frames, ∃ b ∈ f.bindings, name ∈ b.2.value.names

theorem avoids_of_mentions {lower : List String} (hx : x.Avoids lower)
    (hm : m.scopes.All (Entry.Avoids lower)) :
    ∀ name, Mentions m x name → Avoids lower name := by
  rintro name (top | ⟨f, hf, b, hb, bound⟩)
  · exact hx name top
  · exact hm f hf b hb name bound

/-- Whatever expression a session comes to have on top, evaluating it leaves all variables, the
limits and every entry below it as they were, and if it fails, the whole stack. The settings and
the history are as they were, but for the snapshot of a success, unless the expression or a
variable mentions an operation that changes settings, or undo. -/
theorem eval_isolated (settings : Settings) (clock : Int) (steps : List Step) (x : Entry)
    (e : Expr) (below : List Entry) :
    let m := after (Machine.start settings clock) steps
    let r := runOne (.keyword "eval") m
    m.stack.entries = x :: below → x.value = .symbolic e →
      r.2.scopes = m.scopes ∧
      (if r.1.isOk then ∃ y, r.2.stack = m.stack.withEntries (y :: below)
        else r.2.stack = m.stack) ∧
      (∃ style modes, r.2.settings = { m.settings with style, modes }) ∧
      (x.Avoids Catalogue.setterNames → m.scopes.All (Entry.Avoids Catalogue.setterNames) →
        r.2.settings = m.settings) ∧
      ∃ lost, r.2.history = (m.history.dropLatest lost).pushAll
          (if r.1.isOk then [m.stack.entries] else []) ∧
        (x.Avoids ["undo"] → m.scopes.All (Entry.Avoids ["undo"]) → lost = 0) := by
  intro m r hm hx
  have rest : m.AtRest := atRest_after settings clock steps
  have free : m.scopes.Free := free_after settings clock steps
  have known : ∀ name ∈ e.names, Mentions m x name := fun name hname =>
    .inl (by rwa [hx])
  have scopes : m.scopes.All (Entry.Over (Mentions m x)) := fun f hf b hb name hname =>
    .inr ⟨f, hf, b, hb, hname⟩
  have sealed {k : Session} {outcome : Except Error Unit}
      (h : exec (runInstruction (levelsLeft m) (.keyword "eval")) m = (outcome, k)) :=
    exec_eval_sealed free rest.history hm hx known scopes h
  have still (h : x.Avoids Catalogue.setterNames)
      (hs : m.scopes.All (Entry.Avoids Catalogue.setterNames)) : ¬ SetsBy (Mentions m x) :=
    not_setsBy (avoids_of_mentions h hs)
  have kept (h : x.Avoids ["undo"]) (hs : m.scopes.All (Entry.Avoids ["undo"])) :
      ¬ UndoesBy (Mentions m x) := not_undoesBy (avoids_of_mentions h hs)
  rcases runOne_cases (.keyword "eval") m with ⟨k, run, hr⟩ | ⟨fault, k, run, hr⟩
  · obtain ⟨apart, replaced⟩ := sealed run
    obtain ⟨lost, dropped, never⟩ := apart.history
    have hr : r = (.ok (), { k with history := k.history.push m.stack.entries }) := by
      rw [leavesSnapshot_eval, if_pos rfl] at hr
      exact hr
    rw [hr]
    refine ⟨apart.scopes, replaced rfl, apart.restyled, ?_, lost, ?_, ?_⟩
    · exact fun h hs => apart.settings (still h hs)
    · rw [dropped]
      rfl
    · exact fun h hs => never (kept h hs)
  · obtain ⟨apart, _⟩ := sealed run
    obtain ⟨lost, dropped, never⟩ := apart.history
    have hr : r = _ := hr
    rw [hr]
    refine ⟨apart.scopes, rest.failed_stack (course_of_run (Instruction.inAll _) m.inAll run),
      apart.restyled, ?_, lost, ?_, ?_⟩
    · exact fun h hs => apart.settings (still h hs)
    · rw [dropped]
      exact (rest.history.dropLatest lost).pushAll_nil.symm
    · exact fun h hs => never (kept h hs)

/-- A variable is bound to 7, then 5 is pushed, and an expression over the variable. -/
def boundThenAdded : List Step :=
  [.instruction (.number (.integer 7) .none), .instruction (.symbolic (.var "X")),
    .instruction (.keyword "sto"), .instruction (.number (.integer 5) .none),
    .instruction (.symbolic (.apply "+" [.var "X", .const (.integer 1)]))]

/-- Evaluating the sum replaces it and changes nothing else, but for one more snapshot. -/
theorem eval_isolated_sum :
    let m := after (Machine.start {} 0) boundThenAdded
    let r := runOne (.keyword "eval") m
    ∃ x e below, m.stack.entries = x :: below ∧ x.value = .symbolic e ∧ r.1.isOk = true ∧
      (∃ y, r.2.stack = m.stack.withEntries (y :: below)) ∧
      r.2.scopes = m.scopes ∧ r.2.settings = m.settings ∧
      r.2.history = m.history.pushAll [m.stack.entries] := by
  intro m r
  have run : m.stack.entries.map (fun x => x.value.kind) = [.symbolic, .integer] ∧
      (∀ lower ∈ [Catalogue.setterNames, ["undo"]],
        (∀ x ∈ m.stack.entries, x.Avoids lower) ∧ m.scopes.All (Entry.Avoids lower)) ∧
      r.1.isOk = true := by
    decide +kernel
  obtain ⟨kinds, avoided, succeeds⟩ := run
  obtain ⟨x, below, hm, hx, _⟩ := List.map_eq_cons_iff.mp kinds
  obtain ⟨e, hx⟩ := Value.symbolic_of_kind hx
  obtain ⟨scopes, stack, -, settings, lost, history, kept⟩ :=
    eval_isolated {} 0 boundThenAdded x e below hm hx
  have top : x ∈ m.stack.entries := by simp [hm]
  have setters := avoided Catalogue.setterNames (by simp)
  have undo := avoided ["undo"] (by simp)
  refine ⟨x, e, below, hm, hx, succeeds, ?_, scopes, settings (setters.1 x top) setters.2, ?_⟩
  · rwa [succeeds, if_pos rfl] at stack
  · rw [history, kept (undo.1 x top) undo.2, succeeds, if_pos rfl]
    rfl

/-- A number is pushed, another one, and an operation by its name. -/
def namePushed (name : String) : List Step :=
  [.instruction (.number (.integer 1) .none), .instruction (.number (.integer 2) .none),
    .instruction (.reference name)]

/-- Evaluating the name of a display mode fails, and the mode is set. Evaluating the name of undo
fails with two entries in the latest snapshot, and the snapshot is lost. -/
theorem eval_not_isolated :
    (let m := after (Machine.start {} 0) (namePushed "hex")
     let r := runOne (.keyword "eval") m
     r.1.isOk = false ∧ m.settings.style.base = 10 ∧ r.2.settings.style.base = 16) ∧
    (let m := after (Machine.start {} 0) (namePushed "undo")
     let r := runOne (.keyword "eval") m
     r.1.isOk = false ∧ m.history.size = 3 ∧ r.2.history.size = 2) := by
  decide +kernel

end Session
end StackCalc
