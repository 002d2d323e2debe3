import StackCalc.Proofs.Concrete
import StackCalc.Proofs.Partial

/-! # Evaluation comes to an end

What evaluation gives is no expression, or one to which nothing can be done: its variables and
references have no values, and every operation in it waits for an operand. It is nested no deeper
than there were levels to evaluate it, so evaluating it again succeeds and changes nothing. -/

namespace StackCalc

open Calc Evaluator

/-! ## 1. Constants of expressions -/

mutual

/-- Values in whose expressions no constant is an expression. -/
inductive Value.Unnested : Value → Prop
  | scalar (x : Scalar) : (Value.scalar x).Unnested
  | matrix (m : Matrix) : (Value.matrix m).Unnested
  | time (t : Time) : (Value.time t).Unnested
  | list (k : Kind) {items : List Value} (h : ∀ v ∈ items, v.Unnested) :
      (Value.list k items).Unnested
  | symbolic {e : Expr} (h : e.Unnested) : (Value.symbolic e).Unnested

/-- Expressions in which no constant is an expression. -/
inductive Expr.Unnested : Expr → Prop
  | var (name : String) : (Expr.var name).Unnested
  | const {v : Value} (concrete : v.Concrete) (h : v.Unnested) : (Expr.const v).Unnested
  | apply (name : String) {args : List Expr} (h : ∀ e ∈ args, e.Unnested) :
      (Expr.apply name args).Unnested

end

/-- Values are made constants in one way only, which takes expressions as they are. -/
theorem Value.Unnested.ofValue {v : Value} (h : v.Unnested) : (Expr.ofValue v).Unnested := by
  cases h with
  | symbolic h => exact h
  | scalar x => exact .const (concrete_scalar x) (.scalar x)
  | matrix m => exact .const nofun (.matrix m)
  | time t => exact .const nofun (.time t)
  | list k h => exact .const nofun (.list k h)

mutual

theorem Value.Unnested.reduce : ∀ {v : Value}, v.Unnested → v.reduce.Unnested
  | _, .scalar x => by
    rw [Value.reduce]
    exact .scalar _
  | _, .matrix m => by
    rw [Value.reduce]
    exact .matrix _
  | _, .time t => by
    rw [Value.reduce]
    exact .time t
  | _, .list k h => by
    rw [Value.reduce, Value.reduceItems_eq_map]
    refine .list _ fun w hw => ?_
    obtain ⟨v, hv, rfl⟩ := List.mem_map.mp hw
    exact (h v hv).reduce
  | _, .symbolic h => by
    rw [Value.reduce]
    exact .symbolic h.reduce

theorem Expr.Unnested.reduce : ∀ {e : Expr}, e.Unnested → (Value.reduceExpr e).Unnested
  | _, .var name => .var name
  | _, .const concrete h => by
    rw [Value.reduceExpr]
    exact .const ((Value.concrete_reduce _).mpr concrete) h.reduce
  | _, .apply name h => by
    rw [Value.reduceExpr, reduceArgs_eq_map]
    refine .apply name fun a ha => ?_
    obtain ⟨e, he, rfl⟩ := List.mem_map.mp ha
    exact (h e he).reduce

end

theorem Value.Unnested.widen {digits : Nat} {v : Value} {target : Kind} (h : v.Unnested) :
    Yields Value.Unnested (v.widen digits target) := by
  unfold Value.widen
  split
  · exact yields_ok.mpr h
  · split <;> simp [Value.rational, Value.float, Value.complex, Value.Unnested.scalar,
      Value.Unnested.symbolic h.ofValue]

theorem Value.Unnested.ofItems {digits : Nat} {items : List Value} (h : ∀ v ∈ items, v.Unnested) :
    Yields Value.Unnested (Value.ofItems digits items) := by
  intro w hw
  obtain ⟨k, ws, rfl, listing⟩ := Value.listing_of_ofItems hw
  exact .list _ (listing.each h fun v hv _ => (h v hv).widen)

/-- All names, and values without nested expressions. -/
def Vocabulary.unnested : Vocabulary where
  names _ := True
  values := Value.Unnested
  made := by
    intro v hv
    induction hv with
    | given hv => exact hv
    | scalar x => exact .scalar x
    | matrix m => exact .matrix m
    | time t => exact .time t
    | element _ hv ih =>
      cases ih with
      | list _ h => exact h _ hv
    | ofItems _ hv ih => exact .ofItems ih _ hv
    | expression _ ih => exact .symbolic ih.ofValue
    | deferred _ _ ih =>
      refine .symbolic (.apply _ fun e he => ?_)
      obtain ⟨v, hv, rfl⟩ := List.mem_map.mp he
      exact (ih v hv).ofValue
  reduce := Value.Unnested.reduce
  var _ := trivial
  const h := by
    cases h with
    | symbolic h =>
      cases h with
      | const _ h => exact h
  apply := by
    intro name args
    constructor
    · intro h
      cases h with
      | symbolic h =>
        cases h with
        | apply _ h => exact ⟨trivial, fun e he => .symbolic (h e he)⟩
    · rintro ⟨_, h⟩
      refine .symbolic (.apply name fun e he => ?_)
      cases h e he with
      | symbolic h => exact h

/-! ## 2. Normal forms -/

namespace Expr

/-- An expression that is no constant. -/
def Open (e : Expr) : Prop := ∀ v, e ≠ .const v

/-- The value that an expression stands for on its own. -/
def value : Expr → Value
  | const v => v
  | e => .symbolic e

theorem Open.value_eq {e : Expr} (h : e.Open) : e.value = .symbolic e := by
  cases e with
  | const v => exact absurd rfl (h v)
  | var | apply => rfl

theorem Open.reduce {e : Expr} (h : e.Open) : (Value.reduceExpr e).Open := by
  cases e with
  | const v => exact absurd rfl (h v)
  | var | apply => exact fun v => nofun

/-- An expression to which nothing can be done, nested no deeper than so many levels. -/
inductive Normal (s : Scopes) : Nat → Expr → Prop
  | const (levels : Nat) {v : Value} (h : v.Concrete) : Normal s (levels + 1) (const v)
  | var (levels : Nat) {name : String} (unbound : s.get? name = none) :
      Normal s (levels + 1) (var name)
  | reference (levels : Nat) {name : String} (unbound : s.get? name = none)
      (waits : ¬ (Registry.find? name).any fun op => op.arity = 0) :
      Normal s (levels + 1) (apply name [])
  | apply {levels : Nat} (name : String) {args : List Expr} (h : ∀ a ∈ args, Normal s levels a)
      (waits : ∃ a ∈ args, a.Open) : Normal s (levels + 1) (apply name args)

/-- A reference by a name somewhere in an expression. -/
inductive RefersTo (name : String) : Expr → Prop
  | here : RefersTo name (reference name)
  | argument (op : String) {args : List Expr} {a : Expr} (ha : a ∈ args) (h : RefersTo name a) :
      RefersTo name (apply op args)

namespace Normal

variable {s : Scopes} {levels : Nat} {e : Expr}

theorem succ (h : Normal s levels e) : Normal s (levels + 1) e := by
  induction h with
  | const levels h => exact .const _ h
  | var levels unbound => exact .var _ unbound
  | reference levels unbound waits => exact .reference _ unbound waits
  | apply name _ waits ih => exact .apply name ih waits

theorem ofValue_value (h : Normal s levels e) : ofValue e.value = e := by
  cases h with
  | const _ h => exact ofValue_concrete h
  | var | reference | apply => rfl

/-- No variable in a normal form has a value. -/
theorem unbound_of_vars (h : Normal s levels e) : ∀ name ∈ e.vars, s.get? name = none := by
  induction h with
  | const => exact List.forall_mem_nil _
  | var _ unbound => exact List.forall_mem_singleton.mpr unbound
  | reference => exact List.forall_mem_nil _
  | apply _ _ _ ih =>
    rw [vars, varsAll_eq]
    intro name hname
    obtain ⟨a, ha, hname⟩ := List.mem_flatMap.mp hname
    exact ih a ha name hname

/-- No reference in a normal form has a value. -/
theorem unbound_of_refersTo (h : Normal s levels e) {name : String} (refers : e.RefersTo name) :
    s.get? name = none := by
  induction h with
  | const | var => cases refers
  | reference _ unbound =>
    cases refers with
    | here => exact unbound
    | argument _ ha => cases ha
  | apply _ _ waits ih =>
    cases refers with
    | here =>
      obtain ⟨_, ha, _⟩ := waits
      cases ha
    | argument _ ha h => exact ih _ ha h

/-- The canonical form of a normal form is one. -/
theorem reduce (h : Normal s levels e) : Normal s levels (Value.reduceExpr e) := by
  induction h with
  | const levels h =>
    rw [Value.reduceExpr]
    exact .const levels ((Value.concrete_reduce _).mpr h)
  | var levels unbound => exact .var levels unbound
  | reference levels unbound waits => exact .reference levels unbound waits
  | apply name h waits ih =>
    rw [Value.reduceExpr, reduceArgs_eq_map]
    refine .apply name (fun a ha => ?_) ?_
    · obtain ⟨e, he, rfl⟩ := List.mem_map.mp ha
      exact ih e he
    · obtain ⟨a, ha, isOpen⟩ := waits
      exact ⟨_, List.mem_map_of_mem ha, isOpen.reduce⟩

end Normal

end Expr

/-! ## 3. Evaluating a normal form -/

namespace Evaluator

/-- Steps that leave the state alone, one after the other. -/
theorem exec_mapM_pure {α β : Type} {f : α → Calc β} {g : α → β} {as : List α} {m : Machine}
    (h : ∀ a ∈ as, exec (f a) m = (.ok (g a), m)) :
    exec (as.mapM f) m = (.ok (as.map g), m) := by
  induction as with
  | nil => rfl
  | cons a as ih =>
    obtain ⟨ha, has⟩ := List.forall_mem_cons.mp h
    rw [List.mapM_cons, exec_bind, ha]
    show exec (as.mapM f >>= fun bs => pure (g a :: bs)) m = _
    rw [exec_bind, ih has]
    rfl

/-- A step that leaves the state alone, one level deeper. -/
theorem exec_deeper_pure {α : Type} {step : Calc α} {a : α} {m : Machine}
    (h : exec step { m with nesting := m.nesting + 1 } =
      (.ok a, { m with nesting := m.nesting + 1 })) : exec (deeper step) m = (.ok a, m) := by
  rw [exec_deeper, h]
  rfl

/-- A normal form is evaluated to itself, and the state stays. -/
theorem exec_normal {s : Scopes} {levels : Nat} {e : Expr} (h : e.Normal s levels) :
    ∀ {m : Machine}, m.scopes = s →
      exec (evaluateExpr levels e) m = (.ok (.plain e.value), m) := by
  induction h with
  | const => exact fun _ => rfl
  | var levels unbound =>
    rintro m rfl
    refine exec_deeper_pure ?_
    show exec (get >>= _) _ = _
    rw [exec_get_bind, unbound]
    rfl
  | reference levels unbound waits =>
    rintro m rfl
    refine exec_deeper_pure ?_
    show exec (get >>= _) _ = _
    rw [exec_get_bind, unbound]
    show exec (if _ then _ else _) _ = _
    rw [if_neg waits]
    rfl
  | @apply levels name args h waits ih =>
    rintro m rfl
    refine exec_deeper_pure ?_
    obtain ⟨a, ha, isOpen⟩ := waits
    have again {k : Machine} (hk : k.scopes = m.scopes) :
        exec (args.mapM (evaluateExpr levels)) k =
          (.ok (args.map fun a => .plain a.value), k) :=
      exec_mapM_pure fun a ha => ih a ha hk
    have waits : ((args.map fun a => Operand.plain a.value).any
        fun o => decide (o.kind = .symbolic)) = true := by
      refine List.any_eq_true.mpr ⟨_, List.mem_map_of_mem ha, decide_eq_true ?_⟩
      show a.value.kind = .symbolic
      rw [isOpen.value_eq]
      rfl
    have rebuilt : (args.map fun a => Expr.ofValue a.value) = args :=
      (List.map_congr_left fun a ha => (h a ha).ofValue_value).trans (List.map_id' args)
    rw [evaluateNode_apply (List.ne_nil_of_mem ha), exec_bind,
      again (k := { m with nesting := m.nesting + 1 }) rfl]
    dsimp only
    rw [if_pos waits, Operand.waiting, List.map_map]
    exact congrArg (fun es => (Except.ok (Operand.plain (.symbolic (.apply name es))),
      { m with nesting := m.nesting + 1 })) rebuilt

end Evaluator

/-! ## 4. What evaluation gives -/

/-- An operand that evaluation has nothing left to do with. An expression has no unit. -/
inductive Operand.Final (s : Scopes) : Nat → Operand → Prop
  | concrete (levels : Nat) {o : Operand} (h : o.Concrete) : Final s (levels + 1) o
  | waiting {levels : Nat} {e : Expr} (h : e.Normal s levels) (isOpen : e.Open) :
      Final s levels (.plain (.symbolic e))

namespace Operand.Final

variable {s : Scopes} {levels : Nat} {o : Operand}

theorem succ (h : o.Final s levels) : o.Final s (levels + 1) := by
  cases h with
  | concrete levels h => exact .concrete _ h
  | waiting h isOpen => exact .waiting h.succ isOpen

/-- An expression that is left is a normal form. -/
theorem normal (h : o.Final s levels) {e : Expr} (symbolic : o.value = .symbolic e) :
    e.Normal s levels := by
  cases h with
  | concrete _ h => exact absurd (congrArg Value.kind symbolic) h
  | waiting h _ =>
    cases symbolic
    exact h

/-- As an argument, such an operand is a normal form. -/
theorem argument (h : o.Final s levels) : (Expr.ofValue o.value).Normal s levels := by
  cases h with
  | concrete levels h =>
    rw [Expr.ofValue_concrete h]
    exact .const levels h
  | waiting h _ => exact h

/-- An argument that is no value leaves something open. -/
theorem argument_open (h : o.Final s levels) (symbolic : o.kind = .symbolic) :
    (Expr.ofValue o.value).Open := by
  cases h with
  | concrete _ h => exact absurd symbolic h
  | waiting _ isOpen => exact isOpen

/-- Storing such an operand leaves nothing to do either. -/
theorem stored (h : o.Final s levels) (style : NumberStyle) : (o.stored style).Final s levels := by
  cases h with
  | concrete levels h => exact .concrete levels ((Operand.concrete_stored style o).mpr h)
  | waiting h isOpen => exact .waiting h.reduce isOpen.reduce

end Operand.Final

namespace Evaluator

variable {names : String → Prop} {s : Scopes} {levels : Nat} {evaluate : Expr → Calc Operand}

/-- A step under the given variables that leaves evaluation nothing to do with its result. -/
def Finishes (s : Scopes) (levels : Nat) (x : Calc Operand) : Prop :=
  ∀ (m n : Machine) (o : Operand), m.Bounded → m.scopes = s → exec x m = (.ok o, n) →
    o.Final s levels

theorem finishes_pure {o : Operand} (h : o.Final s levels) : Finishes s levels (pure o) := by
  intro m n p _ _ run
  cases run
  exact h

theorem finishes_throw {e : Error} : Finishes s levels (throw e) := by
  intro m n o _ _ run
  cases run

theorem finishes_deeper {x : Calc Operand} (h : Finishes s levels x) :
    Finishes s levels (deeper x) := by
  intro m n o bounded hm run
  rw [exec_deeper] at run
  exact h { m with nesting := m.nesting + 1 } _ o bounded hm (Prod.ext (Prod.mk.inj run).1 rfl)

/-- A step that starts by looking at the variables. -/
theorem finishes_get {f : Machine → Calc Operand}
    (h : ∀ m : Machine, m.scopes = s → Finishes s levels (f m)) :
    Finishes s levels (get >>= f) := by
  intro m n o bounded hm run
  rw [exec_get_bind] at run
  exact h m hm m n o bounded hm run

/-- An operation that succeeds on arguments leaves one entry on a stack of their own. -/
theorem applyOperation_eq_ok {name : String} {args : List Operand} {m n : Machine} {o : Operand}
    (h : exec (applyOperation evaluate name args) m = (.ok o, n)) :
    ∃ op k e, Registry.find? name = some op ∧
      exec (runAction evaluate op.action)
        { m with stack := { entries := (args.map m.entryOf).reverse } } = (.ok (), k) ∧
      k.stack.entries = [e] ∧ o = ⟨e.value, e.unit⟩ := by
  unfold applyOperation at h
  split at h
  · cases h
  rename_i op found
  rw [exec_get_bind] at h
  obtain ⟨⟨_, scratch⟩, j, ran, h⟩ := exec_bind_eq_ok h
  rw [exec_onScratch] at ran
  obtain ⟨_, ran, same⟩ := map_eq_ok.mp (Prod.mk.inj ran).1
  obtain ⟨_, _, run⟩ := exec_read_eq_ok (exec_requireArgs _ _ _) (Prod.ext ran rfl)
  cases same
  dsimp only at h
  split at h
  · rename_i e single
    cases h
    exact ⟨op, _, e, found, run, single, rfl⟩
  · cases h

/-- An operation other than undo gives no expression. -/
theorem finishes_applyOperation {name : String} {args : List Operand}
    (notUndo : Registry.find? name ≠ some Catalogue.undo) (concrete : ∀ o ∈ args, o.Concrete) :
    Finishes s (levels + 1) (applyOperation evaluate name args) := by
  intro m n o _ _ applied
  obtain ⟨op, k, e, found, run, single, rfl⟩ := applyOperation_eq_ok applied
  refine .concrete levels ?_
  refine concrete_of_single (Registry.mem_of_find found) (fun isUndo => ?_) (fun x hx => ?_) run
    single
  · exact notUndo (found.trans (congrArg some isUndo))
  · obtain ⟨a, ha, rfl⟩ := List.mem_map.mp (List.mem_reverse.mp hx)
    exact (Operand.concrete_stored _ a).mpr (concrete a ha)

/-- Arguments are evaluated one after the other under the same variables. -/
theorem finishes_mapM {es : List Expr} (scopes : s.All (Entry.Over names))
    (seals : ∀ e ∈ es, (evaluate e).Seals names) (h : ∀ e ∈ es, Finishes s levels (evaluate e)) :
    ∀ {m n : Machine} {os : List Operand}, m.Bounded → m.scopes = s →
      exec (es.mapM evaluate) m = (.ok os, n) → ∀ o ∈ os, o.Final s levels := by
  induction es with
  | nil =>
    intro m n os _ _ run
    cases run
    exact List.forall_mem_nil _
  | cons e es ih =>
    intro m n os bounded hm run
    obtain ⟨he, hes⟩ := List.forall_mem_cons.mp h
    obtain ⟨sealing, seals⟩ := List.forall_mem_cons.mp seals
    rw [List.mapM_cons] at run
    obtain ⟨o, k, first, run⟩ := exec_bind_eq_ok run
    obtain ⟨os', j, rest, run⟩ := exec_bind_eq_ok run
    cases run
    have apart := (sealing m bounded (hm ▸ scopes)).apart
    rw [first] at apart
    exact List.forall_mem_cons.mpr ⟨he m k o bounded hm first,
      ih seals hes (apart.bounded bounded) (apart.scopes.trans hm) rest⟩

section
variable (scopes : s.All (Entry.Over names)) (bound : s.All Vocabulary.unnested.Entry)
  (he : ∀ e : Expr, e.Unnested → (∀ name ∈ e.names, names name) → Finishes s levels (evaluate e))

include scopes bound he

theorem finishes_evaluateBound {name : String} {x : Entry} (hx : s.get? name = some x) :
    Finishes s (levels + 1) (evaluateBound evaluate x) := by
  have within : ∀ name ∈ x.value.names, names name := scopes.get hx
  have unnested : x.value.Unnested := bound.get hx
  unfold evaluateBound
  split
  · rename_i inner symbolic
    rw [symbolic] at within unnested
    cases unnested with
    | symbolic unnested =>
      exact fun m n o bounded hm run => (he inner unnested within m n o bounded hm run).succ
  · rename_i v closed
    exact finishes_pure (.concrete levels fun symbolic =>
      (Value.symbolic_of_kind symbolic).elim closed)

theorem finishes_evaluateNode (free : ¬ UndoesBy names)
    (seals : ∀ e : Expr, (∀ name ∈ e.names, names name) → (evaluate e).Seals names) {e : Expr}
    (unnested : e.Unnested) (known : ∀ name ∈ e.names, names name) :
    Finishes s (levels + 1) (evaluateNode evaluate e) := by
  unfold evaluateNode
  split
  · rename_i name
    refine finishes_get fun m hm => ?_
    rw [hm]
    split
    · exact finishes_evaluateBound scopes bound he ‹_›
    · exact finishes_pure (.waiting (.var levels ‹_›) nofun)
  · cases unnested with
    | const concrete _ => exact finishes_pure (.concrete levels concrete)
  · rename_i name
    have notUndo : Registry.find? name ≠ some Catalogue.undo :=
      fun isUndo => free ⟨name, known name (by simp [Expr.names]), isUndo⟩
    refine finishes_get fun m hm => ?_
    rw [hm]
    split
    · exact finishes_evaluateBound scopes bound he ‹_›
    · split
      · exact finishes_applyOperation notUndo (List.forall_mem_nil _)
      · exact finishes_pure (.waiting (.reference levels ‹_› ‹_›) nofun)
  · rename_i name args _
    rw [Expr.names, namesOfArgs_eq, List.forall_mem_cons] at known
    have notUndo : Registry.find? name ≠ some Catalogue.undo :=
      fun isUndo => free ⟨name, known.1, isUndo⟩
    have within : ∀ a ∈ args, ∀ n ∈ a.names, names n :=
      fun a ha n hn => known.2 n (List.mem_flatMap.mpr ⟨a, ha, hn⟩)
    cases unnested with
    | apply _ unnested =>
      intro m n o bounded hm run
      obtain ⟨os, k, ran, run⟩ := exec_bind_eq_ok run
      have sealed := (Calc.Seals.mapM fun a ha => seals a (within a ha)) m bounded (hm ▸ scopes)
      rw [ran] at sealed
      have final := finishes_mapM scopes (fun a ha => seals a (within a ha))
        (fun a ha => he a (unnested a ha) (within a ha)) bounded hm ran
      split at run
      · rename_i waits
        obtain ⟨o, ho, symbolic⟩ := List.any_eq_true.mp waits
        cases run
        refine .waiting (.apply name (fun a ha => ?_) ⟨_, List.mem_map_of_mem ho, ?_⟩) nofun
        · obtain ⟨o, ho, rfl⟩ := List.mem_map.mp ha
          exact (final o ho).argument
        · exact (final o ho).argument_open (of_decide_eq_true symbolic)
      · rename_i none
        have concrete : ∀ o ∈ os, ¬ o.kind = .symbolic := by simpa using none
        exact finishes_applyOperation notUndo concrete k n o (sealed.apart.bounded bounded)
          (sealed.apart.scopes.trans hm) run

end

/-- Evaluation leaves itself nothing to do. -/
theorem finishes_evaluateExpr (free : ¬ UndoesBy names) (scopes : s.All (Entry.Over names))
    (bound : s.All Vocabulary.unnested.Entry) (levels : Nat) : ∀ e : Expr, e.Unnested →
    (∀ name ∈ e.names, names name) → Finishes s levels (evaluateExpr levels e) := by
  induction levels with
  | zero => exact fun _ _ _ => finishes_throw
  | succ levels ih =>
    exact fun e unnested known => finishes_deeper
      (finishes_evaluateNode scopes bound ih free (seals_evaluateExpr levels) unnested known)

end Evaluator

/-! ## 5. Evaluating the top of the stack twice -/

namespace Session

variable {m n : Session} {x y : Entry} {e : Expr} {below : List Entry}

/-- An expression on top of the stack is replaced by an entry that evaluation has nothing left to do
with. -/
theorem eval_final {names : String → Prop} {levels : Nat} (notUndo : ¬ UndoesBy names)
    (free : m.scopes.Free)
    (bounded : m.Bounded) (hm : m.stack.entries = x :: below) (hx : x.value = .symbolic e)
    (unnested : e.Unnested) (bound : m.scopes.All Vocabulary.unnested.Entry)
    (known : ∀ name ∈ e.names, names name) (scopes : m.scopes.All (Entry.Over names))
    (run : exec (runInstruction levels (.keyword "eval")) m = (.ok (), n)) :
    n.scopes = m.scopes ∧ ∃ y, n.stack.entries = y :: below ∧
      n.stack.requireRoom 1 1 = .ok () ∧ y.operand.Final m.scopes levels ∧
      y.value.reduce = y.value := by
  rw [exec_eval_symbolic levels free hm hx] at run
  obtain ⟨o, k, evaluated, run⟩ := exec_bind_eq_ok run
  obtain ⟨stack, apart⟩ := seals_evaluateExpr levels e known m bounded scopes
  rw [evaluated] at stack apart
  dsimp only at stack
  have final : o.Final m.scopes levels :=
    finishes_evaluateExpr notUndo scopes bound levels e unnested known m k o bounded rfl
      evaluated
  rcases exec_replaceTop_cases 1 [o] k with ⟨fault, failed⟩ | ⟨_, room, done⟩
  · cases failed.symm.trans run
  · cases done.symm.trans run
    refine ⟨apart.scopes, k.entryOf o, ?_, ?_, final.stored _, Entry.reduce_store _ _ _⟩
    · simp [Machine.replaced, Stack.withEntries, stack, hm]
    -- One entry for another takes as much room as there was.
    · rw [← room]
      simp [Machine.replaced, Stack.withEntries, Stack.requireRoom, Stack.size, stack, hm]

/-- Evaluation leaves the value and the unit of such an entry. -/
theorem exec_eval_again {levels : Nat} (free : n.scopes.Free) (hn : n.stack.entries = y :: below)
    (room : n.stack.requireRoom 1 1 = .ok ()) (final : y.operand.Final n.scopes levels)
    (reduced : y.value.reduce = y.value) :
    ∃ k z, exec (runInstruction levels (.keyword "eval")) n = (.ok (), k) ∧
      k.stack.entries = z :: below ∧ z.operand = y.operand := by
  generalize ho : y.operand = o at final
  cases final with
  | concrete _ concrete =>
    subst ho
    exact ⟨n, y, (exec_keyword_eval _ free hn).trans (exec_evaluateTop_value hn concrete), hn, rfl⟩
  | @waiting _ e normal isOpen =>
    have symbolic : y.value = .symbolic e := congrArg Operand.value ho
    rw [symbolic, Value.reduce] at reduced
    have enough : 1 ≤ n.stack.size := by simp [Stack.size, hn]
    refine ⟨n.replaced 1 [.plain e.value], n.entryOf (.plain e.value), ?_, ?_, ?_⟩
    · rw [exec_eval_symbolic _ free hn symbolic, exec_bind, exec_normal normal rfl]
      dsimp only
      rw [exec_replaceTop 1 _ n enough, Machine.commit]
      dsimp only [List.length_singleton]
      rw [room]
    · simp [Machine.replaced, Stack.withEntries, hn]
    · rw [isOpen.value_eq]
      exact congrArg Operand.plain reduced

/-- An instruction succeeds at top level if its run does, with the same stack and variables. -/
theorem runOne_of_exec {i : Instruction}
    (run : exec (runInstruction (levelsLeft m) i) m = (.ok (), n)) :
    (runOne i m).1.isOk = true ∧ (runOne i m).2.stack = n.stack ∧
      (runOne i m).2.scopes = n.scopes := by
  rcases runOne_cases i m with ⟨k, h, hi⟩ | ⟨fault, k, h, _⟩
  · cases h.symm.trans run
    rw [hi]
    dsimp only
    split <;> exact ⟨rfl, rfl, rfl⟩
  · cases h.symm.trans run

theorem exec_of_runOne {i : Instruction} (h : (runOne i m).1.isOk = true) :
    ∃ n, exec (runInstruction (levelsLeft m) i) m = (.ok (), n) := by
  rcases runOne_cases i m with ⟨n, run, _⟩ | ⟨fault, n, _, hi⟩
  · exact ⟨n, run⟩
  · rw [hi] at h
    cases h

/-- A variable is bound to an expression over another one, which has no value, and an expression
over the first variable is pushed. -/
def boundToOpen : List Step :=
  [.instruction (.symbolic (.apply "+" [.var "Y", .const (.integer 1)])),
    .instruction (.symbolic (.var "X")), .instruction (.keyword "sto"),
    .instruction (.symbolic (.apply "*" [.var "X", .apply "sqrt" [.const (.integer 4)]]))]

/-- Five is bound to a variable, and an expression is pushed. -/
def fiveBound (e : Expr) : List Step :=
  [.instruction (.number (.integer 5) .none), .instruction (.symbolic (.var "X")),
    .instruction (.keyword "sto"), .instruction (.symbolic e)]

end Session

end StackCalc
