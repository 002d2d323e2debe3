import Mathlib.Data.List.Forall2
import StackCalc.Proofs.Outcome

/-! # The values of expressions

What the evaluator makes of an expression, as a function of the settings and of what the variables
stand for. It is the evaluator run on any machine with these settings and variables: the stack, the
history and the clock do not come in, and nothing but the flags is touched. -/

namespace StackCalc

open Calc Evaluator

/-! ## 1. Results -/

/-- All of some computations succeed. -/
theorem mapM_eq_ok {α β : Type} {f : α → Except Error β} {as : List α} {bs : List β} :
    as.mapM f = .ok bs ↔ List.Forall₂ (fun a b => f a = .ok b) as bs := by
  induction as generalizing bs with
  | nil =>
    rw [List.mapM_nil, List.forall₂_nil_left_iff]
    exact ⟨fun h => by cases h; rfl, fun h => by rw [h]; rfl⟩
  | cons a as ih =>
    rw [List.mapM_cons, bind_eq_ok, List.forall₂_cons_left_iff]
    constructor
    · rintro ⟨b, hb, h⟩
      obtain ⟨bs, hbs, h⟩ := bind_eq_ok.mp h
      cases h
      exact ⟨b, bs, hb, ih.mp hbs, rfl⟩
    · rintro ⟨b, bs, hb, hbs, rfl⟩
      exact ⟨b, hb, bind_eq_ok.mpr ⟨bs, ih.mpr hbs, rfl⟩⟩

/-- Some computations fail if one of them does. -/
theorem mapM_eq_error {α β : Type} {f : α → Except Error β} {as : List α} :
    (∃ e, as.mapM f = .error e) ↔ ∃ a ∈ as, ∃ e, f a = .error e := by
  constructor
  · rintro ⟨e, h⟩
    induction as with
    | nil => cases h
    | cons a as ih =>
      rw [List.mapM_cons] at h
      cases ha : f a with
      | error e => exact ⟨a, List.mem_cons_self, e, ha⟩
      | ok b =>
        rw [ha] at h
        cases has : as.mapM f with
        | error e' =>
          rw [has] at h
          cases h
          obtain ⟨x, hx, hfx⟩ := ih has
          exact ⟨x, List.mem_cons_of_mem a hx, hfx⟩
        | ok bs =>
          rw [has] at h
          cases h
  · rintro ⟨a, ha, e, he⟩
    cases h : as.mapM f with
    | error e' => exact ⟨e', rfl⟩
    | ok bs =>
      obtain ⟨b, _, hb⟩ := (Value.mapM_eq_ok h).2 a ha
      cases hb.symm.trans he

/-- An operation that waits for its operands. -/
def Operand.waiting (name : String) (os : List Operand) : Operand :=
  .plain (.symbolic (.apply name (os.map fun o => Expr.ofValue o.value)))

/-- What an operation gives on its evaluated arguments. It waits if one of them is an expression. -/
def Evaluator.applied (settings : Settings) (name : String) (os : List Operand) :
    Except Error Operand :=
  if ∀ o ∈ os, o.Concrete then outcome settings name os else .ok (.waiting name os)

section
variable {settings : Settings} {name : String} {os : List Operand}

theorem Evaluator.applied_concrete (h : ∀ o ∈ os, o.Concrete) :
    applied settings name os = outcome settings name os := if_pos h

theorem Evaluator.applied_waiting (h : ¬ ∀ o ∈ os, o.Concrete) :
    applied settings name os = .ok (.waiting name os) := if_neg h

end

/-- What an expression gives with so many levels left. A variable that stands for nothing is left as
it is, and an operation waits for such operands. -/
def Expr.result (settings : Settings) (ρ : String → Option Operand) :
    Nat → Expr → Except Error Operand
  | 0, _ => .error tooDeep
  | levels + 1, e =>
    match e with
    | .var name => .ok ((ρ name).getD (.plain (.var name)))
    | .const v => .ok (.plain v)
    | .apply name args => args.mapM (Expr.result settings ρ levels) >>= applied settings name

section
variable (settings : Settings) (ρ : String → Option Operand) (levels : Nat)

theorem Expr.result_var (name : String) : (Expr.var name).result settings ρ (levels + 1) =
    .ok ((ρ name).getD (.plain (.var name))) := rfl

theorem Expr.result_const (v : Value) :
    (Expr.const v).result settings ρ (levels + 1) = .ok (.plain v) := rfl

theorem Expr.result_apply (name : String) (args : List Expr) :
    (Expr.apply name args).result settings ρ (levels + 1) =
      (args.mapM (Expr.result settings ρ levels) >>= applied settings name) := rfl

end

/-- An expression over constants that are no expressions and operations that compute. -/
inductive Expr.Computable : Expr → Prop
  | var (name : String) : (Expr.var name).Computable
  | const {v : Value} (h : v.Concrete) : (Expr.const v).Computable
  | apply {name : String} {args : List Expr} (some : args ≠ []) (op : Computes name args.length)
      (h : ∀ e ∈ args, e.Computable) : (Expr.apply name args).Computable

/-- An expression over variables, constants that are no expressions, and operations of the catalogue
on as many operands as they take. -/
inductive Expr.IsFormula : Expr → Prop
  | var (name : String) : (Expr.var name).IsFormula
  | const {v : Value} (h : v.Concrete) : (Expr.const v).IsFormula
  | apply {name : String} {op : Operation} {args : List Expr}
      (found : Registry.find? name = some op) (applicable : op ∈ Catalogue.applicable)
      (count : args.length = op.minArgs) (h : ∀ e ∈ args, e.IsFormula) :
      (Expr.apply name args).IsFormula

namespace Expr.IsFormula

/-- Arithmetic and comparison. -/
theorem numeric (op : Operation) (hop : op ∈ Catalogue.numeric) {args : List Expr}
    (count : args.length = op.minArgs) (h : ∀ e ∈ args, e.IsFormula) :
    (Expr.apply op.name args).IsFormula :=
  .apply (Registry.find_name (Registry.mem_of_numeric hop)) (Catalogue.applicable_of_numeric hop)
    count h

theorem computable {e : Expr} (h : e.IsFormula) : e.Computable := by
  induction h with
  | var name => exact .var name
  | const h => exact .const h
  | apply found applicable count h ih =>
    obtain ⟨applies, some⟩ := applies_of_applicable applicable
    refine .apply ?_ (count ▸ computes_of_applies found applies) ih
    exact List.ne_nil_of_length_pos (count ▸ some)

end Expr.IsFormula

/-- What a variable stands for. -/
def Scopes.operand? (s : Scopes) (name : String) : Option Operand := (s.get? name).map Entry.operand

/-- Some variables stand for no expressions, if for anything. -/
def ConcreteOn (names : List String) (ρ : String → Option Operand) : Prop :=
  ∀ name ∈ names, ∀ o, ρ name = some o → o.Concrete

theorem Expr.varsAll_eq (es : List Expr) : Expr.varsAll es = es.flatMap Expr.vars := by
  induction es with
  | nil => rfl
  | cons e es ih => rw [Expr.varsAll, ih, List.flatMap_cons]

/-- The variables of an argument are variables of the application. -/
theorem Expr.vars_arg {name x : String} {args : List Expr} {e : Expr} (he : e ∈ args)
    (hx : x ∈ e.vars) : x ∈ (Expr.apply name args).vars := by
  rw [Expr.vars, Expr.varsAll_eq]
  exact List.mem_flatMap.mpr ⟨e, he, hx⟩

/-- All variables stand for values that are no expressions. -/
def Covers (names : List String) (ρ : String → Option Operand) : Prop :=
  ∀ name ∈ names, ∃ o, ρ name = some o ∧ o.Concrete

theorem Covers.concreteOn {names : List String} {ρ : String → Option Operand}
    (h : Covers names ρ) : ConcreteOn names ρ := by
  intro name hname o ho
  obtain ⟨o', ho', concrete⟩ := h name hname
  cases ho.symm.trans ho'
  exact concrete

/-- With all variables covered, nothing waits. -/
theorem Expr.result_concrete {settings : Settings} {ρ : String → Option Operand} (levels : Nat) :
    ∀ {e : Expr}, e.Computable → Covers e.vars ρ →
      Yields Operand.Concrete (e.result settings ρ levels) := by
  induction levels with
  | zero => exact fun _ _ => yields_error
  | succ levels ih =>
    intro e he covers
    cases he with
    | var name =>
      obtain ⟨o, ho, concrete⟩ := covers name (List.mem_singleton_self name)
      rw [result_var, ho]
      exact yields_ok.mpr concrete
    | const h => exact yields_ok.mpr h
    | @apply name args some op h =>
      intro r hr
      obtain ⟨os, hos, hr⟩ := bind_eq_ok.mp hr
      have concrete : ∀ o ∈ os, o.Concrete := by
        intro o ho
        obtain ⟨a, ha, hao⟩ := (Value.mapM_eq_ok hos).1 o ho
        exact ih (h a ha) (fun x hx => covers x (vars_arg ha hx)) o hao
      rw [applied_concrete concrete] at hr
      exact op.concrete settings os (mapM_eq_ok.mp hos).length_eq.symm concrete r hr

/-! ## 2. The evaluator -/

namespace Evaluator

variable {α β : Type}

/-- Steps that touch nothing but the flags, one after the other. -/
theorem exec_mapM_flags {f : α → Calc β} {g : α → Except Error β} {as : List α} {m : Machine}
    (h : ∀ a ∈ as, ∀ flags, ∃ flags',
      exec (f a) { m with flags } = (g a, { m with flags := flags' })) :
    ∀ flags, ∃ flags',
      exec (as.mapM f) { m with flags } = (as.mapM g, { m with flags := flags' }) := by
  induction as with
  | nil => exact fun flags => ⟨flags, rfl⟩
  | cons a as ih =>
    intro flags
    obtain ⟨ha, has⟩ := List.forall_mem_cons.mp h
    obtain ⟨first, hfirst⟩ := ha flags
    rw [List.mapM_cons, List.mapM_cons, exec_bind, hfirst]
    cases g a with
    | error e => exact ⟨first, rfl⟩
    | ok b =>
      obtain ⟨rest, hrest⟩ := ih has first
      refine ⟨rest, ?_⟩
      show exec (as.mapM f >>= fun bs => pure (b :: bs)) _ = _
      rw [exec_bind, hrest]
      cases as.mapM g with
      | error e => rfl
      | ok bs => rfl

/-- An application to arguments evaluates them first. -/
theorem evaluateNode_apply {evaluate : Expr → Calc Operand} {name : String} {args : List Expr}
    (some : args ≠ []) : evaluateNode evaluate (.apply name args) = (do
      let os ← args.mapM evaluate
      if os.any fun o => o.kind = .symbolic then pure (.waiting name os)
      else applyOperation evaluate name os) := by
  cases args with
  | nil => exact absurd rfl some
  | cons a as => rfl

/-- One level of the evaluator gives the result of an expression if the levels below it do. -/
theorem exec_evaluateNode {levels : Nat} {evaluate : Expr → Calc Operand}
    (ih : ∀ {e : Expr} {m : Machine}, e.Computable → ConcreteOn e.vars m.scopes.operand? →
      ∃ flags, exec (evaluate e) m =
        (e.result m.settings m.scopes.operand? levels, { m with flags }))
    {e : Expr} {m : Machine} (he : e.Computable) (hm : ConcreteOn e.vars m.scopes.operand?) :
    ∃ flags, exec (evaluateNode evaluate e) m =
      (e.result m.settings m.scopes.operand? (levels + 1), { m with flags }) := by
  cases he with
  | var name =>
    refine ⟨m.flags, ?_⟩
    show exec (get >>= _) m = _
    rw [exec_get_bind, Expr.result_var]
    cases bound : m.scopes.get? name with
    | none =>
      rw [Scopes.operand?, bound]
      rfl
    | some x =>
      have stands : m.scopes.operand? name = some x.operand := by rw [Scopes.operand?, bound]; rfl
      have concrete := hm name (List.mem_singleton_self name) _ stands
      rw [stands]
      show exec (evaluateBound _ x) m = _
      unfold evaluateBound
      split
      · rename_i symbolic
        exact absurd (congrArg Value.kind symbolic) concrete
      · rfl
  | const h => exact ⟨m.flags, rfl⟩
  | @apply name args some op h =>
    have each : ∀ a ∈ args, ∀ flags, ∃ flags',
        exec (evaluate a) { m with flags } =
          (a.result m.settings m.scopes.operand? levels, { m with flags := flags' }) :=
      fun a ha flags => ih (m := { m with flags }) (h a ha) fun x hx =>
        hm x (Expr.vars_arg ha hx)
    obtain ⟨flags, hargs⟩ := exec_mapM_flags each m.flags
    rw [evaluateNode_apply some, exec_bind,
      show exec (args.mapM evaluate) m = _ from hargs,
      Expr.result_apply]
    cases hos : args.mapM (Expr.result m.settings m.scopes.operand? levels) with
    | error e => exact ⟨flags, rfl⟩
    | ok os =>
      have count : os.length = args.length := (mapM_eq_ok.mp hos).length_eq.symm
      by_cases concrete : ∀ o ∈ os, o.Concrete
      · obtain ⟨flags', hrun⟩ := op.run evaluate os { m with flags } count
        refine ⟨flags', ?_⟩
        have ready : (os.any fun o => decide (o.kind = .symbolic)) = false :=
          List.any_eq_false.mpr fun o ho symbolic => concrete o ho (of_decide_eq_true symbolic)
        show exec (if os.any (fun o => decide (o.kind = .symbolic)) = true then _ else _) _ = _
        rw [ready, if_neg Bool.false_ne_true, hrun]
        exact congrArg (·, _) (applied_concrete concrete).symm
      · refine ⟨flags, ?_⟩
        have waits : (os.any fun o => decide (o.kind = .symbolic)) = true := by
          obtain ⟨o, ho, symbolic⟩ : ∃ o ∈ os, ¬ o.Concrete := by simpa using concrete
          exact List.any_eq_true.mpr ⟨o, ho, decide_eq_true (Decidable.not_not.mp symbolic)⟩
        show exec (if os.any (fun o => decide (o.kind = .symbolic)) = true then _ else _) _ = _
        rw [if_pos waits]
        exact congrArg (·, _) (applied_waiting concrete).symm

/-- The evaluator gives the result of an expression. -/
theorem exec_evaluateExpr (levels : Nat) : ∀ {e : Expr} {m : Machine}, e.Computable →
    ConcreteOn e.vars m.scopes.operand? →
    ∃ flags, exec (evaluateExpr levels e) m =
      (e.result m.settings m.scopes.operand? levels, { m with flags }) := by
  induction levels with
  | zero => exact fun _ _ => ⟨_, rfl⟩
  | succ levels ih =>
    intro e m he hm
    obtain ⟨flags, h⟩ := exec_evaluateNode ih (m := { m with nesting := m.nesting + 1 }) he hm
    exact ⟨flags, by rw [evaluateExpr, exec_deeper, h]; rfl⟩

end Evaluator

/-! ## 3. Evaluating the top of the stack -/

theorem reduceArgs_eq_map (es : List Expr) : Value.reduceArgs es = es.map Value.reduceExpr := by
  induction es with
  | nil => rfl
  | cons e es ih => rw [Value.reduceArgs, ih, List.map_cons]

namespace Expr.Computable

/-- Reducing the constants of an expression leaves its variables and its operations. -/
theorem reduce {e : Expr} (h : e.Computable) :
    (Value.reduceExpr e).Computable ∧ (Value.reduceExpr e).vars = e.vars := by
  induction h with
  | var name => exact ⟨.var name, rfl⟩
  | @const v h => exact ⟨.const (v.concrete_reduce.mpr h), rfl⟩
  | @apply name args some op h ih =>
    rw [Value.reduceExpr, reduceArgs_eq_map, Expr.vars, Expr.vars, Expr.varsAll_eq, Expr.varsAll_eq,
      List.flatMap_map]
    refine ⟨.apply (by simpa using some) (by simpa using op) ?_, ?_⟩
    · simpa using fun e he => (ih e he).1
    · exact List.flatMap_congr fun e he => (ih e he).2

end Expr.Computable

namespace Session

variable {v : View}

/-- An expression on top of the stack is replaced by its result. -/
theorem exec_eval {m : Session} (hm : v.Of m) (free : v.scopes.Free) {x : Entry}
    {rest : List Entry} (hv : v.entries = x :: rest) :
    exec (runInstruction maxNesting (.keyword "eval")) m =
      exec (evaluateTop (evaluateExpr maxNesting)) m := by
  have found : Registry.find? Catalogue.evaluate.name = some Catalogue.evaluate :=
    Registry.find_name (Registry.mem_of_references (by simp [Catalogue.references]))
  have enough : Catalogue.evaluate.minArgs ≤ v.entries.length := by
    rw [hv]
    exact Nat.le_add_left 1 rest.length
  exact exec_operation free found enough hm

/-- Evaluating a value leaves the machine as it is. -/
theorem exec_evaluateTop_value {evaluate : Expr → Calc Operand} {m : Machine} {x : Entry}
    {below : List Entry} (hm : m.stack.entries = x :: below) (concrete : x.value.Concrete) :
    exec (evaluateTop evaluate) m = (.ok (), m) := by
  have top : m.stack.peek 0 = .ok x := by simp [Stack.peek, hm]
  rw [evaluateTop, exec_bind, exec_top, top]
  dsimp only [mapError_ok]
  split
  · rename_i symbolic
    exact absurd (congrArg Value.kind symbolic) concrete
  · rfl

/-- A value on top of the stack is left as it is. -/
theorem leads_eval_concrete (free : v.scopes.Free) {x : Entry} {rest : List Entry}
    (hv : v.entries = x :: rest) (concrete : x.value.Concrete) : Leads [.keyword "eval"] v v := by
  refine leads_of_exec fun m hm => ⟨m, ?_, hm⟩
  rw [exec_eval hm free hv, exec_evaluateTop_value (hm.entries.trans hv) concrete]

/-- An expression on top of the stack is replaced by its result. -/
theorem ends_eval (free : v.scopes.Free) {x : Entry} {e : Expr} (hx : x.value = .symbolic e)
    (he : e.Computable) (concrete : ConcreteOn e.vars v.scopes.operand?) :
    Ends [.keyword "eval"] (v.push x) v
      ((e.result v.settings v.scopes.operand? maxNesting).map fun o =>
        [o.stored v.settings.style]) := by
  have run (m : Session) (hm : (v.push x).Of m) : ∃ flags,
      exec (runInstruction maxNesting (.keyword "eval")) m =
        exec (lift (e.result v.settings v.scopes.operand? maxNesting) >>= fun o => replaceTop 1 [o])
          { m with flags } := by
    have top : m.stack.peek 0 = .ok x := by simp [Stack.peek, hm.entries, View.push]
    obtain ⟨flags, h⟩ := exec_evaluateExpr maxNesting (m := m) he (hm.scopes ▸ concrete)
    refine ⟨flags, ?_⟩
    rw [exec_eval hm free rfl, evaluateTop, exec_bind, exec_top, top]
    dsimp only [mapError_ok]
    rw [hx]
    show exec (evaluateExpr maxNesting e >>= fun o => replaceTop 1 [o]) m = _
    rw [exec_bind, h, hm.settings, hm.scopes, exec_bind, exec_lift]
    rfl
  cases hr : e.result v.settings v.scopes.operand? maxNesting with
  | error fault =>
    refine fails_of_exec fun m hm => ?_
    obtain ⟨flags, h⟩ := run m hm
    rw [hr] at h
    exact ⟨_, h⟩
  | ok o =>
    refine ⟨[.store o.value o.unit v.settings.style], rfl, leads_of_exec fun m hm => ?_⟩
    obtain ⟨flags, h⟩ := run m hm
    have enough : 1 ≤ m.stack.size := by simp [Stack.size, hm.entries, View.push]
    have evaluated := hm.withFlags flags
    rw [hr, exec_bind, exec_lift] at h
    exact ⟨_, h.trans ((exec_replaceTop 1 [o] { m with flags } enough).trans evaluated.commit),
      evaluated.replaced 1 o⟩

/-- An expression is pushed and evaluated. -/
theorem ends_symbolic_eval (free : v.scopes.Free) {e : Expr} (he : e.Computable)
    (concrete : ConcreteOn e.vars v.scopes.operand?) :
    Ends [.symbolic e, .keyword "eval"] v v
      (((Value.reduceExpr e).result v.settings v.scopes.operand? maxNesting).map fun o =>
        [o.stored v.settings.style]) := by
  obtain ⟨reduced, vars⟩ := he.reduce
  exact (leads_symbolic e).ends (ends_eval free rfl reduced (vars ▸ concrete))

end Session
end StackCalc
