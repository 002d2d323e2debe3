import StackCalc.Proofs.Evaluation

/-! # Expressions as instructions

Evaluating an expression and running its constants, variables and operations one after the other on
the stack come to the same: the evaluator gives every operation a stack of its own, but it takes
the arguments in the order in which the instructions push them, and stores them alike. -/

namespace StackCalc

open Evaluator

namespace Expr

mutual

/-- The instructions that an expression stands for: constants and variables are pushed, and an
operation runs after its arguments. -/
def instructions : Expr → List Instruction
  | .var name => [.keyword name]
  | .const v => [.number v .none]
  | .apply name args => instructionsAll args ++ [.keyword name]

def instructionsAll : List Expr → List Instruction
  | [] => []
  | e :: es => instructions e ++ instructionsAll es

end

mutual

/-- The number of levels of an expression. -/
def height : Expr → Nat
  | .var _ | .const _ => 1
  | .apply _ args => heightAll args + 1

def heightAll : List Expr → Nat
  | [] => 0
  | e :: es => max (height e) (heightAll es)

end

theorem heightAll_le {es : List Expr} {n : Nat} : heightAll es ≤ n ↔ ∀ e ∈ es, e.height ≤ n := by
  induction es with
  | nil => simp [heightAll]
  | cons e es ih => rw [heightAll, Nat.max_le, ih, List.forall_mem_cons]

end Expr

/-- Names that were bound in a style to values that are no expressions. -/
def Scopes.BoundIn (style : NumberStyle) (s : Scopes) (names : List String) : Prop :=
  ∀ name ∈ names, ∃ v unit, Value.Concrete v ∧ s.get? name = some (.store v unit style)

theorem Scopes.BoundIn.covers {style : NumberStyle} {s : Scopes} {names : List String}
    (h : s.BoundIn style names) : Covers names s.operand? := by
  intro name hname
  obtain ⟨v, unit, concrete, bound⟩ := h name hname
  refine ⟨(Operand.mk v unit).stored style, by rw [operand?, bound]; rfl, ?_⟩
  exact (Operand.concrete_stored style _).mpr concrete

namespace Session

variable {settings : Settings} {scopes : Scopes}

/-- The instructions of expressions, one after the other, push their results. -/
theorem ends_instructionsAll {f : Expr → Except Error Operand} {es : List Expr}
    (h : ∀ e ∈ es, ∀ entries, Ends e.instructions ⟨settings, scopes, entries⟩
      ⟨settings, scopes, entries⟩ ((f e).map fun o => [o.stored settings.style])) :
    ∀ entries, Ends (Expr.instructionsAll es) ⟨settings, scopes, entries⟩
      ⟨settings, scopes, entries⟩
      ((es.mapM f).map fun os => os.map (Operand.stored settings.style)) := by
  induction es with
  | nil => exact fun _ => ⟨[], rfl, leads_nil⟩
  | cons e es ih =>
    intro entries
    obtain ⟨he, hes⟩ := List.forall_mem_cons.mp h
    have both : Ends (e.instructions ++ Expr.instructionsAll es) ⟨settings, scopes, entries⟩
        ⟨settings, scopes, entries⟩ (((f e).map fun o => [o.stored settings.style]) >>= fun first =>
          ((es.mapM f).map fun os => os.map (Operand.stored settings.style)).map (first ++ ·)) :=
      (he entries).bind fun xs _ => (ih hes (xs.reverse ++ entries)).below
    have joined : (((f e).map fun o => [o.stored settings.style]) >>= fun first =>
        ((es.mapM f).map fun os => os.map (Operand.stored settings.style)).map (first ++ ·)) =
        ((e :: es).mapM f).map fun os => os.map (Operand.stored settings.style) := by
      rw [List.mapM_cons]
      cases f e with
      | error fault => rfl
      | ok o => cases es.mapM f <;> rfl
    rw [Expr.instructionsAll, ← joined]
    exact both

/-- The instructions of an expression push what the evaluator makes of it, as it is stored. -/
theorem ends_instructions (free : scopes.Free) {e : Expr} (he : e.IsFormula) :
    scopes.BoundIn settings.style e.vars → ∀ {levels : Nat}, e.height ≤ levels → ∀ entries,
      Ends e.instructions ⟨settings, scopes, entries⟩ ⟨settings, scopes, entries⟩
        (((Value.reduceExpr e).result settings scopes.operand? levels).map fun o =>
          [o.stored settings.style]) := by
  induction he with
  | var name =>
    intro bound levels height entries
    obtain ⟨v, unit, concrete, bound⟩ := bound name (List.mem_singleton_self name)
    obtain ⟨k, rfl⟩ : ∃ k, levels = k + 1 := ⟨levels - 1, by rw [Expr.height] at height; omega⟩
    have stands : scopes.operand? name = some ((Operand.mk v unit).stored settings.style) := by
      rw [Scopes.operand?, bound]
      rfl
    rw [Value.reduceExpr, Expr.result_var, stands]
    refine ⟨[.store v unit settings.style], ?_, leads_variable bound⟩
    exact congrArg (fun o => [o]) (Operand.stored_stored settings.style ⟨v, unit⟩).symm
  | @const v concrete =>
    intro _ levels height entries
    obtain ⟨k, rfl⟩ : ∃ k, levels = k + 1 := ⟨levels - 1, by rw [Expr.height] at height; omega⟩
    rw [Value.reduceExpr, Expr.result_const]
    refine ⟨[.store v .none settings.style], ?_, leads_number v .none⟩
    exact congrArg (fun o => [o]) (Operand.stored_reduce settings.style v .none).symm
  | @apply name op args found applicable count h ih =>
    intro bound levels height entries
    obtain ⟨k, rfl⟩ : ∃ k, levels = k + 1 := ⟨levels - 1, by rw [Expr.height] at height; omega⟩
    have boundIn : ∀ a ∈ args, scopes.BoundIn settings.style a.vars :=
      fun a ha x hx => bound x (Expr.vars_arg ha hx)
    have lower : ∀ a ∈ args, a.height ≤ k := by
      rw [Expr.height] at height
      exact Expr.heightAll_le.mp (Nat.le_of_succ_le_succ height)
    have applies := (applies_of_applicable applicable).1
    have pushed := ends_instructionsAll (fun a ha => ih a ha (boundIn a ha) (lower a ha)) entries
    rw [Value.reduceExpr, reduceArgs_eq_map, Expr.result_apply, List.mapM_map,
      Function.comp_def, Expr.instructions]
    cases hr : args.mapM fun a => (Value.reduceExpr a).result settings scopes.operand? k with
    | error fault =>
      rw [hr] at pushed
      show Fails (Expr.instructionsAll args ++ [.keyword name]) _ fault
      exact Fails.append pushed
    | ok os =>
      rw [hr] at pushed
      obtain ⟨xs, hxs, hleads⟩ := pushed
      have length : os.length = op.minArgs := (mapM_eq_ok.mp hr).length_eq.symm.trans count
      have concrete : ∀ o ∈ os, o.Concrete := by
        intro o ho
        obtain ⟨a, ha, hao⟩ := (Value.mapM_eq_ok hr).1 o ho
        obtain ⟨reduced, vars⟩ := (h a ha).computable.reduce
        exact Expr.result_concrete k reduced (vars ▸ (boundIn a ha).covers) o hao
      have stored : (outcome settings name os).map (fun o => [o.stored settings.style]) =
          (outcome settings name os).map fun o => [o] := by
        have fixed := (computes_of_applies found applies).stored settings os length
        cases ho : outcome settings name os with
        | error fault => rfl
        | ok o => exact congrArg (fun o => Except.ok [o]) (fixed o ho)
      show Ends _ _ _ ((applied settings name os).map _)
      rw [applied_concrete concrete, stored]
      exact hleads.ends (ends_operation free found applies length hxs)

/-- An expression evaluates to what its instructions leave on any stack, and fails as they fail. It
has at most as many levels as may be nested, and its variables are bound as it is evaluated. -/
theorem eval_eq_instructions (settings : Settings) (clock : Int) (steps : List Step) (e : Expr)
    (below : List Entry) :
    let m := after (Machine.start settings clock) steps
    m.settings.stackLimit = none → e.IsFormula → m.scopes.BoundIn m.settings.style e.vars →
      e.height ≤ maxNesting → ∃ r : Except Error Operand,
        result [.symbolic e, .keyword "eval"] m = r.map (· :: m.stack.entries.map Entry.operand) ∧
        result e.instructions { m with stack := m.stack.withEntries below } =
          r.map (· :: below.map Entry.operand) := by
  intro m unlimited formula bound height
  have rest : m.AtRest := atRest_after settings clock steps
  have free : m.scopes.Free := free_after settings clock steps
  have limit : m.stack.limit = none := rest.limit.trans unlimited
  refine ⟨((Value.reduceExpr e).result m.settings m.scopes.operand? maxNesting).map
    (Operand.stored m.settings.style), ?_, ?_⟩
  · have ends := ends_symbolic_eval (v := ⟨m.settings, m.scopes, m.stack.entries⟩) free
      formula.computable bound.covers.concreteOn
    exact ends.result_single (View.of_self limit rest.nesting)
  · have ends := ends_instructions free formula bound height below
    exact ends.result_single (m := { m with stack := m.stack.withEntries below })
      ⟨rfl, rfl, rfl, limit, rest.nesting⟩

/-- With three metres bound to `X`, the expression `X * 2 + X` and its instructions come to the
same. -/
theorem eval_eq_instructions_metres :
    let three : Binding := ⟨"X", .integer 3, UnitProduct.base "m"⟩
    let m := after (Machine.start {} 0) ([three].flatMap Binding.instructions |>.map .instruction)
    let e := Expr.apply "+" [.apply "*" [.var "X", .const (.integer 2)], .var "X"]
    (m.settings.stackLimit = none ∧ e.IsFormula ∧ m.scopes.BoundIn m.settings.style e.vars ∧
        e.height ≤ maxNesting) ∧
      ∃ r : Except Error Operand,
        result [.symbolic e, .keyword "eval"] m = r.map (· :: m.stack.entries.map Entry.operand) ∧
        result e.instructions { m with stack := m.stack.withEntries [] } = r.map (· :: []) := by
  intro three m e
  let start : View := ⟨{}, {}, []⟩
  have bound : (start.bindAll [three]).Of m :=
    (leads_bindAll (by decide +kernel) (free_after {} 0 [])).steps ⟨rfl, rfl, rfl, rfl, rfl⟩
  have unlimited : m.settings.stackLimit = none := by
    rw [bound.settings]
    rfl
  have product : (Expr.apply "*" [.var "X", .const (.integer 2)]).IsFormula :=
    .numeric Catalogue.mul (by simp [Catalogue.numeric]) rfl
      (by simp [Expr.IsFormula.var, Expr.IsFormula.const (v := .integer 2) (by decide)])
  have formula : e.IsFormula := .numeric Catalogue.add (by simp [Catalogue.numeric]) rfl
    (by simp [product, Expr.IsFormula.var])
  have boundIn : m.scopes.BoundIn m.settings.style e.vars := by
    have only : ∀ x ∈ e.vars, x = "X" := by decide
    intro x hx
    cases only x hx
    refine ⟨three.value, three.unit, by decide, ?_⟩
    rw [bound.scopes, bound.settings]
    exact Scopes.get_set (s := {}) rfl "X" "X" _
  have height : e.height ≤ maxNesting := by decide
  exact ⟨⟨unlimited, formula, boundIn, height⟩,
    eval_eq_instructions {} 0 _ e [] unlimited formula boundIn height⟩

end Session
end StackCalc
