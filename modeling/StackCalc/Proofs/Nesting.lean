import StackCalc.Proofs.Confined

/-! # The levels of nesting

The evaluator runs on the levels that are left, and the machine counts those in use. Every step
leaves the count as it finds it, so whatever is nested in a step finds as many levels left as the
machine says. The evaluator is therefore the one that looks at the count before it goes down a
level. -/

namespace StackCalc

open Calc

namespace Evaluator

variable {α β : Type} {n : Nat}

/-! ## 1. Steps that differ at other levels only -/

/-- Two steps do the same wherever `n` levels are in use. -/
def SameAt (n : Nat) (x y : Calc α) : Prop := ∀ m : Machine, m.nesting = n → exec x m = exec y m

/-- A step leaves the count of the levels as it finds it. -/
def Level (x : Calc α) : Prop := ∀ m : Machine, (exec x m).2.nesting = m.nesting

theorem level_of_within {Q : α → Prop} {x : Calc α} (h : Within .all Q x) : Level x := fun m =>
  (h m m.inAll).course.confined.nesting

theorem level_lift (r : Except Error α) : Level (lift r) := fun m => by rw [exec_lift]

theorem level_top : Level top := fun m => by rw [exec_top]

theorem level_onScratch {x : Calc α} (h : Level x) (entries : List Entry) :
    Level (onScratch entries x) := fun m => by
  rw [exec_onScratch]
  exact h { m with stack := { entries } }

theorem level_requireArgs (op : String) (needed : Nat) : Level (requireArgs op needed) :=
  fun m => by rw [exec_requireArgs]

namespace SameAt

theorem refl (x : Calc α) : SameAt n x x := fun _ _ => rfl

theorem bind {x y : Calc α} {f g : α → Calc β} (h : SameAt n x y) (level : Level x)
    (hf : ∀ a, SameAt n (f a) (g a)) : SameAt n (x >>= f) (y >>= g) := by
  intro m hm
  have kept := level m
  rw [exec_bind, exec_bind, ← h m hm]
  cases run : exec x m with
  | mk r k =>
    rw [run] at kept
    cases r with
    | error e => rfl
    | ok a => exact hf a k (kept.trans hm)

theorem get {f g : Machine → Calc β} (h : ∀ m, m.nesting = n → exec (f m) m = exec (g m) m) :
    SameAt n (get >>= f) (get >>= g) := by
  intro m hm
  rw [exec_get_bind, exec_get_bind]
  exact h m hm

theorem mapM {f g : α → Calc β} {Q : β → Prop} (h : ∀ a, SameAt n (f a) (g a))
    (within : ∀ a, Within .all Q (f a)) (as : List α) : SameAt n (as.mapM f) (as.mapM g) := by
  induction as with
  | nil => exact .refl _
  | cons a as ih =>
    rw [List.mapM_cons, List.mapM_cons]
    refine (h a).bind (level_of_within (within a)) fun b => ?_
    exact ih.bind (level_of_within (.mapM fun a _ => within a)) fun bs => .refl _

theorem forM {f g : α → Calc PUnit} (h : ∀ a, SameAt n (f a) (g a)) (level : ∀ a, Level (f a))
    (as : List α) : SameAt n (forM as f) (forM as g) := by
  induction as with
  | nil => exact .refl _
  | cons a as ih =>
    rw [List.forM_cons, List.forM_cons]
    exact (h a).bind (level a) fun _ => ih

theorem onScratch {x y : Calc α} (h : SameAt n x y) (entries : List Entry) :
    SameAt n (onScratch entries x) (onScratch entries y) := by
  intro m hm
  rw [exec_onScratch, exec_onScratch]
  dsimp only
  rw [h { m with stack := { entries } } hm]

theorem deeper {x y : Calc α} (h : SameAt (n + 1) x y) : SameAt n (deeper x) (deeper y) := by
  intro m hm
  rw [exec_deeper, exec_deeper]
  dsimp only
  rw [h { m with nesting := m.nesting + 1 } (congrArg (· + 1) hm)]

theorem inScope {x y : Calc Unit} (h : SameAt n x y) : SameAt n (inScope x) (inScope y) := by
  intro m hm
  rw [exec_inScope, exec_inScope]
  dsimp only
  rw [h { m with scopes := m.scopes.enter } hm]

end SameAt

/-! ## 2. What is nested in a step -/

section

variable {f g : Expr → Calc Operand} (h : ∀ e, SameAt n (f e) (g e))
  (within : ∀ e, Within .all Vocabulary.all.Operand (f e))

include h within

theorem sameAt_runDirect (action : Action) :
    SameAt n (runDirect f action) (runDirect g action) := by
  cases action with
  | primitive run => exact .refl run
  | assign => exact .refl assignTop
  | call => exact .refl (pure ())
  | evaluate =>
    refine (SameAt.refl top).bind level_top fun e => ?_
    split
    · exact (h _).bind (level_of_within (within _)) fun o => .refl _
    · exact .refl _

theorem sameAt_runCallee (callee : Callee) :
    SameAt n (runCallee f callee) (runCallee g callee) := by
  cases callee with
  | «variable» e => exact .refl _
  | operation op =>
    exact (SameAt.refl _).bind (level_requireArgs _ _) fun _ =>
      sameAt_runDirect h within op.action

theorem sameAt_runAction (action : Action) :
    SameAt n (runAction f action) (runAction g action) := by
  cases action with
  | call =>
    refine .get fun m hm => ?_
    refine (SameAt.refl _).bind (level_lift _) (fun p => ?_) m hm
    refine (SameAt.refl _).bind (fun _ => rfl) fun _ => ?_
    exact sameAt_runCallee h within p.1
  | primitive run => exact sameAt_runDirect h within (.primitive run)
  | evaluate => exact sameAt_runDirect h within .evaluate
  | assign => exact sameAt_runDirect h within .assign

theorem sameAt_runName (name : String) : SameAt n (runName f name) (runName g name) := by
  refine .get fun m hm => ?_
  refine (SameAt.refl _).bind (level_lift _) (fun callee => ?_) m hm
  cases callee with
  | «variable» e => exact .refl _
  | operation op =>
    exact (SameAt.refl _).bind (level_requireArgs _ _) fun _ =>
      sameAt_runAction h within op.action

theorem sameAt_applyOperation (name : String) (args : List Operand) :
    SameAt n (applyOperation f name args) (applyOperation g name args) := by
  unfold applyOperation
  split
  · exact .refl _
  · rename_i op hop
    have admitted : Admitted .all op.action := admitted_find List.not_mem_nil hop
    have level : Level (do requireArgs op.name op.minArgs; runAction f op.action) :=
      level_of_within fun k hk => .read (exec_requireArgs _ _ k) fun _ _ =>
        within_runAction (fun e _ => within e) admitted k hk
    refine .get fun m hm => ?_
    refine SameAt.bind ?_ (level_onScratch level _) (fun p => .refl _) m hm
    refine SameAt.onScratch ?_ _
    exact (SameAt.refl _).bind (level_requireArgs _ _) fun _ =>
      sameAt_runAction h within op.action

omit within in
theorem sameAt_evaluateBound (e : Entry) :
    SameAt n (evaluateBound f e) (evaluateBound g e) := by
  unfold evaluateBound
  split
  · exact h _
  · exact .refl _

theorem sameAt_evaluateNode (e : Expr) : SameAt n (evaluateNode f e) (evaluateNode g e) := by
  unfold evaluateNode
  split
  · refine .get fun m hm => ?_
    split
    · exact sameAt_evaluateBound h _ m hm
    · rfl
  · exact .refl _
  · refine .get fun m hm => ?_
    split
    · exact sameAt_evaluateBound h _ m hm
    · split
      · exact sameAt_applyOperation h within _ _ m hm
      · rfl
  · refine (SameAt.mapM h within _).bind (level_of_within (.mapM fun e _ => within e)) fun os => ?_
    split
    · exact .refl _
    · exact sameAt_applyOperation h within _ _

end

/-! ## 3. The evaluator that looks at the count -/

/-- The value of an expression, with the levels left that the machine says. -/
def evaluateHere (e : Expr) : Calc Operand := do
  evaluateExpr (levelsLeft (← get)) e

/-- Runs an instruction, with the levels left that the machine says. -/
def runHere (i : Instruction) : Calc Unit := do
  runInstruction (levelsLeft (← get)) i

theorem levelsLeft_cases (m : Machine) :
    maxNesting ≤ m.nesting ∧ levelsLeft m = 0 ∨
      ¬ maxNesting ≤ m.nesting ∧ levelsLeft m = maxNesting - (m.nesting + 1) + 1 := by
  unfold levelsLeft
  omega

theorem within_evaluateAll (levels : Nat) (e : Expr) :
    Within .all Vocabulary.all.Operand (evaluateExpr levels e) :=
  within_evaluateExpr levels e fun _ _ => List.not_mem_nil

theorem sameAt_evaluateHere {levels : Nat} (left : maxNesting - n = levels) (e : Expr) :
    SameAt n (evaluateExpr levels e) (evaluateHere e) := by
  intro m hm
  rw [evaluateHere, exec_get_bind, levelsLeft, hm, left]

/-- An expression is refused if all levels are in use, and otherwise evaluated one level deeper,
where the expressions below it are evaluated in the same way. -/
theorem exec_evaluateHere (e : Expr) (m : Machine) :
    exec (evaluateHere e) m =
      if maxNesting ≤ m.nesting then (.error tooDeep, m)
      else exec (deeper (evaluateNode evaluateHere e)) m := by
  rw [evaluateHere, exec_get_bind]
  rcases levelsLeft_cases m with ⟨full, left⟩ | ⟨free, left⟩
  · rw [if_pos full, left]
    rfl
  · rw [if_neg free, left]
    exact SameAt.deeper (sameAt_evaluateNode (fun e => sameAt_evaluateHere rfl e)
      (within_evaluateAll _) e) m rfl

theorem exec_runHere (i : Instruction) (m : Machine) :
    exec (runHere i) m = exec (runInstruction (levelsLeft m) i) m := by
  rw [runHere, exec_get_bind]

theorem sameAt_runHere {levels : Nat} (left : maxNesting - n = levels) (i : Instruction) :
    SameAt n (runInstruction levels i) (runHere i) := by
  intro m hm
  rw [exec_runHere, levelsLeft, hm, left]

/-- A program is refused if all levels are in use, and otherwise run one level deeper, where its
instructions are run in the same way. -/
theorem exec_runHere_program (body : List Instruction) (m : Machine) :
    exec (runHere (.program body)) m =
      if maxNesting ≤ m.nesting then (.error tooDeep, m)
      else exec (deeper (inScope (forM body runHere))) m := by
  rw [exec_runHere]
  rcases levelsLeft_cases m with ⟨full, left⟩ | ⟨free, left⟩
  · rw [if_pos full, left]
    unfold runInstruction
    rfl
  · rw [if_neg free, left]
    unfold runInstruction
    exact SameAt.deeper (.inScope (.forM (fun i => sameAt_runHere rfl i)
      (fun i => level_of_within (within_runInstruction _ i i.inAll)) body)) m rfl

/-- A name is run with the evaluator that looks at the count. -/
theorem exec_runHere_keyword (name : String) (m : Machine) :
    exec (runHere (.keyword name)) m = exec (runName evaluateHere name) m := by
  rw [exec_runHere]
  unfold runInstruction
  exact sameAt_runName (fun e => sameAt_evaluateHere rfl e) (within_evaluateAll _) name m rfl

end Evaluator
end StackCalc
