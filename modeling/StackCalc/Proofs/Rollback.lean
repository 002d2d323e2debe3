import StackCalc.Proofs.Confined

/-! # Failing instructions

An instruction that fails gives the stack back as it was, and however it ends, the scopes that it
has opened are closed and the levels that it has gone down are left again. That all levels are free
for the next instruction is seen from outside by running programs in programs. -/

namespace StackCalc

namespace Evaluator

/-- Nothing, in programs nested so deep. -/
def nested : Nat → Instruction
  | 0 => .noop
  | depth + 1 => .program [nested depth]

/-- Nested programs run if there is a level for each of them. -/
theorem exec_nested (depth levels : Nat) (m : Machine) :
    Calc.exec (runInstruction levels (nested depth)) m =
      (if depth ≤ levels then .ok () else .error tooDeep, m) := by
  induction depth generalizing levels m with
  | zero =>
    rw [if_pos (Nat.zero_le levels), nested]
    unfold runInstruction
    rfl
  | succ depth ih =>
    rw [nested]
    unfold runInstruction
    cases levels with
    | zero => rfl
    | succ levels =>
      have body (k : Machine) : Calc.exec (forM [nested depth] (runInstruction levels)) k =
          (if depth ≤ levels then .ok () else .error tooDeep, k) := by
        rw [List.forM_cons, Calc.exec_bind, ih]
        by_cases fits : depth ≤ levels
        · rw [if_pos fits]
          rfl
        · rw [if_neg fits]
      show Calc.exec (deeper (inScope (forM [nested depth] (runInstruction levels)))) m = _
      rw [exec_deeper, exec_inScope, body]
      simp only [Nat.add_le_add_iff_right]
      rfl

end Evaluator

namespace Session

/-- The outcome of an instruction is what it is run to. -/
theorem runOne_outcome (i : Instruction) (m : Session) :
    (runOne i m).1 = (Calc.exec (Evaluator.runInstruction (Evaluator.levelsLeft m) i) m).1 := by
  rcases runOne_cases i m with ⟨n, h, hi⟩ | ⟨e, n, h, hi⟩
  · rw [h, hi]
  · rw [h, hi]

/-- Whatever instruction is run on a session after whatever steps, if it fails then the stack and
its limit and the flags are as before. In any case only the global scope is open afterwards, no
level of nesting is in use, and so programs can be nested as deep as ever. -/
theorem rolled_back (settings : Settings) (clock : Int) (steps : List Step) (i : Instruction) :
    let m := after (Machine.start settings clock) steps
    let n := (runOne i m).2
    (∀ e, (runOne i m).1 = .error e → n.stack = m.stack ∧ n.flags = m.flags) ∧
    n.scopes.depth = 1 ∧
    n.nesting = 0 ∧
    ∀ depth, (runOne (Evaluator.nested depth) n).1 = .ok () ↔ depth ≤ Evaluator.maxNesting := by
  intro m n
  have rest : m.AtRest := atRest_after settings clock steps
  have restAfter : n.AtRest := (taken_take (s := .instruction i) i.inAll m.inAll).atRest rest
  refine ⟨fun e he => ?_, ?_, restAfter.nesting, fun depth => ?_⟩
  · show (runOne i m).2.stack = m.stack ∧ (runOne i m).2.flags = m.flags
    rcases runOne_cases i m with ⟨k, _, hi⟩ | ⟨e, k, h, hi⟩
    · rw [hi] at he
      cases he
    · rw [hi]
      exact ⟨rest.failed_stack (course_of_run i.inAll m.inAll h), rfl⟩
  · rw [Scopes.depth, restAfter.scopes]
    rfl
  · rw [runOne_outcome, restAfter.levelsLeft, Evaluator.exec_nested]
    by_cases fits : depth ≤ Evaluator.maxNesting
    · simp [fits]
    · simp [fits]

/-- A negative number is pushed. -/
def negativePushed : List Step := [.instruction (.number (.integer (-5)) .none)]

/-- A program that binds a name and then fails inside of a call, with its operands on the stack. -/
def failingCall : Instruction :=
  .program [.number (.integer 7) .none, .symbolic (.var "x"), .keyword "sto",
    .number (.integer 1) .none, .number (.integer 0) .none, .reference "/", .keyword "execute"]

/-- The failing call leaves the negative number and its flag. -/
theorem rolled_back_call :
    let m := after (Machine.start {} 0) negativePushed
    let n := (runOne failingCall m).2
    (runOne failingCall m).1.isOk = false ∧ n.stack = m.stack ∧ n.flags = m.flags ∧
      m.flags.sign = true := by
  intro m n
  have failed : (runOne failingCall m).1.isOk = false := by decide +kernel
  have sign : m.flags.sign = true := by decide +kernel
  cases outcome : (runOne failingCall m).1 with
  | ok _ =>
    rw [outcome] at failed
    cases failed
  | error e =>
    obtain ⟨stack, flags⟩ := (rolled_back {} 0 negativePushed failingCall).1 e outcome
    exact ⟨outcome ▸ failed, stack, flags, sign⟩

end Session
end StackCalc
