import Mathlib.Data.List.Induction
import StackCalc.Proofs.Flags
import StackCalc.Proofs.Snapshots

/-! # The limit of the stack

Everything that puts entries on a stack asks for room first, but for undo, which brings a snapshot
back as it is. So the stack keeps to the limit of the settings unless a limit is set that a snapshot
in the history exceeds, and undo is called later. -/

namespace StackCalc

/-! ## 1. Stacks -/

namespace Stack

/-- A stack with no more entries than its limit allows. -/
def Fits (s : Stack) : Prop := ∀ n, s.limit = some n → s.size ≤ n

theorem Rearranged.fits {s t : Stack} (h : s.Rearranged t) (hs : s.Fits) : t.Fits := by
  intro n hn
  rcases h.room with smaller | fits
  · exact Nat.le_trans smaller (hs n (h.limit.symm.trans hn))
  · exact fits n hn

end Stack

namespace Machine

/-- A stack fits after its entries are replaced by results for which there was room. -/
theorem fits_replaced {m : Machine} {consumed : Nat} {results : List Operand}
    (room : m.stack.requireRoom consumed results.length = .ok ()) :
    (m.replaced consumed results).stack.Fits := by
  intro n hn
  have fits := Stack.requireRoom_eq_ok.mp room n hn
  simpa [replaced, Stack.size, Stack.withEntries, Nat.add_comm] using fits

theorem fits_pushed {m : Machine} {e : Entry} (room : m.stack.requireRoom 0 1 = .ok ()) :
    (m.pushed e).stack.Fits := by
  intro n hn
  exact Stack.requireRoom_eq_ok.mp room n hn

/-! ## 2. Machines -/

/-- The stack fits, and so does every snapshot that can come back. A stack of its own that an
operation is run on has no limit, or that of the settings. -/
structure Limited (V : Vocabulary) (m : Machine) : Prop where
  declared : ∀ n, m.stack.limit = some n → m.settings.stackLimit = some n
  stack : m.stack.Fits
  snapshots : V.Undoes → ∀ n, m.settings.stackLimit = some n →
    ∀ s ∈ m.history.snapshots, s.length ≤ n

variable {V : Vocabulary} {m n : Machine}

/-- Another stack that fits, while the settings and the history stay. -/
theorem Limited.withStack (hm : m.Limited V) {stack : Stack} (limit : stack.limit = m.stack.limit)
    (fits : stack.Fits) : Limited V { m with stack } :=
  ⟨fun n hn => hm.declared n (limit.symm.trans hn), fits, hm.snapshots⟩

end Machine

theorem Effect.limited {V : Vocabulary} {m : Machine} {r : Except Error Unit × Machine}
    (h : Effect m r) : m.Limited V → r.2.Limited V := by
  induction h with
  | failed e stack h => exact fun hm => hm.withStack h.limit (h.fits hm.stack)
  | replaced consumed results _ room _ _ =>
    exact fun hm => ⟨hm.declared, Machine.fits_replaced room, hm.snapshots⟩
  | rearranged stack h =>
    exact fun hm => ⟨fun n hn => hm.declared n (h.limit.symm.trans hn), h.fits hm.stack,
      hm.snapshots⟩
  | configured style modes _ room =>
    intro hm
    refine ⟨fun _ => id, room, fun undoes n hn s hs => ?_⟩
    exact hm.snapshots undoes n hn s (History.mem_withDepth hs)
  | pushed name e _ room =>
    exact fun hm => ⟨hm.declared, Machine.fits_pushed room, hm.snapshots⟩
  | unbound name => exact fun hm => ⟨hm.declared, hm.stack, hm.snapshots⟩
  | andThen _ _ first second => exact fun hm => second (first hm)

theorem Course.limited {V : Vocabulary} {m n : Machine} (h : Course V m n) :
    m.Limited V → n.Limited V := by
  induction h with
  | idle m => exact id
  | effect h => exact h.limited
  | undone called entries history h =>
    intro hm
    have snapshots := hm.snapshots called
    rw [History.pop_eq_some h] at snapshots
    refine ⟨hm.declared, fun n hn => ?_, fun _ n hn s hs => ?_⟩
    · exact snapshots n (hm.declared n hn) entries (List.mem_cons_self ..)
    · exact snapshots n hn s (List.mem_cons_of_mem _ hs)
  | stored consumed o _ room _ =>
    exact fun hm => ⟨hm.declared, Machine.fits_replaced room, hm.snapshots⟩
  | assigned name e _ _ stack h =>
    exact fun hm => ⟨fun n hn => hm.declared n (h.limit.symm.trans hn), h.fits hm.stack,
      hm.snapshots⟩
  | taken stack h => exact fun hm => hm.withStack h.limit (h.fits hm.stack)
  | scratch args _ h ih =>
    intro hm
    have run := ih ⟨by simp, by simp [Stack.Fits], hm.snapshots⟩
    have same := h.confined.stackLimit
    exact ⟨fun n hn => same.trans (hm.declared n hn), hm.stack, run.snapshots⟩
  | inner _ ih | deeper _ ih =>
    intro hm
    have run := ih ⟨hm.declared, hm.stack, hm.snapshots⟩
    exact ⟨run.declared, run.stack, run.snapshots⟩
  | andThen _ _ first second => exact fun hm => second (first hm)

/-! ## 3. Sessions -/

namespace Session

variable {V : Vocabulary} {m n : Session}

/-- One step keeps the stack within the limit, if no snapshot that can come back exceeds the limit
that stands after it. -/
theorem Taken.limited (h : Taken V m n) (rest : m.AtRest) (hm : Machine.Limited V m)
    (fits : V.Undoes → ∀ k, n.settings.stackLimit = some k →
      ∀ s ∈ m.history.snapshots, s.length ≤ k) : Machine.Limited V n := by
  cases h with
  | done h => exact h.limited hm
  | recorded h =>
    have run := h.limited hm
    refine ⟨run.declared, run.stack, fun undoes k hk s hs => ?_⟩
    rcases History.mem_push hs with rfl | hs
    · exact hm.stack k (rest.limit.trans (h.confined.stackLimit.symm.trans hk))
    · exact run.snapshots undoes k hk s hs
  | failed h =>
    have run := h.limited hm
    have same := h.confined.stackLimit
    rw [rest.failed_stack h]
    exact ⟨fun k hk => same.trans (hm.declared k hk), hm.stack, run.snapshots⟩
  | configured settings _ room =>
    exact ⟨fun _ => id, room, fun undoes k hk s hs =>
      fits undoes k hk s (History.mem_withDepth hs)⟩
  | waited clock => exact ⟨hm.declared, hm.stack, hm.snapshots⟩

/-- The limit stands, or it is changed to one that the stack fits. -/
theorem take_limit (s : Step) (m : Session) :
    (m.take s).settings.stackLimit = m.settings.stackLimit ∨
      ∃ f, s = .configure f ∧ m.take s = Machine.configured m (f m.settings) ∧
        ∀ n, (f m.settings).stackLimit = some n → m.stack.size ≤ n := by
  cases s with
  | instruction i =>
    show (runOne i m).2.settings.stackLimit = _ ∨ _
    rcases runOne_cases i m with ⟨n, h, hi⟩ | ⟨e, n, h, hi⟩
    · refine .inl ?_
      rw [hi, ← (course_of_run i.inAll m.inAll h).confined.stackLimit]
      dsimp only
      split <;> rfl
    · rw [hi]
      exact .inl (course_of_run i.inAll m.inAll h).confined.stackLimit
  | undo => exact .inl (Evaluator.along_undo Step.undo.inAll m).course.confined.stackLimit
  | configure f =>
    show (Calc.exec (Calc.changeSettings f) m).2.settings.stackLimit = _ ∨
      ∃ g, _ ∧ (Calc.exec (Calc.changeSettings f) m).2 = _ ∧ _
    rcases Calc.exec_changeSettings f m with ⟨e, h⟩ | ⟨_, room, h⟩
    · exact .inl (by rw [h])
    · exact .inr ⟨f, rfl, congrArg Prod.snd h, room⟩
  | wait clock => exact .inl rfl

theorem limited_start (V : Vocabulary) (settings : Settings) (clock : Int) :
    Machine.Limited V (Machine.start settings clock) where
  declared _ := id
  stack _ _ := Nat.zero_le _
  snapshots _ _ _ := List.forall_mem_nil _

theorem after_append (m : Session) (before steps : List Step) :
    m.after (before ++ steps) = (m.after before).after steps := List.foldl_append

/-- Some step sets a limit that is exceeded by a snapshot in the history. -/
def Lowered (m : Session) (steps : List Step) (n : Nat) : Prop :=
  ∃ before f rest, steps = before ++ .configure f :: rest ∧
    (f (m.after before).settings).stackLimit = some n ∧
    ∃ s ∈ (m.after before).history.snapshots, n < s.length

/-- The stack and all snapshots keep to the limit after any steps, or the limit that stands has been
set while a snapshot exceeded it. -/
theorem limited_or_lowered (settings : Settings) (clock : Int) (steps : List Step) :
    let m := Machine.start settings clock
    Machine.Limited .all (after m steps) ∨
      ∃ n, (after m steps).settings.stackLimit = some n ∧ Lowered m steps n := by
  intro m
  induction steps using List.reverseRecOn with
  | nil => exact .inl (limited_start .all settings clock)
  | append_singleton steps s ih =>
    have rest : (after m steps).AtRest := atRest_after settings clock steps
    have taken := taken_take s.inAll (after m steps).inAll
    rw [after_append]
    show Machine.Limited .all ((after m steps).take s) ∨
      ∃ n, ((after m steps).take s).settings.stackLimit = some n ∧ _
    rcases take_limit s (after m steps) with same | ⟨f, rfl, changed, room⟩
    · rw [same]
      refine ih.imp (fun hm => ?_) ?_
      · exact taken.limited rest hm fun undoes n hn => hm.snapshots undoes n (same.symm.trans hn)
      · rintro ⟨n, hn, before, f, later, rfl, lowered⟩
        exact ⟨n, hn, before, f, later ++ [s], by simp, lowered⟩
    · rw [changed]
      by_cases exceeded : ∃ n, (f (after m steps).settings).stackLimit = some n ∧
          ∃ s ∈ (after m steps).history.snapshots, n < s.length
      · obtain ⟨n, hn, higher⟩ := exceeded
        exact .inr ⟨n, hn, steps, f, [], rfl, hn, higher⟩
      · refine .inl ⟨fun _ => id, room, fun _ n hn s hs => ?_⟩
        have kept := History.mem_withDepth hs
        exact Nat.not_lt.mp fun higher => exceeded ⟨n, hn, s, kept, higher⟩

/-- Where undo is out of reach, no snapshot comes back and the stack keeps to the limit. -/
theorem limited_after (settings : Settings) (clock : Int) (steps : List Step)
    (hs : ∀ s ∈ steps, s.In .withoutUndo) :
    Machine.Limited .withoutUndo (after (Machine.start settings clock) steps) := by
  have run : ∀ (steps : List Step) (m : Session), (∀ s ∈ steps, s.In .withoutUndo) →
      Machine.In .withoutUndo m → m.AtRest → Machine.Limited .withoutUndo m →
      Machine.Limited .withoutUndo (m.after steps) := by
    intro steps
    induction steps with
    | nil => exact fun _ _ _ _ hm => hm
    | cons s steps ih =>
      intro m hs hin rest hm
      obtain ⟨hs, hsteps⟩ := List.forall_mem_cons.mp hs
      have taken := taken_take hs hin
      have known : ∀ e, Vocabulary.withoutUndo.Entry e → Vocabulary.withoutUndo.Entry e :=
        fun _ => id
      refine ih (m.take s) hsteps (taken.holds known ?_ hin) (taken.atRest rest) ?_
      · exact fun _ hv unit style => Vocabulary.entry_store hv unit style
      · exact taken.limited rest hm fun undoes => absurd undoes Vocabulary.not_undoes_withoutUndo
  exact run steps _ hs (Machine.holds_start _ _ settings clock) (atRest_start settings clock)
    (limited_start _ settings clock)

/-- A step that takes the latest snapshot back, or an instruction that mentions undo. -/
def Step.Undoes : Step → Prop
  | .instruction i => ¬ i.Avoids ["undo"]
  | .undo => True
  | _ => False

instance : DecidablePred Step.Undoes
  | .instruction i => inferInstanceAs (Decidable (¬ i.Avoids ["undo"]))
  | .undo => .isTrue trivial
  | .configure _ | .wait _ => .isFalse id

theorem Step.inWithoutUndo {s : Step} (h : ¬ s.Undoes) : s.In .withoutUndo := by
  cases s with
  | instruction i => exact Instruction.Avoids.inVocabulary _ (Decidable.of_not_not h)
  | undo => exact absurd trivial h
  | configure f => trivial
  | wait clock => trivial

/-- The stack has no more entries than the limit allows, whatever the steps, but for one case: the
limit that stands has been set while a snapshot in the history exceeded it, and some step mentions
undo. -/
theorem size_le_limit (settings : Settings) (clock : Int) (steps : List Step) (n : Nat)
    (limited : (after (Machine.start settings clock) steps).settings.stackLimit = some n) :
    (after (Machine.start settings clock) steps).stack.size ≤ n ∨
      Lowered (Machine.start settings clock) steps n ∧ ∃ s ∈ steps, s.Undoes := by
  have limit := (atRest_after settings clock steps).limit.trans limited
  by_cases undoes : ∃ s ∈ steps, s.Undoes
  · rcases limited_or_lowered settings clock steps with hm | ⟨k, hk, lowered⟩
    · exact .inl (hm.stack n limit)
    · cases hk.symm.trans limited
      exact .inr ⟨lowered, undoes⟩
  · have avoided : ∀ s ∈ steps, s.In .withoutUndo := fun s hs =>
      Step.inWithoutUndo fun h => undoes ⟨s, hs, h⟩
    exact .inl ((limited_after settings clock steps avoided).stack n limit)

/-- Two numbers are pushed and dropped, and then the limit is set to one entry. -/
def loweredSteps : List Step :=
  [.instruction (.number (.integer 1) .none), .instruction (.number (.integer 2) .none),
    .instruction (.keyword "clear"), .configure fun s => { s with stackLimit := some 1 }]

/-- Under the new limit, of two more numbers only one is taken. -/
theorem size_le_limit_pushed :
    let steps := loweredSteps ++
      [.instruction (.number (.integer 3) .none), .instruction (.number (.integer 4) .none)]
    let m := after (Machine.start {} 0) steps
    m.settings.stackLimit = some 1 ∧ m.stack.size = 1 ∧ m.stack.size ≤ 1 := by
  intro steps m
  have run : m.settings.stackLimit = some 1 ∧ m.stack.size = 1 ∧ ¬ ∃ s ∈ steps, s.Undoes := by
    decide +kernel
  obtain ⟨limited, size, never⟩ := run
  have kept := size_le_limit {} 0 steps 1 limited
  exact ⟨limited, size, kept.resolve_right fun h => never h.2⟩

/-- Undo brings both numbers back, one more than the limit allows. -/
theorem limit_exceeded :
    let m := after (Machine.start {} 0) (loweredSteps ++ [.undo])
    m.settings.stackLimit = some 1 ∧ m.stack.size = 2 := by
  decide +kernel

end Session
end StackCalc
