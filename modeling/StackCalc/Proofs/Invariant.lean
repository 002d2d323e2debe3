import StackCalc.Proofs.Evaluator
import StackCalc.Proofs.Sound

/-! # The invariant of sessions

Every entry that a session comes to hold is sound, whatever instructions are run in whatever order,
whether they fail or not, and whatever snapshots and settings are changed between them. -/

namespace StackCalc

/-! ## 1. What instructions are made of -/

mutual

/-- Values that are built from scalars, matrices and times by making lists, reducing, and using them
as constants of expressions. -/
inductive Value.Constructed : Value → Prop
  | scalar (x : Scalar) : (Value.scalar x).Constructed
  | matrix (m : Matrix) : (Value.matrix m).Constructed
  | time (t : Time) : (Value.time t).Constructed
  | ofItems {digits : Nat} {items : List Value} {v : Value} (h : ∀ w ∈ items, w.Constructed)
      (hv : Value.ofItems digits items = .ok v) : v.Constructed
  | reduced {v : Value} (h : v.Constructed) : v.reduce.Constructed
  | symbolic {e : Expr} (h : e.Constructed) : (Value.symbolic e).Constructed

/-- Expressions over constants that are built so. -/
inductive Expr.Constructed : Expr → Prop
  | var (name : String) : (Expr.var name).Constructed
  | const {v : Value} (h : v.Constructed) : (Expr.const v).Constructed
  | apply (name : String) {args : List Expr} (h : ∀ e ∈ args, e.Constructed) :
      (Expr.apply name args).Constructed

end

/-- Instructions whose literals are built so, programs of any nesting among them. -/
inductive Instruction.Constructed : Instruction → Prop
  | noop : noop.Constructed
  | truth (b : Bool) : (truth b).Constructed
  | number {v : Value} (h : v.Constructed) (unit : UnitProduct) : (number v unit).Constructed
  | list {items : List Value} (h : ∀ v ∈ items, v.Constructed) : (list items).Constructed
  | matrix (rows : List (List Value)) : (matrix rows).Constructed
  | time (t : Time) : (time t).Constructed
  | reference (name : String) : (reference name).Constructed
  | symbolic {e : Expr} (h : e.Constructed) : (symbolic e).Constructed
  | keyword (name : String) : (keyword name).Constructed
  | program {body : List Instruction} (h : ∀ i ∈ body, i.Constructed) : (program body).Constructed

mutual

theorem Value.Constructed.canonical : ∀ {v : Value}, v.Constructed → v.Canonical
  | _, .scalar x => Value.canonical_scalar x
  | _, .matrix m => Value.canonical_matrix m
  | _, .time t => Value.canonical_time t
  | _, .ofItems h hv => Value.canonical_ofItems (fun w hw => (h w hw).canonical) _ hv
  | _, .reduced h => Value.canonical_reduce _ h.canonical
  | _, .symbolic h => Value.canonical_symbolic.mpr h.canonical

theorem Expr.Constructed.canonical : ∀ {e : Expr}, e.Constructed → e.Canonical
  | _, .var _ => by simp [Expr.Canonical]
  | _, .const h => by simpa [Expr.Canonical] using h.canonical
  | _, .apply _ h => by
    rw [Expr.Canonical, canonicalArgs_iff]
    exact fun e he => (h e he).canonical

end

/-- An instruction that is built so is one of every vocabulary with all names and all values that
are built so. -/
theorem Instruction.Constructed.inside {V : Vocabulary} (names : ∀ name, V.names name)
    (values : ∀ {v : Value}, v.Constructed → V.values v) {i : Instruction} (h : i.Constructed) :
    i.In V := by
  induction h with
  | noop => exact .noop
  | truth b => exact .truth b
  | number h unit => exact .number (values h) unit
  | list h => exact .list fun v hv => values (h v hv)
  | matrix rows => exact .matrix rows
  | time t => exact .time t
  | reference name => exact .reference (names name)
  | symbolic h => exact .symbolic (values (.symbolic h))
  | keyword name => exact .keyword (names name)
  | program _ ih => exact .program ih

/-- An instruction that is built so has canonical values. -/
theorem Instruction.Constructed.canonical {i : Instruction} (h : i.Constructed) : i.In .canonical :=
  h.inside (fun _ => trivial) Value.Constructed.canonical

/-! ## 2. Sessions -/

namespace Session

/-- What can happen to a session: an instruction is run, the latest snapshot is taken back, the
settings are changed, or time goes on. -/
inductive Step where
  | instruction (i : Instruction)
  | undo
  | configure (f : Settings → Settings)
  | wait (clock : Int)

/-- A step whose instruction, if it is one, is built from values as they can be built. -/
def Step.Constructed : Step → Prop
  | .instruction i => i.Constructed
  | _ => True

/-- The session after a step, whether the step fails or not. -/
def take (m : Session) : Step → Session
  | .instruction i => (runOne i m).2
  | .undo => (Session.undo m).2
  | .configure f => (changeSettings f m).2
  | .wait clock => { m with clock }

/-- The session after some steps. -/
def after (m : Session) (steps : List Step) : Session := steps.foldl take m

/-- A step that names and values of a vocabulary come up in. -/
def Step.In (V : Vocabulary) : Step → Prop
  | .instruction i => i.In V
  | .undo => V.Undoes
  | _ => True

theorem Step.Constructed.inside {V : Vocabulary} (names : ∀ name, V.names name)
    (values : ∀ {v : Value}, v.Constructed → V.values v) {s : Step} (h : s.Constructed) :
    s.In V := by
  cases s with
  | instruction i => exact Instruction.Constructed.inside names values h
  | undo => exact Vocabulary.undoes_of_name (names _)
  | configure f => trivial
  | wait clock => trivial

theorem Step.Constructed.canonical {s : Step} (h : s.Constructed) : s.In .canonical :=
  h.inside (fun _ => trivial) Value.Constructed.canonical

/-- An instruction that succeeds leaves its state, with a snapshot where it leaves one. One that
fails leaves its state as well, but for the stack and the flags. -/
theorem runOne_cases (i : Instruction) (m : Session) :
    (∃ n, Calc.exec (Evaluator.runInstruction (Evaluator.levelsLeft m) i) m = (.ok (), n) ∧
      runOne i m = (.ok (),
        if leavesSnapshot n i then { n with history := n.history.push m.stack.entries } else n)) ∨
    ∃ e n, Calc.exec (Evaluator.runInstruction (Evaluator.levelsLeft m) i) m = (.error e, n) ∧
      runOne i m =
        (.error e, { n with stack := n.stack.withEntries m.stack.entries, flags := m.flags }) := by
  unfold runOne Calc.exec
  cases h : (Evaluator.runInstruction (Evaluator.levelsLeft m) i).run.run m with
  | mk r n =>
    cases r with
    | ok _ => exact .inl ⟨n, rfl, rfl⟩
    | error e => exact .inr ⟨e, n, rfl, rfl⟩

/-- An instruction of a vocabulary has a course at top level. -/
theorem course_of_run {V : Vocabulary} {i : Instruction} (hi : i.In V) {m : Session} (hm : m.In V)
    {r : Except Error Unit} {n : Session}
    (h : Calc.exec (Evaluator.runInstruction (Evaluator.levelsLeft m) i) m = (r, n)) :
    Course V m n := by
  have course := (Evaluator.within_runInstruction (Evaluator.levelsLeft m) i hi m hm).course
  rwa [h] at course

/-- How a session may change in one step. -/
inductive Taken (V : Vocabulary) (m : Session) : Session → Prop
  /-- An instruction succeeds without a snapshot, or the latest snapshot is taken back. -/
  | done {n : Session} (h : Course V m n) : Taken V m n
  | recorded {n : Session} (h : Course V m n) :
      Taken V m { n with history := n.history.push m.stack.entries }
  | failed {n : Session} (h : Course V m n) :
      Taken V m { n with stack := n.stack.withEntries m.stack.entries, flags := m.flags }
  | configured (settings : Settings) (valid : settings.Valid)
      (room : ∀ n, settings.stackLimit = some n → m.stack.size ≤ n) :
      Taken V m (m.configured settings)
  | waited (clock : Int) : Taken V m { m with clock }

theorem taken_take {V : Vocabulary} {s : Step} (hs : s.In V) {m : Session} (hm : m.In V) :
    Taken V m (m.take s) := by
  cases s with
  | instruction i =>
    show Taken V m (runOne i m).2
    rcases runOne_cases i m with ⟨n, h, hi⟩ | ⟨e, n, h, hi⟩
    · rw [hi]
      dsimp only
      split
      · exact .recorded (course_of_run hs hm h)
      · exact .done (course_of_run hs hm h)
    · rw [hi]
      exact .failed (course_of_run hs hm h)
  | undo => exact .done (Evaluator.along_undo hs m).course
  | configure f =>
    show Taken V m (Calc.exec (Calc.changeSettings f) m).2
    rcases Calc.exec_changeSettings f m with ⟨e, h⟩ | ⟨valid, room, h⟩
    · rw [h]
      exact .done (.idle m)
    · rw [h]
      exact .configured (f m.settings) valid room
  | wait clock => exact .waited clock

section
variable {V : Vocabulary} {E : Entry → Prop} {m n : Session} (known : ∀ e, E e → V.Entry e)
  (storing : ∀ v, V.values v → ∀ unit style, E (.store v unit style))

include known storing

theorem Taken.holds (h : Taken V m n) (hm : m.Holds V E) : n.Holds V E := by
  cases h with
  | done h => exact h.holds known storing hm
  | recorded h =>
    have hn := h.holds known storing hm
    refine ⟨hn.stack, hn.scopes, fun undoes s hs => ?_⟩
    rcases History.mem_push hs with rfl | hs
    · exact hm.stack
    · exact hn.snapshots undoes s hs
  -- A failure brings the stack back, but not the variables that it has bound by then.
  | failed h =>
    have hn := h.holds known storing hm
    exact ⟨hm.stack, hn.scopes, hn.snapshots⟩
  | configured settings _ _ =>
    exact ⟨hm.stack, hm.scopes, fun undoes s hs =>
      hm.snapshots undoes s (History.mem_withDepth hs)⟩
  | waited clock => exact ⟨hm.stack, hm.scopes, hm.snapshots⟩

/-- What holds of all entries, and of every entry that a value of the vocabulary is stored in,
holds of all entries after any steps. -/
theorem holds_after {steps : List Step} (hs : ∀ s ∈ steps, s.In V) (hm : m.Holds V E) :
    (m.after steps).Holds V E := by
  induction steps generalizing m with
  | nil => exact hm
  | cons s steps ih =>
    obtain ⟨hs, hsteps⟩ := List.forall_mem_cons.mp hs
    exact ih hsteps ((taken_take hs (hm.mono known)).holds known storing hm)

end

theorem sound_after {steps : List Step} (hs : ∀ s ∈ steps, s.Constructed) {m : Session}
    (hm : m.Sound) : (m.after steps).Sound :=
  holds_after (fun _ => Entry.Sound.canonical) (fun _ => Entry.store_sound)
    (fun s h => (hs s h).canonical) hm

/-- The entries that a session holds: on the stack, under a name in a frame, or in a snapshot. -/
inductive Holds (m : Session) (e : Entry) : Prop
  | stack (h : e ∈ m.stack.entries)
  | variable (f : Frame) (hf : f ∈ m.scopes.frames) (name : String) (h : (name, e) ∈ f.bindings)
  | snapshot (s : List Entry) (hs : s ∈ m.history.snapshots) (h : e ∈ s)

/-- Every entry that a session holds after any steps is sound. -/
theorem sound_of_holds (settings : Settings) (clock : Int) (steps : List Step)
    (hs : ∀ s ∈ steps, s.Constructed) (e : Entry)
    (he : Holds (after (Machine.start settings clock) steps) e) : e.Sound := by
  have sound := sound_after hs (Machine.sound_start settings clock)
  cases he with
  | stack h => exact sound.stack e h
  | «variable» f hf name h => exact sound.scopes f hf (name, e) h
  | snapshot s hs h => exact sound.history s hs e h

/-- In words of eight bits, a program pushes 200 and the name `x` takes it over. -/
def wrappedSteps : List Step :=
  [.configure fun s => { s with style := { s.style with wordBits := 8 } },
    .instruction (.program [.number (.integer 200) .none]),
    .instruction (.symbolic (.var "x")), .instruction (.keyword "sto")]

/-- The entry of a variable is sound after steps that wrap its value. -/
theorem sound_of_holds_wrapped : (∀ s ∈ wrappedSteps, s.Constructed) ∧
    ∃ e, Holds (after (Machine.start {} 0) wrappedSteps) e ∧ e.value.toRat? = some (-56) ∧
      e.Sound := by
  have constructed : ∀ s ∈ wrappedSteps, s.Constructed := by
    simp only [wrappedSteps, List.forall_mem_cons]
    exact ⟨trivial, .program (List.forall_mem_singleton.mpr (.number (.scalar _) _)),
      .symbolic (.var "x"), .keyword "sto", List.forall_mem_nil _⟩
  have bound : (after (Machine.start {} 0) wrappedSteps).scopes.globals.bindings.map
      (fun b => b.2.value.toRat?) = [some (-56)] := by
    decide +kernel
  obtain ⟨b, hb, hv⟩ := List.mem_map.mp (bound ▸ List.mem_singleton_self _)
  have held : Holds (after (Machine.start {} 0) wrappedSteps) b.2 :=
    .variable _ (by simp [Scopes.frames]) b.1 hb
  exact ⟨constructed, b.2, held, hv, sound_of_holds {} 0 wrappedSteps constructed b.2 held⟩

end Session
end StackCalc
