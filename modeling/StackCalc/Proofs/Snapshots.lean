import StackCalc.Proofs.Confined

/-! # Snapshots

The history of a session after an instruction: what the instruction itself records, on top of what
was there before. A failure rolls back the stack and the flags but not the history, and undo can be
called from inside an instruction, so the latest snapshots can be lost. They are kept as long as
nothing that the instruction can come across mentions undo. -/

namespace StackCalc

/-! ## 1. Histories -/

namespace History

/-- The history with more snapshots, the latest first, as far as the depth allows. -/
def pushAll (recent : List (List Entry)) (h : History) : History :=
  truncate { h with snapshots := recent ++ h.snapshots }

variable {h : History} {depth : Nat}

theorem Bounded.pushAll_nil (hb : h.Bounded depth) : h.pushAll [] = h := by
  have same := hb.withDepth_eq
  cases hb.declared
  exact same

theorem pushAll_unlimited (unlimited : h.depth = 0) (recent : List (List Entry)) :
    h.pushAll recent = { h with snapshots := recent ++ h.snapshots } :=
  if_pos unlimited

/-- What is left out of a history is never missed later. -/
theorem pushAll_pushAll (recent earlier : List (List Entry)) :
    (h.pushAll earlier).pushAll recent = h.pushAll (recent ++ earlier) := by
  unfold pushAll truncate
  by_cases unlimited : h.depth = 0
  · simp [unlimited]
  · have room : min (h.depth - recent.length - min h.depth earlier.length) h.snapshots.length =
        min (h.depth - recent.length - earlier.length) h.snapshots.length := by
      omega
    simpa [unlimited, List.take_append, List.take_take] using room

/-- The latest snapshots are those pushed last, as far as the depth allows. -/
theorem getElem?_pushAll {recent : List (List Entry)} {j : Nat} (hj : j < recent.length)
    (fits : h.depth = 0 ∨ j < h.depth) : (h.pushAll recent).snapshots[j]? = recent[j]? := by
  unfold pushAll truncate
  split
  · exact List.getElem?_append_left hj
  · rename_i limited
    have fits := fits.resolve_left limited
    rw [List.getElem?_take_of_lt fits, List.getElem?_append_left hj]

end History

/-! ## 2. Where undo is out of reach -/

/-- An entry whose value mentions none of the given names. -/
def Entry.Avoids (lower : List String) (e : Entry) : Prop :=
  ∀ name ∈ e.value.names, StackCalc.Avoids lower name

instance (lower : List String) (e : Entry) : Decidable (e.Avoids lower) :=
  inferInstanceAs (Decidable (∀ _ ∈ _, _))

/-- No entry on the stack or under a variable mentions any of the given names. -/
def Machine.Avoids (lower : List String) (m : Machine) : Prop :=
  (∀ e ∈ m.stack.entries, e.Avoids lower) ∧ m.scopes.All (Entry.Avoids lower)

instance (lower : List String) (m : Machine) : Decidable (m.Avoids lower) :=
  inferInstanceAs (Decidable (_ ∧ _))

namespace Vocabulary

/-- The vocabulary without undo. -/
abbrev withoutUndo : Vocabulary := .without ["undo"] (by decide)

theorem not_undoes_withoutUndo : ¬ withoutUndo.Undoes := by
  rintro ⟨name, avoids, found⟩
  exact avoids (List.mem_singleton.mpr (Registry.lower_of_undo found))

end Vocabulary

theorem Machine.Avoids.inWithoutUndo {m : Machine} (h : m.Avoids ["undo"]) :
    m.In .withoutUndo where
  stack := h.1
  scopes := h.2
  snapshots undoes := absurd undoes Vocabulary.not_undoes_withoutUndo

namespace Session

variable {V : Vocabulary} {i : Instruction} {m : Session}

/-! ## 3. What an instruction records -/

/-- Whether an instruction succeeds and leaves a snapshot. -/
def records (i : Instruction) (m : Session) : Bool :=
  (runOne i m).1.isOk && leavesSnapshot (runOne i m).2 i

/-- The snapshot of an instruction, if it records one. -/
def snapshots (i : Instruction) (m : Session) : List (List Entry) :=
  if records i m then [m.stack.entries] else []

/-- Whether a snapshot is left depends on the names in scope only. -/
theorem leavesSnapshot_congr {m n : Session} (h : m.scopes = n.scopes) (i : Instruction) :
    leavesSnapshot m i = leavesSnapshot n i := by
  cases i with
  | keyword name => simp only [leavesSnapshot, h]
  | _ => rfl

/-- An instruction records a snapshot, or succeeds without one, or fails without one. -/
theorem records_cases (i : Instruction) (m : Session) :
    (∃ n, Calc.exec (Evaluator.runInstruction (Evaluator.levelsLeft m) i) m = (.ok (), n) ∧
      records i m = true ∧
      runOne i m = (.ok (), { n with history := n.history.push m.stack.entries })) ∨
    (∃ n, Calc.exec (Evaluator.runInstruction (Evaluator.levelsLeft m) i) m = (.ok (), n) ∧
      records i m = false ∧ leavesSnapshot n i = false ∧ runOne i m = (.ok (), n)) ∨
    ∃ e n, Calc.exec (Evaluator.runInstruction (Evaluator.levelsLeft m) i) m = (.error e, n) ∧
      records i m = false ∧ runOne i m =
        (.error e, { n with stack := n.stack.withEntries m.stack.entries, flags := m.flags }) := by
  unfold records
  rcases runOne_cases i m with ⟨n, h, hi⟩ | ⟨e, n, h, hi⟩
  · cases leaves : leavesSnapshot n i with
    | true =>
      rw [leaves, if_pos rfl] at hi
      have same := leavesSnapshot_congr
        (m := { n with history := n.history.push m.stack.entries }) (n := n) rfl i
      exact .inl ⟨n, h, by rw [hi, same, leaves]; rfl, hi⟩
    | false =>
      rw [leaves, if_neg Bool.false_ne_true] at hi
      exact .inr (.inl ⟨n, h, by rw [hi, leaves]; rfl, leaves, hi⟩)
  · exact .inr (.inr ⟨e, n, h, by rw [hi]; rfl, hi⟩)

/-- The history after an instruction: the snapshot that it records, on what it has not lost. -/
theorem history_runOne (rest : m.AtRest) (hi : i.In V) (hm : m.In V) :
    ∃ lost, (¬ V.Undoes → lost = 0) ∧
      (runOne i m).2.history = (m.history.dropLatest lost).pushAll (snapshots i m) := by
  unfold snapshots
  rcases records_cases i m with ⟨n, h, hr, hrun⟩ | ⟨n, h, hr, _, hrun⟩ | ⟨e, n, h, hr, hrun⟩
  all_goals
    obtain ⟨lost, hn, never⟩ := (course_of_run hi hm h).history rest.history
    refine ⟨lost, never, ?_⟩
    have bounded := rest.history.dropLatest lost
    rw [hrun, hr, ← hn]
    rw [← hn] at bounded
  · rfl
  · exact bounded.pushAll_nil.symm
  · exact bounded.pushAll_nil.symm

/-- Where the history is not bounded, an instruction puts the snapshot that it records on top of
it, and takes away at most some of the latest snapshots. It takes none away if neither it nor the
stack nor a variable mentions undo. -/
theorem snapshots_runOne (settings : Settings) (clock : Int) (steps : List Step) (i : Instruction)
    (unlimited : (after (Machine.start settings clock) steps).settings.undoDepth = 0) :
    let m := after (Machine.start settings clock) steps
    ∃ lost, (runOne i m).2.history = { m.history with
        snapshots := snapshots i m ++ m.history.snapshots.drop lost } ∧
      (i.Avoids ["undo"] → m.Avoids ["undo"] → lost = 0) := by
  intro m
  have rest : m.AtRest := atRest_after settings clock steps
  have depth : m.history.depth = 0 := rest.history.declared.trans unlimited
  have whole (lost : Nat) : (m.history.dropLatest lost).pushAll (snapshots i m) =
      { m.history with snapshots := snapshots i m ++ m.history.snapshots.drop lost } :=
    History.pushAll_unlimited (h := m.history.dropLatest lost) depth (snapshots i m)
  by_cases avoids : i.Avoids ["undo"] ∧ m.Avoids ["undo"]
  · obtain ⟨lost, never, h⟩ :=
      history_runOne rest (avoids.1.inVocabulary (by decide)) avoids.2.inWithoutUndo
    exact ⟨lost, h.trans (whole lost), fun _ _ => never Vocabulary.not_undoes_withoutUndo⟩
  · obtain ⟨lost, _, h⟩ := history_runOne rest i.inAll m.inAll
    exact ⟨lost, h.trans (whole lost), fun hi hm => absurd ⟨hi, hm⟩ avoids⟩

/-- Two numbers are pushed. -/
def twoPushed : List Step :=
  [.instruction (.number (.integer 1) .none), .instruction (.number (.integer 2) .none)]

/-- Adding the numbers leaves the stack before it on top of the history. -/
theorem snapshots_runOne_sum :
    let m := after (Machine.start { undoDepth := 0 } 0) twoPushed
    m.settings.undoDepth = 0 ∧ (runOne (.keyword "+") m).2.history = { m.history with
      snapshots := m.stack.entries :: m.history.snapshots } := by
  intro m
  have unlimited : m.settings.undoDepth = 0 := by decide +kernel
  obtain ⟨lost, h, kept⟩ := snapshots_runOne { undoDepth := 0 } 0 twoPushed (.keyword "+") unlimited
  have none : lost = 0 := kept (by decide +kernel) (by decide +kernel)
  have recorded : records (.keyword "+") m = true := by decide +kernel
  refine ⟨unlimited, ?_⟩
  rw [h, none, snapshots, if_pos recorded]
  rfl

/-- Undo in a program, which fails after it. -/
def undoThenFail : Instruction := .program [.keyword "undo", .keyword "frobnicate"]

/-- A failure can lose the latest snapshot: the stack is as before, but undo does not lead to the
stack before the second number. -/
theorem snapshot_lost :
    let m := after (Machine.start { undoDepth := 0 } 0) twoPushed
    let n := (runOne undoThenFail m).2
    m.settings.undoDepth = 0 ∧ (runOne undoThenFail m).1.isOk = false ∧ n.stack.size = 2 ∧
      n.history ≠ m.history ∧
      (Session.undo m).2.stack.size = 1 ∧ (Session.undo n).2.stack.size = 0 := by
  intro m n
  have run : m.settings.undoDepth = 0 ∧ (runOne undoThenFail m).1.isOk = false ∧ n.stack.size = 2 ∧
      (m.history.size = 2 ∧ n.history.size = 1) ∧
      (Session.undo m).2.stack.size = 1 ∧ (Session.undo n).2.stack.size = 0 := by
    decide +kernel
  obtain ⟨unlimited, failed, kept, ⟨before, later⟩, undone⟩ := run
  refine ⟨unlimited, failed, kept, fun same => ?_, undone⟩
  rw [same, before] at later
  cases later

end Session
end StackCalc
