import StackCalc.Proofs.Flags
import StackCalc.Proofs.Snapshots

/-! # Undoing runs

Instructions that never mention undo only add to the history: one snapshot for each of them that
records one, up to the depth. An instruction that records none leaves the stack as it is. So the
snapshots of a run are all the stacks that it has gone through, and calls of undo lead back through
them to the stack that the run has started from. -/

namespace StackCalc

namespace Session

/-! ## 1. Calls of undo -/

/-- The session after so many calls of undo. -/
def undone : Nat → Session → Session
  | 0, m => m
  | count + 1, m => (undo (undone count m)).2

variable {m : Session}

theorem undo_of_snapshot {s : List Entry} {rest : List (List Entry)}
    (h : m.history.snapshots = s :: rest) :
    undo m = (.ok (), { m with history := m.history.dropLatest 1 }.withStack
      (m.stack.withEntries s)) := by
  have popped : m.history.pop? = some (s, m.history.dropLatest 1) := by
    simp [History.pop?, History.dropLatest, h]
  show Calc.exec Calc.undo m = _
  rw [Calc.exec_undo, popped]

theorem undo_of_none (h : m.history.snapshots = []) :
    undo m = (.error (.stack .nothingToUndo), m) := by
  have none : m.history.pop? = none := by
    simp [History.pop?, h]
  show Calc.exec Calc.undo m = _
  rw [Calc.exec_undo, none]

/-- Each call takes the latest snapshot off, as long as there is one. -/
theorem history_undone (count : Nat) (m : Session) :
    (undone count m).history = m.history.dropLatest count := by
  induction count with
  | zero => rfl
  | succ count ih =>
    rw [undone, ← History.dropLatest_dropLatest, ← ih]
    cases h : (undone count m).history.snapshots with
    | nil => rw [undo_of_none h, History.dropLatest_of_none h]
    | cons s rest =>
      rw [undo_of_snapshot h]
      rfl

theorem limit_undone (count : Nat) (m : Session) :
    (undone count m).stack.limit = m.stack.limit := by
  induction count with
  | zero => rfl
  | succ count ih =>
    rw [undone, ← ih]
    cases h : (undone count m).history.snapshots with
    | nil => rw [undo_of_none h]
    | cons s rest =>
      rw [undo_of_snapshot h]
      rfl

/-- A call of undo brings the next snapshot back, and the flags of its top entry. -/
theorem undone_of_snapshot {count : Nat} {s : List Entry}
    (h : m.history.snapshots[count]? = some s) :
    (undo (undone count m)).1 = .ok () ∧
      (undone (count + 1) m).stack = m.stack.withEntries s ∧
      (undone (count + 1) m).flags = (undone (count + 1) m).topFlags := by
  have next : (undone count m).history.snapshots = s :: (m.history.snapshots.drop (count + 1)) := by
    rw [history_undone]
    obtain ⟨inside, rfl⟩ := List.getElem?_eq_some_iff.mp h
    exact List.drop_eq_getElem_cons inside
  rw [undone, undo_of_snapshot next]
  refine ⟨rfl, ?_, rfl⟩
  show { entries := s, limit := (undone count m).stack.limit : Stack } = _
  rw [limit_undone]
  rfl

/-- Nothing is left to undo after as many calls as there are snapshots. -/
theorem undo_undone {count : Nat} (h : m.history.size ≤ count) :
    undo (undone count m) = (.error (.stack .nothingToUndo), undone count m) := by
  refine undo_of_none ?_
  rw [history_undone]
  exact List.drop_of_length_le h

/-! ## 2. Instructions that record nothing -/

/-- New settings with the limit of the old ones leave the stack and the flags as they are. -/
theorem AtRest.kept_by_change (rest : m.AtRest) (f : Settings → Settings)
    (same : (f m.settings).stackLimit = m.settings.stackLimit) {n : Session}
    (h : Calc.exec (Calc.changeSettings f) m = (.ok (), n)) :
    n.stack = m.stack ∧ n.flags = m.flags := by
  rcases Calc.exec_changeSettings f m with ⟨e, he⟩ | ⟨_, _, he⟩
  · cases he.symm.trans h
  · cases he.symm.trans h
    refine ⟨?_, rfl⟩
    show { m.stack with limit := (f m.settings).stackLimit } = m.stack
    rw [same, ← rest.limit]

/-- What is run by a name and leaves no snapshot is a change of settings, or undo. -/
theorem kept_of_unrecorded_name (rest : m.AtRest) {name : String}
    (named : StackCalc.Avoids ["undo"] name) {evaluate : Expr → Calc Operand} {n : Session}
    (h : Calc.exec (Evaluator.runName evaluate name) m = (.ok (), n))
    (unrecorded : leavesSnapshot n (.keyword name) = false) :
    n.stack = m.stack ∧ n.flags = m.flags := by
  obtain ⟨unbound, noneRecorded⟩ := Bool.or_eq_false_iff.mp unrecorded
  rw [Evaluator.runName, Calc.exec_get_bind] at h
  obtain ⟨callee, hc, h⟩ := Calc.exec_read_eq_ok (Calc.exec_lift m _) h
  unfold Evaluator.resolveName at hc
  split at hc
  · rename_i e bound
    cases hc
    rcases Calc.exec_pushEntry e m with ⟨fault, he⟩ | ⟨_, he⟩
    · cases he.symm.trans h
    · cases he.symm.trans h
      rw [show (m.pushed e).scopes = m.scopes from rfl, bound] at unbound
      cases unbound
  · split at hc
    · rename_i op found
      cases hc
      obtain ⟨_, _, h⟩ := Calc.exec_read_eq_ok (Calc.exec_requireArgs _ _ m) h
      cases accounted_operations op (Registry.mem_of_find found) with
      | recorded recorded =>
        rw [found, Option.any_some, recorded] at noneRecorded
        cases noneRecorded
      | undo isUndo =>
        rw [isUndo] at found
        exact absurd (List.mem_singleton.mpr (Registry.lower_of_undo found)) named
      | restyled f ha =>
        rw [ha] at h
        exact rest.kept_by_change (fun s => { s with style := f s.style }) rfl h
      | remoded f ha =>
        rw [ha] at h
        exact rest.kept_by_change (fun s => { s with modes := f s.modes }) rfl h
    · cases hc

/-- An instruction that records no snapshot leaves the stack and the flags as they are. -/
theorem kept_of_unrecorded (rest : m.AtRest) {i : Instruction} (hi : i.Avoids ["undo"])
    (hr : records i m = false) :
    (runOne i m).2.stack = m.stack ∧ (runOne i m).2.flags = m.flags := by
  rcases records_cases i m with ⟨n, _, recorded, _⟩ | ⟨n, h, _, leaves, hrun⟩ | ⟨e, n, h, _, hrun⟩
  · cases recorded.symm.trans hr
  · rw [hrun]
    unfold Evaluator.runInstruction at h
    cases i with
    | noop =>
      cases h
      exact ⟨rfl, rfl⟩
    | keyword name =>
      have named := hi name (List.mem_singleton.mpr rfl)
      exact kept_of_unrecorded_name rest named h leaves
    | _ => cases leaves
  · rw [hrun]
    exact ⟨rest.failed_stack (course_of_run i.inAll m.inAll h), rfl⟩

/-! ## 3. Runs without undo -/

/-- A session at rest that nothing in it can call undo from. -/
structure UndoFree (m : Session) : Prop where
  rest : m.AtRest
  within : Machine.In .withoutUndo m

theorem undoFree_start (settings : Settings) (clock : Int) :
    UndoFree (Machine.start settings clock) :=
  ⟨atRest_start settings clock, Machine.holds_start _ _ settings clock⟩

theorem UndoFree.runOne {i : Instruction} (hm : m.UndoFree) (hi : i.Avoids ["undo"]) :
    UndoFree (runOne i m).2 := by
  have taken := taken_take (s := .instruction i) (hi.inVocabulary (by decide)) hm.within
  exact ⟨taken.atRest hm.rest,
    taken.holds (fun _ => id) (fun _ => Vocabulary.entry_store) hm.within⟩

/-- The history is extended by the snapshot that an instruction records, and by nothing else. -/
theorem UndoFree.history {i : Instruction} (hm : m.UndoFree) (hi : i.Avoids ["undo"]) :
    (Session.runOne i m).2.history = m.history.pushAll (snapshots i m) := by
  obtain ⟨lost, never, h⟩ := history_runOne hm.rest (hi.inVocabulary (by decide)) hm.within
  rwa [never Vocabulary.not_undoes_withoutUndo, History.dropLatest_zero] at h

theorem confined_runOne (i : Instruction) (m : Session) : m.Confined (runOne i m).2 := by
  rcases runOne_cases i m with ⟨n, h, hrun⟩ | ⟨e, n, h, hrun⟩
  · have confined := (course_of_run i.inAll m.inAll h).confined
    rw [hrun]
    dsimp only
    split
    · exact confined.trans (.of_eq rfl rfl rfl rfl)
    · exact confined
  · rw [hrun]
    exact (course_of_run i.inAll m.inAll h).confined.trans (.of_eq rfl rfl rfl rfl)

/-- The stacks before the instructions of a run that record snapshots, the latest first. -/
def past : List Instruction → Session → List (List Entry)
  | [], _ => []
  | i :: is, m => past is (runOne i m).2 ++ snapshots i m

/-- A run extends the history by its past. -/
theorem UndoFree.run {is : List Instruction} (his : ∀ i ∈ is, i.Avoids ["undo"])
    (hm : m.UndoFree) : UndoFree (run is m).2 ∧ m.Confined (Session.run is m).2 ∧
      (Session.run is m).2.history = m.history.pushAll (past is m) := by
  induction is generalizing m with
  | nil => exact ⟨hm, .of_eq rfl rfl rfl rfl, hm.rest.history.pushAll_nil.symm⟩
  | cons i is ih =>
    obtain ⟨hi, his⟩ := List.forall_mem_cons.mp his
    obtain ⟨free, confined, history⟩ := ih his (hm.runOne hi)
    rw [run_cons_snd, past]
    refine ⟨free, (confined_runOne i m).trans confined, ?_⟩
    rw [history, hm.history hi, History.pushAll_pushAll]

/-- A run without a past leaves the stack and the flags as they are. The past of any other run
starts with the stack that it has started from. -/
theorem UndoFree.past_start {is : List Instruction} (his : ∀ i ∈ is, i.Avoids ["undo"])
    (hm : m.UndoFree) :
    past is m = [] ∧ (Session.run is m).2.stack = m.stack ∧
        (Session.run is m).2.flags = m.flags ∨
      (past is m).getLast? = some m.stack.entries := by
  induction is generalizing m with
  | nil => exact .inl ⟨rfl, rfl, rfl⟩
  | cons i is ih =>
    obtain ⟨hi, his⟩ := List.forall_mem_cons.mp his
    rw [run_cons_snd, past, snapshots]
    split
    · exact .inr List.getLast?_concat
    · rename_i none
      obtain ⟨stack, flags⟩ := kept_of_unrecorded hm.rest hi (Bool.eq_false_iff.mpr none)
      have later := ih his (hm.runOne hi)
      rw [stack, flags] at later
      rwa [List.append_nil]

/-- What a run has recorded is in the history, as far as the depth allows. -/
theorem UndoFree.snapshot {is : List Instruction} (his : ∀ i ∈ is, i.Avoids ["undo"])
    (hm : m.UndoFree) {j : Nat} {s : List Entry} (h : (past is m)[j]? = some s)
    (fits : m.settings.undoDepth = 0 ∨ j < m.settings.undoDepth) :
    (Session.run is m).2.history.snapshots[j]? = some s := by
  have recorded : j < (past is m).length := (List.getElem?_eq_some_iff.mp h).1
  have history := (hm.run his).2.2
  rw [← hm.rest.history.declared] at fits
  rw [history, History.getElem?_pushAll recorded fits, h]

/-- As many calls of undo as a run has recorded snapshots lead back to where it has started. -/
theorem UndoFree.undone_past {is : List Instruction} (his : ∀ i ∈ is, i.Avoids ["undo"])
    (hm : m.UndoFree)
    (fits : m.settings.undoDepth = 0 ∨ (past is m).length ≤ m.settings.undoDepth) :
    (undone (past is m).length (Session.run is m).2).stack = m.stack := by
  rcases hm.past_start his with ⟨none, stack, _⟩ | last
  · rw [none]
    exact stack
  · obtain ⟨earlier, split⟩ := List.getLast?_eq_some_iff.mp last
    have length : (past is m).length = earlier.length + 1 := by
      rw [split, List.length_append, List.length_singleton]
    have first : (past is m)[earlier.length]? = some m.stack.entries := by
      rw [split, List.getElem?_concat_length]
    have within : m.settings.undoDepth = 0 ∨ earlier.length < m.settings.undoDepth :=
      fits.imp_right fun le => by omega
    obtain ⟨_, stack, _⟩ := undone_of_snapshot (hm.snapshot his first within)
    have limit := (hm.run his).2.1.limit hm.rest.limit
    rw [length, stack, Stack.withEntries, limit]

/-- Instructions `p` are run on a new session and then instructions `q`, and undo is mentioned in
none of them. Calls of undo then bring back one by one the stacks that `q` has recorded, as far as
the depth of the history allows, and the call after that fails and changes nothing. If the depth
allows all of them, the last one is the stack after `p`. The flags are those of the top entry after
every call; without a call they are as they were. -/
theorem undo_run (settings : Settings) (clock : Int) (p q : List Instruction)
    (unnamed : ∀ i ∈ p ++ q, i.Avoids ["undo"]) :
    let a := (run p (Machine.start settings clock)).2
    let b := (run q a).2
    let recorded := past q a
    let depth := settings.undoDepth
    (∀ j < recorded.length, depth = 0 ∨ j < depth →
      (undo (undone j b)).1 = .ok () ∧ recorded[j]? = some (undone (j + 1) b).stack.entries ∧
        (undone (j + 1) b).flags = (undone (j + 1) b).topFlags) ∧
    (depth = 0 ∨ recorded.length ≤ depth →
      (undone recorded.length b).stack = a.stack ∧
        (recorded.length = 0 → b.flags = a.flags)) ∧
    (0 < depth → depth < recorded.length →
      undo (undone depth b) = (.error (.stack .nothingToUndo), undone depth b)) := by
  intro a b recorded depth
  obtain ⟨hp, hq⟩ := List.forall_mem_append.mp unnamed
  obtain ⟨free, confined, _⟩ := (undoFree_start settings clock).run hp
  obtain ⟨freeAfter, confinedAfter, _⟩ := free.run hq
  have depthBefore : a.settings.undoDepth = depth := confined.undoDepth
  have depthAfter : b.settings.undoDepth = depth := confinedAfter.undoDepth.trans depthBefore
  refine ⟨fun j hj fits => ?_, fun fits => ⟨?_, fun none => ?_⟩, fun limited longer => ?_⟩
  · have h : recorded[j]? = some recorded[j] := List.getElem?_eq_getElem hj
    rw [← depthBefore] at fits
    obtain ⟨ok, stack, flags⟩ := undone_of_snapshot (free.snapshot hq h fits)
    refine ⟨ok, ?_, flags⟩
    rw [stack, h]
    rfl
  · rw [← depthBefore] at fits
    exact free.undone_past hq fits
  · rcases free.past_start hq with ⟨_, _, flags⟩ | last
    · exact flags
    · have empty : past q a = [] := List.eq_nil_of_length_eq_zero none
      rw [empty] at last
      cases last
  · refine undo_undone ?_
    have bounded := freeAfter.rest.history.size
    rw [depthAfter] at bounded
    exact bounded.resolve_left (Nat.ne_of_gt limited)

/-- A number is pushed, to run other instructions after it. -/
def onePushed : List Instruction := [.number (.integer 1) .none]

/-- Five instructions, of which one fails and one switches a mode. -/
def threeRecorded : List Instruction :=
  [.number (.integer 2) .none, .keyword "+", .keyword "frobnicate", .keyword "hex", .keyword "neg"]

/-- Of three stacks that are recorded, a history of two snapshots brings two back. -/
theorem undo_run_bounded :
    let a := (run onePushed (Machine.start { undoDepth := 2 } 0)).2
    let b := (run threeRecorded a).2
    (∀ i ∈ onePushed ++ threeRecorded, i.Avoids ["undo"]) ∧ (past threeRecorded a).length = 3 ∧
      (undo b).1 = .ok () ∧ (undo (undone 1 b)).1 = .ok () ∧
      undo (undone 2 b) = (.error (.stack .nothingToUndo), undone 2 b) := by
  intro a b
  have unnamed : ∀ i ∈ onePushed ++ threeRecorded, i.Avoids ["undo"] := by decide +kernel
  have length : (past threeRecorded a).length = 3 := by decide +kernel
  have within {j : Nat} (hj : j < 3) : j < (past threeRecorded a).length := length ▸ hj
  obtain ⟨calls, _, exhausted⟩ := undo_run { undoDepth := 2 } 0 onePushed threeRecorded unnamed
  exact ⟨unnamed, length, (calls 0 (within (by decide)) (.inr (by decide))).1,
    (calls 1 (within (by decide)) (.inr (by decide))).1, exhausted (by decide) (within (by decide))⟩

/-- Where nothing is recorded and no call of undo is made, the flags need not be those of the top
entry, as a call by name leaves them. -/
theorem undone_stale :
    let a := (run switchCalled (Machine.start {} 0)).2
    let b := (run [] a).2
    (∀ i ∈ switchCalled ++ [], i.Avoids ["undo"]) ∧ (past [] a).length = 0 ∧
      (undone 0 b).flags ≠ (undone 0 b).topFlags := by
  decide +kernel

end Session
end StackCalc
