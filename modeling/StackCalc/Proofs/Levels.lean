import Mathlib.Data.List.Perm.Basic
import Mathlib.Data.List.Rotate
import StackCalc.Proofs.Views

/-! # Levels

A level on top of the stack says which of the entries below it is copied or moved to the top. Moving
an entry up from one level turns the entries down to that level around by one place, so that as many
moves as the level says bring them all back. -/

namespace StackCalc

open Calc Evaluator

/-! ## 1. Entries at a level -/

namespace Stack

variable {s : Stack} {n : Nat} {e : Entry}

theorem level?_eq_some (positive : 0 < n) (h : s.entries[n - 1]? = some e) :
    s.level? n = some e := by
  rw [level?, if_neg positive.ne', h]

theorem roll_eq (positive : 0 < n) (h : s.entries[n - 1]? = some e) :
    s.roll n = .ok (s.withEntries (e :: s.entries.eraseIdx (n - 1))) := by
  rw [roll, level?_eq_some positive h]

theorem pick_eq (positive : 0 < n) (h : s.entries[n - 1]? = some e) : s.pick n = s.push e := by
  rw [pick, level?_eq_some positive h]

theorem push_eq (room : s.requireRoom 0 1 = .ok ()) (e : Entry) :
    s.push e = .ok (s.withEntries (e :: s.entries)) := by
  rw [push, room]
  rfl

/-- Copying from the first two levels. -/
theorem pick_low (s : Stack) :
    (0 < s.size → s.pick 1 = s.dup) ∧ (1 < s.size → s.pick 2 = s.copySecond) := by
  obtain ⟨entries, limit⟩ := s
  match entries with
  | [] => exact ⟨nofun, nofun⟩
  | [a] => exact ⟨fun _ => rfl, fun h => absurd h (Nat.lt_irrefl 1)⟩
  | a :: b :: es => exact ⟨fun _ => rfl, fun _ => rfl⟩

/-- Moving from the first three levels. -/
theorem roll_low (s : Stack) :
    (0 < s.size → s.roll 1 = .ok s) ∧ (1 < s.size → s.roll 2 = s.swap) ∧
      (2 < s.size → s.roll 3 = s.rot) := by
  obtain ⟨entries, limit⟩ := s
  match entries with
  | [] => exact ⟨nofun, nofun, nofun⟩
  | [a] =>
    exact ⟨fun _ => rfl, fun h => absurd h (Nat.lt_irrefl 1), fun h => absurd h (by simp [size])⟩
  | [a, b] => exact ⟨fun _ => rfl, fun _ => rfl, fun h => absurd h (Nat.lt_irrefl 2)⟩
  | a :: b :: c :: es => exact ⟨fun _ => rfl, fun _ => rfl, fun _ => rfl⟩

theorem perm_swap (s : Stack) {t : Stack} (h : s.swap = .ok t) : t.entries.Perm s.entries := by
  unfold swap at h
  split at h
  · rename_i a b es stack
    cases h
    rw [stack]
    exact .swap a b es
  · cases h

theorem perm_rot (s : Stack) {t : Stack} (h : s.rot = .ok t) : t.entries.Perm s.entries := by
  unfold rot at h
  split at h
  · rename_i a b c es stack
    cases h
    rw [stack]
    exact (List.Perm.swap a c (b :: es)).trans (.cons a (.swap b c es))
  · cases h

end Stack

/-! ## 2. Rearrangements by name -/

namespace Session

/-- The session after an instruction has left another stack. -/
def restacked (m : Session) (stack : Stack) : Session :=
  { m.withStack stack with history := m.history.push m.stack.entries }

/-- What comes of an instruction that leaves a certain stack, or has a fault. -/
def restack (m : Session) : Except StackFault Stack → Except Error Unit × Session
  | .ok stack => (.ok (), m.restacked stack)
  | .error fault => (.error (.stack fault), m)

/-- The outcome of an instruction, with the stack and the flags that it leaves. -/
def left (i : Instruction) (m : Session) : Except Error Unit × Stack × Flags :=
  ((runOne i m).1, (runOne i m).2.stack, (runOne i m).2.flags)

end Session

/-- An operation of the catalogue that is a step of the machine and leaves a snapshot. -/
structure Operation.Performs (op : Operation) (run : Calc Unit) : Prop where
  known : op ∈ Registry.operations
  recorded : op.recorded = true
  action : op.action = .primitive run

namespace Operation.Performs

open Session

variable {op : Operation} {run : Calc Unit} {m : Session}

theorem of_rearrangements (known : op ∈ Catalogue.rearrangements) (recorded : op.recorded = true)
    (action : op.action = .primitive run) : op.Performs run :=
  ⟨Registry.mem_of_rearrangements known, recorded, action⟩

/-- The name of the operation runs the step on operands enough. -/
theorem runOne_done (h : op.Performs run) (free : m.scopes.Free)
    (enough : op.minArgs ≤ m.stack.size) {stack : Stack}
    (done : exec run m = (.ok (), m.withStack stack)) :
    runOne (.keyword op.name) m = (.ok (), m.restacked stack) := by
  have found := Registry.find_name h.known
  have ran : exec (runInstruction (levelsLeft m) (.keyword op.name)) m =
      (.ok (), m.withStack stack) := by
    rw [exec_keyword_of_enough (levelsLeft m) free found enough, h.action]
    exact done
  rcases runOne_cases (.keyword op.name) m with ⟨n, hn, hrun⟩ | ⟨e, n, hn, _⟩
  · cases ran.symm.trans hn
    have recorded : leavesSnapshot (m.withStack stack) (.keyword op.name) = true := by
      simp [leavesSnapshot, found, h.recorded]
    rw [hrun, if_pos recorded]
    rfl
  · cases ran.symm.trans hn

theorem runOne_few (h : op.Performs run) (free : m.scopes.Free) (few : m.stack.size < op.minArgs) :
    runOne (.keyword op.name) m =
      (.error (.insufficientArguments op.name op.minArgs m.stack.size), m) := by
  have found := Registry.find_name h.known
  refine runOne_refused ?_
  rw [exec_keyword_unbound (levelsLeft m) (free.unbound found) found, Machine.checkArgs, if_pos few]

theorem runOne_failed (h : op.Performs run) (free : m.scopes.Free)
    (enough : op.minArgs ≤ m.stack.size) {e : Error} (failed : exec run m = (.error e, m)) :
    runOne (.keyword op.name) m = (.error e, m) := by
  refine runOne_refused ?_
  rw [exec_keyword_of_enough (levelsLeft m) free (Registry.find_name h.known) enough, h.action]
  exact failed

/-- A step that leaves the stack that there is, if there is one, and fails otherwise. -/
theorem runOne_outcome (h : op.Performs run) (free : m.scopes.Free)
    (enough : op.minArgs ≤ m.stack.size) {r : Except StackFault Stack}
    (ran : exec run m = match r with
      | .ok stack => (.ok (), m.withStack stack)
      | .error fault => (.error (.stack fault), m)) :
    runOne (.keyword op.name) m = m.restack r := by
  cases r with
  | ok stack => exact h.runOne_done free enough ran
  | error fault => exact h.runOne_failed free enough ran

theorem swap : Catalogue.swapTop.Performs (rearrange Stack.swap) :=
  .of_rearrangements (by simp [Catalogue.rearrangements]) rfl rfl

theorem rot : Catalogue.rotateThree.Performs (rearrange Stack.rot) :=
  .of_rearrangements (by simp [Catalogue.rearrangements]) rfl rfl

theorem dup : Catalogue.duplicate.Performs (rearrange Stack.dup) :=
  .of_rearrangements (by simp [Catalogue.rearrangements]) rfl rfl

theorem second : Catalogue.copySecond.Performs (rearrange Stack.copySecond) :=
  .of_rearrangements (by simp [Catalogue.rearrangements]) rfl rfl

end Operation.Performs

/-! ## 3. Operations that take a level -/

namespace Session

/-- A level, which is an index other than zero, lies on top of some entries. No operation has a name
that is bound. -/
structure OnLevel (m : Session) (below : List Entry) (n : Nat) : Prop where
  free : m.scopes.Free
  stack : ∃ x, m.stack.entries = x :: below ∧ x.value = .integer n
  positive : 0 < n
  indexed : n < Value.indexBound

theorem OnLevel.size {m : Session} {below : List Entry} {n : Nat} (h : m.OnLevel below n) :
    m.stack.size = below.length + 1 := by
  obtain ⟨x, stack, _⟩ := h.stack
  rw [Stack.size, stack, List.length_cons]

end Session

namespace Catalogue

variable {m : Session} {below : List Entry} {n : Nat}

/-- The number of operands that a level asks for is one more, which a word does not hold for the
last level. -/
theorem levelOf_eq (h : m.OnLevel below n) (op : String) :
    levelOf op m = if n + 1 < Value.indexBound then (m.checkArgs op (n + 1)).map fun _ => n
      else .error .overflow := by
  obtain ⟨x, stack, level⟩ := h.stack
  have top : m.stack.peek 0 = .ok x := by simp [Stack.peek, stack]
  have index : x.value.toIndex "level" = .ok n := Value.toIndex_eq_ok.mpr ⟨level, h.indexed⟩
  have fits : Word.nat64.inRange (n + 1) = true ↔ n + 1 < Value.indexBound := by
    rw [Word.inRange_nat64, Value.indexBound]
    omega
  rw [levelOf, top, mapError_ok, ok_bind, index, ok_bind, if_neg h.positive.ne', Word.hold]
  by_cases room : n + 1 < Value.indexBound
  · rw [if_pos (fits.mpr room), if_pos room, ok_bind, show ((n : Int) + 1).toNat = n + 1 by omega]
    cases m.checkArgs op (n + 1) <;> rfl
  · rw [if_neg (mt fits.mp room), if_neg room]
    rfl

/-- The level is taken off and the entries below it are rearranged, if there are as many as the
level requires. -/
theorem exec_byLevel (h : m.OnLevel below n) (room : n + 1 < Value.indexBound) (op : String)
    (f : Nat → Stack → Except StackFault Stack) :
    exec (byLevel op f) m = match m.checkArgs op (n + 1) with
      | .ok () => exec (rearrange fun _ => f n (m.stack.withEntries below)) m
      | .error e => (.error e, m) := by
  obtain ⟨x, stack, _⟩ := h.stack
  have dropped : m.stack.drop = .ok (m.stack.withEntries below) := by simp [Stack.drop, stack]
  rw [byLevel, exec_bind, exec_level, levelOf_eq h, if_pos room]
  cases m.checkArgs op (n + 1) with
  | error e => rfl
  | ok _ =>
    show exec (rearrange fun s => do f n (← s.drop)) m = _
    rw [exec_rearrange, exec_rearrange, dropped, ok_bind]

theorem exec_byLevel_last (h : m.OnLevel below n) (last : ¬ n + 1 < Value.indexBound) (op : String)
    (f : Nat → Stack → Except StackFault Stack) :
    exec (byLevel op f) m = (.error .overflow, m) := by
  rw [byLevel, exec_bind, exec_level, levelOf_eq h, if_neg last]

end Catalogue

/-- An operation that takes a level off the stack and rearranges the entries below it. -/
structure Operation.TakesLevel (op : Operation) (f : Nat → Stack → Except StackFault Stack) :
    Prop where
  performs : op.Performs (Catalogue.byLevel op.name f)
  operands : op.minArgs = 2

namespace Operation.TakesLevel

open Session Catalogue

theorem pick : Catalogue.pick.TakesLevel Stack.pick where
  performs := .of_rearrangements (by simp [rearrangements]) rfl rfl
  operands := rfl

theorem roll : Catalogue.roll.TakesLevel Stack.roll where
  performs := .of_rearrangements (by simp [rearrangements]) rfl rfl
  operands := rfl

variable {op : Operation} {f : Nat → Stack → Except StackFault Stack} {m : Session}
  {below : List Entry} {n : Nat}

/-- The last level overflows on top of whatever else is there. -/
theorem runOne_last (h : op.TakesLevel f) (level : m.OnLevel below n)
    (last : ¬ n + 1 < Value.indexBound) (some : below ≠ []) :
    runOne (.keyword op.name) m = (.error .overflow, m) := by
  have size := level.size
  have operands := h.operands
  have positive := List.length_pos_iff.mpr some
  exact h.performs.runOne_failed level.free (by omega) (exec_byLevel_last level last op.name f)

/-- The error of a level that is missing. -/
def missingLevel (op : String) (n available : Nat) : Error :=
  if available = 1 then .insufficientArguments op 2 1
  else if n + 1 < Value.indexBound then .insufficientArguments op (n + 1) available
  else .overflow

/-- With fewer entries below the level the operation fails and leaves all as it was. -/
theorem runOne_few (h : op.TakesLevel f) (level : m.OnLevel below n) (few : below.length < n) :
    runOne (.keyword op.name) m = (.error (missingLevel op.name n m.stack.size), m) := by
  have size := level.size
  have operands := h.operands
  have free := level.free
  unfold missingLevel
  rcases Nat.lt_or_ge m.stack.size op.minArgs with lone | two
  · have one : m.stack.size = 1 := by omega
    rw [h.performs.runOne_few free lone, operands, one, if_pos rfl]
  · have more : m.stack.size ≠ 1 := by omega
    rw [if_neg more]
    split
    · rename_i room
      have ran := exec_byLevel level room op.name f
      rw [Machine.checkArgs, if_pos (by omega)] at ran
      exact h.performs.runOne_failed free two ran
    · rename_i last
      exact h.runOne_last level last (List.length_pos_iff.mp (by omega))

/-- With entries enough below it the level is taken off and they are rearranged. -/
theorem runOne_enough (h : op.TakesLevel f) (level : m.OnLevel below n)
    (room : n + 1 < Value.indexBound) (enough : n ≤ below.length) :
    runOne (.keyword op.name) m = m.restack (f n (m.stack.withEntries below)) := by
  have size := level.size
  have operands := h.operands
  have positive := level.positive
  have accepted : m.checkArgs op.name (n + 1) = .ok () := by
    rw [Machine.checkArgs_eq_ok]
    omega
  have ran := exec_byLevel level room op.name f
  rw [accepted] at ran
  exact h.performs.runOne_outcome level.free (by omega) (ran.trans (exec_rearrange m _))

end Operation.TakesLevel

namespace Session

variable {m : Session} {e : Entry} {below : List Entry} {n : Nat}

/-- An instruction fails for want of arguments. -/
def Lacks (i : Instruction) (m : Session) : Prop :=
  ∃ op needed available, (runOne i m).1 = .error (.insufficientArguments op needed available)

/-- Arguments are wanting if there are fewer entries below the level than it says, and if none is
there or a word holds the number that the level asks for. -/
theorem lacks_iff {op : Operation} {f : Nat → Stack → Except StackFault Stack}
    (h : op.TakesLevel f) (level : m.OnLevel below n) :
    Lacks (.keyword op.name) m ↔
      below.length < n ∧ (below = [] ∨ n + 1 < Value.indexBound) := by
  have size := level.size
  rcases Nat.lt_or_ge below.length n with few | enough
  · rw [Lacks, h.runOne_few level few, Operation.TakesLevel.missingLevel, size, and_iff_right few,
      ← List.length_eq_zero_iff]
    split
    · exact iff_of_true ⟨_, _, _, rfl⟩ (.inl (by omega))
    · rename_i more
      split
      · exact iff_of_true ⟨_, _, _, rfl⟩ (.inr ‹_›)
      · rename_i last
        exact iff_of_false nofun fun h => h.elim (fun none => more (by omega)) last
  · refine iff_of_false ?_ fun few => Nat.not_lt_of_ge enough few.1
    rintro ⟨name, needed, available, failed⟩
    by_cases room : n + 1 < Value.indexBound
    · rw [h.runOne_enough level room enough] at failed
      cases hf : f n (m.stack.withEntries below) <;> rw [hf] at failed <;> cases failed
    · have positive := level.positive
      rw [h.runOne_last level room (List.length_pos_iff.mp (by omega))] at failed
      cases failed

/-- Without entries enough below the level the operation fails, and on the last level in any
case. -/
theorem missing_level {op : Operation} {f : Nat → Stack → Except StackFault Stack}
    (h : op.TakesLevel f) (level : m.OnLevel below n) :
    (Lacks (.keyword op.name) m ↔
      below.length < n ∧ (below = [] ∨ n + 1 < Value.indexBound)) ∧
      (below.length < n → ∃ e, runOne (.keyword op.name) m = (.error e, m)) ∧
      (below ≠ [] → n + 1 = Value.indexBound →
        runOne (.keyword op.name) m = (.error .overflow, m)) :=
  ⟨lacks_iff h level, fun few => ⟨_, h.runOne_few level few⟩,
    fun some last => h.runOne_last level last.not_lt some⟩

theorem runOne_roll (level : m.OnLevel below n) (next : n + 1 < Value.indexBound)
    (found : below[n - 1]? = some e) :
    runOne (.keyword "roll") m =
      (.ok (), m.restacked (m.stack.withEntries (e :: below.eraseIdx (n - 1)))) := by
  have enough : n - 1 < below.length := (List.getElem?_eq_some_iff.mp found).1
  have rolled : (m.stack.withEntries below).roll n =
      .ok (m.stack.withEntries (e :: below.eraseIdx (n - 1))) :=
    Stack.roll_eq level.positive found
  have ran := Operation.TakesLevel.roll.runOne_enough level next (by omega)
  rw [rolled] at ran
  exact ran

/-- A stack keeps its limit, with room for so many more entries. -/
def HasRoom (m : Session) (more : Nat) : Prop :=
  ∀ limit, m.stack.limit = some limit → m.stack.size + more ≤ limit

theorem runOne_pick (level : m.OnLevel below n) (next : n + 1 < Value.indexBound)
    (room : m.HasRoom 0) (found : below[n - 1]? = some e) :
    runOne (.keyword "pick") m = (.ok (), m.restacked (m.stack.withEntries (e :: below))) := by
  have enough : n - 1 < below.length := (List.getElem?_eq_some_iff.mp found).1
  have picked : (m.stack.withEntries below).pick n = (m.stack.withEntries below).push e :=
    Stack.pick_eq level.positive found
  have pushed : (m.stack.withEntries below).push e = .ok (m.stack.withEntries (e :: below)) := by
    refine Stack.push_eq (Stack.requireRoom_eq_ok.mpr fun limit hl => ?_) e
    have fits := room limit hl
    rw [level.size] at fits
    exact fits
  have ran := Operation.TakesLevel.pick.runOne_enough level next (by omega)
  rw [picked, pushed] at ran
  exact ran

/-- With entries enough below the level the entry there is moved or copied to the top. -/
theorem found_level (level : m.OnLevel below n) (next : n + 1 < Value.indexBound)
    (enough : n ≤ below.length) :
    ∃ e, below[n - 1]? = some e ∧
      runOne (.keyword "roll") m =
        (.ok (), m.restacked (m.stack.withEntries (e :: below.eraseIdx (n - 1)))) ∧
      (e :: below.eraseIdx (n - 1)).Perm below ∧
      (m.HasRoom 0 → runOne (.keyword "pick") m =
        (.ok (), m.restacked (m.stack.withEntries (e :: below)))) := by
  have positive := level.positive
  have place : n - 1 < below.length := by omega
  have found := List.getElem?_eq_getElem place
  exact ⟨_, found, runOne_roll level next found, List.getElem_cons_eraseIdx_perm place,
    fun room => runOne_pick level next room found⟩

/-- A level that leads to what another operation does without one. -/
theorem left_eq {op other : Operation} {f : Nat → Stack → Except StackFault Stack}
    {g : Stack → Except StackFault Stack} (h : op.TakesLevel f) (h' : other.Performs (rearrange g))
    (level : m.OnLevel below n) (next : n + 1 < Value.indexBound) (enough : n ≤ below.length)
    (enough' : other.minArgs ≤ below.length)
    (same : f n (m.stack.withEntries below) = g (m.stack.withEntries below))
    (done : (runOne (.keyword op.name) m).1 = .ok ()) :
    left (.keyword op.name) m =
      left (.keyword other.name) { m with stack := m.stack.withEntries below } := by
  let base : Session := { m with stack := m.stack.withEntries below }
  have ran := h.runOne_enough level next enough
  have ran' := h'.runOne_outcome (m := base) level.free enough' (exec_rearrange base g)
  have same : g base.stack = f n (m.stack.withEntries below) := same.symm
  rw [same] at ran'
  cases hf : f n (m.stack.withEntries below) with
  | ok t =>
    rw [hf] at ran ran'
    rw [left, left, ran, ran']
    rfl
  | error fault =>
    rw [ran, hf] at done
    cases done

/-- The first levels, and the operations that need none. -/
theorem low_levels (m : Session) (below : List Entry) :
    let base : Session := { m with stack := m.stack.withEntries below }
    (m.OnLevel below 1 → 1 ≤ below.length →
      left (.keyword "roll") m = (.ok (), base.stack, base.topFlags) ∧
      (m.HasRoom 0 → left (.keyword "pick") m = left (.keyword "dup") base)) ∧
    (m.OnLevel below 2 → 2 ≤ below.length →
      left (.keyword "roll") m = left (.keyword "swap") base ∧
      (m.HasRoom 0 → left (.keyword "pick") m = left (.keyword "over") base)) ∧
    (m.OnLevel below 3 → 3 ≤ below.length →
      left (.keyword "roll") m = left (.keyword "rot") base) := by
  intro base
  obtain ⟨dup, second⟩ := base.stack.pick_low
  obtain ⟨nothing, swap, rot⟩ := base.stack.roll_low
  refine ⟨fun level enough => ?_, fun level enough => ?_, fun level enough => ?_⟩
  all_goals
    obtain ⟨e, _, rolled, _, picked⟩ := found_level level (by decide) enough
    have rolled := congrArg Prod.fst rolled
  · have ran := Operation.TakesLevel.roll.runOne_enough level (by decide) enough
    have nothing : (m.stack.withEntries below).roll 1 = .ok base.stack := nothing enough
    rw [nothing] at ran
    have ran : runOne (.keyword "roll") m = (.ok (), m.restacked base.stack) := ran
    refine ⟨by rw [left, ran]; rfl, fun room => ?_⟩
    have same := left_eq Operation.TakesLevel.pick Operation.Performs.dup level (by decide) enough
      enough (dup enough) (congrArg Prod.fst (picked room))
    exact same
  · have same := left_eq Operation.TakesLevel.roll Operation.Performs.swap level (by decide) enough
      enough (swap enough) rolled
    refine ⟨same, fun room => ?_⟩
    have same := left_eq Operation.TakesLevel.pick Operation.Performs.second level (by decide)
      enough enough (second enough) (congrArg Prod.fst (picked room))
    exact same
  · have same := left_eq Operation.TakesLevel.roll Operation.Performs.rot level (by decide) enough
      enough (rot enough) rolled
    exact same

/-- A rearrangement that loses and adds no entry, or fails. -/
theorem perm_runOne {op : Operation} {f : Stack → Except StackFault Stack}
    (h : op.Performs (rearrange f)) (free : m.scopes.Free)
    (perm : ∀ s t : Stack, f s = .ok t → t.entries.Perm s.entries) :
    (runOne (.keyword op.name) m).2.stack.entries.Perm m.stack.entries := by
  rcases Nat.lt_or_ge m.stack.size op.minArgs with few | enough
  · rw [h.runOne_few free few]
  · rw [h.runOne_outcome free enough (exec_rearrange m f)]
    cases hf : f m.stack with
    | ok t => exact perm _ t hf
    | error fault => exact .refl _

/-! ## 4. Moving up again and again -/

/-- The instructions that move the entry at a level to the top. -/
def rolls (n : Nat) : List Instruction := [.number (.integer n) .none, .keyword "roll"]

/-- Levels can be put on the stack and moved from. -/
structure Rolls (n : Nat) (m : Session) : Prop where
  free : m.scopes.Free
  room : m.HasRoom 1
  stored : (Entry.store (.integer n) .none m.settings.style).value = .integer n

/-- Moving the last one of some entries to the top turns them around by one place. -/
theorem rotate_last {t r : List Entry} (positive : 0 < n) (count : t.length = n) :
    ∃ e, (t ++ r)[n - 1]? = some e ∧
      e :: (t ++ r).eraseIdx (n - 1) = t.rotate (n - 1) ++ r := by
  have last : n - 1 < t.length := by omega
  refine ⟨t[n - 1], by rw [List.getElem?_append_left last, List.getElem?_eq_getElem last], ?_⟩
  rw [List.eraseIdx_append_of_lt_length last, List.rotate_eq_drop_append_take last.le,
    List.drop_eq_getElem_cons last, List.drop_eq_nil_of_le (by omega),
    List.eraseIdx_eq_take_drop_succ, List.drop_eq_nil_of_le (by omega), List.append_nil]
  rfl

theorem HasRoom.requireRoom (h : m.HasRoom 1) : m.stack.requireRoom 0 1 = .ok () :=
  Stack.requireRoom_eq_ok.mpr h

theorem runOne_number (room : m.HasRoom 1) (v : Value) (unit : UnitProduct) :
    runOne (.number v unit) m = (.ok (),
      { m.pushed (.store v unit m.settings.style) with
        history := m.history.push m.stack.entries }) := by
  have ran : exec (runInstruction (levelsLeft m) (.number v unit)) m =
      (.ok (), m.pushed (.store v unit m.settings.style)) := by
    unfold runInstruction
    show exec (get >>= fun m => pushEntry (m.entryOf ⟨v, unit⟩)) m = _
    rw [exec_get_bind]
    rcases exec_pushEntry (m.entryOf ⟨v, unit⟩) m with ⟨fault, refused⟩ | ⟨_, pushed⟩
    · simp [pushEntry, exec_bind, Stack.push, room.requireRoom] at refused
    · exact pushed
  rcases runOne_cases (.number v unit) m with ⟨n, hn, hrun⟩ | ⟨e, n, hn, _⟩
  · cases ran.symm.trans hn
    exact hrun
  · cases ran.symm.trans hn

/-- One move. -/
theorem eval_rolls {t r : List Entry} (h : Rolls n m) (positive : 0 < n)
    (next : n + 1 < Value.indexBound) (stack : m.stack.entries = t ++ r) (count : t.length = n) :
    ∃ k : Session, eval (rolls n) m = (.ok k.values, k) ∧ Rolls n k ∧
      k.stack = m.stack.withEntries (t.rotate (n - 1) ++ r) := by
  let x := Entry.store (.integer n) .none m.settings.style
  let p : Session := { m.pushed x with history := m.history.push m.stack.entries }
  obtain ⟨e, found, turned⟩ := rotate_last (r := r) positive count
  have top : p.stack.entries = x :: (t ++ r) := congrArg (x :: ·) stack
  have pushed : runOne (.number (.integer n) .none) m = (.ok (), p) := runOne_number h.room _ _
  have level : p.OnLevel (t ++ r) n := ⟨h.free, ⟨x, top, h.stored⟩, positive, by omega⟩
  have moved := runOne_roll level next found
  rw [turned] at moved
  refine ⟨p.restacked (p.stack.withEntries (t.rotate (n - 1) ++ r)), ?_,
    ⟨h.free, ?_, h.stored⟩, rfl⟩
  · simp only [rolls, eval, pushed, moved]
  intro limit hl
  have room := h.room limit hl
  have size : (t.rotate (n - 1) ++ r).length = m.stack.size := by
    rw [Stack.size, stack, List.length_append, List.length_append, List.length_rotate]
  show (t.rotate (n - 1) ++ r).length + 1 ≤ limit
  rw [size]
  exact room

/-- Many moves. -/
theorem eval_rolls_many {r : List Entry} (positive : 0 < n) (next : n + 1 < Value.indexBound)
    (times : Nat) : ∀ {m : Session} {t : List Entry}, Rolls n m → m.stack.entries = t ++ r →
      t.length = n → ∃ k : Session, eval (List.replicate times (rolls n)).flatten m =
        (.ok k.values, k) ∧ k.stack = m.stack.withEntries (t.rotate (times * (n - 1)) ++ r) := by
  induction times with
  | zero =>
    intro m t h stack count
    refine ⟨m, rfl, ?_⟩
    rw [Nat.zero_mul, List.rotate_zero, ← stack]
    rfl
  | succ times ih =>
    intro m t h stack count
    obtain ⟨k, ran, again, moved⟩ := eval_rolls h positive next stack count
    obtain ⟨k', ran', moved'⟩ := ih (t := t.rotate (n - 1)) again (by rw [moved]; rfl)
      (by rw [List.length_rotate, count])
    refine ⟨k', ?_, ?_⟩
    · rw [List.replicate_succ, List.flatten_cons, eval_append, ran]
      exact ran'
    · rw [moved', moved, List.rotate_rotate, Nat.succ_mul, Nat.add_comm]
      rfl

/-- Copying and moving entries by the level on top of the stack. With fewer entries below the level
than it says the operation fails and leaves all as it was. This is for want of arguments if the
level is alone or a word holds the number after it. That number overflows at the last level, on top
of whatever else is there. Otherwise the level is taken off, and the entry at that level is copied
to the top, if the stack keeps its limit, or moved there. Some low levels do what other operations
do. Moving entries, exchanging two and rotating three of them permute the stack, and as many moves
from a level as it says bring all entries back. -/
theorem pick_and_roll (m : Session) :
    (∀ (below : List Entry) (n : Nat), m.OnLevel below n →
      (∀ name ∈ ["pick", "roll"],
        (Lacks (.keyword name) m ↔ below.length < n ∧ (below = [] ∨ n + 1 < Value.indexBound)) ∧
        (below.length < n → ∃ e, runOne (.keyword name) m = (.error e, m)) ∧
        (below ≠ [] → n + 1 = Value.indexBound →
          runOne (.keyword name) m = (.error .overflow, m))) ∧
      (n + 1 < Value.indexBound → n ≤ below.length → ∃ e, below[n - 1]? = some e ∧
        runOne (.keyword "roll") m =
          (.ok (), m.restacked (m.stack.withEntries (e :: below.eraseIdx (n - 1)))) ∧
        (e :: below.eraseIdx (n - 1)).Perm below ∧
        (m.HasRoom 0 → runOne (.keyword "pick") m =
          (.ok (), m.restacked (m.stack.withEntries (e :: below)))))) ∧
    (∀ below : List Entry,
      let base : Session := { m with stack := m.stack.withEntries below }
      (m.OnLevel below 1 → 1 ≤ below.length →
        left (.keyword "roll") m = (.ok (), base.stack, base.topFlags) ∧
        (m.HasRoom 0 → left (.keyword "pick") m = left (.keyword "dup") base)) ∧
      (m.OnLevel below 2 → 2 ≤ below.length →
        left (.keyword "roll") m = left (.keyword "swap") base ∧
        (m.HasRoom 0 → left (.keyword "pick") m = left (.keyword "over") base)) ∧
      (m.OnLevel below 3 → 3 ≤ below.length →
        left (.keyword "roll") m = left (.keyword "rot") base)) ∧
    (m.scopes.Free → ∀ name ∈ ["swap", "rot"],
      (runOne (.keyword name) m).2.stack.entries.Perm m.stack.entries) ∧
    ∀ n : Nat, Rolls n m → 0 < n → n + 1 < Value.indexBound → n ≤ m.stack.size →
      ∃ k : Session, eval (List.replicate n (rolls n)).flatten m = (.ok k.values, k) ∧
        k.stack = m.stack := by
  refine ⟨?_, low_levels m, ?_, ?_⟩
  · intro below n level
    refine ⟨fun name hname => ?_, found_level level⟩
    have pick := missing_level Operation.TakesLevel.pick level
    have roll := missing_level Operation.TakesLevel.roll level
    rcases List.mem_pair.mp hname with rfl | rfl
    · exact pick
    · exact roll
  · intro free name hname
    have swap := perm_runOne Operation.Performs.swap free Stack.perm_swap
    have rot := perm_runOne Operation.Performs.rot free Stack.perm_rot
    rcases List.mem_pair.mp hname with rfl | rfl
    · exact swap
    · exact rot
  · intro n h positive next enough
    have parts := (List.take_append_drop n m.stack.entries).symm
    have count : (m.stack.entries.take n).length = n := List.length_take_of_le enough
    obtain ⟨k, ran, back⟩ := eval_rolls_many positive next n h parts count
    refine ⟨k, ran, ?_⟩
    have turned := List.rotate_length_mul (m.stack.entries.take n) (n - 1)
    rw [count] at turned
    rw [back, turned, ← parts]
    rfl

/-- Some integers are pushed. -/
def pushes (ns : List Nat) : List Step := ns.map fun n => .instruction (.number (.integer n) .none)

theorem pick_and_roll_third :
    let m := after (Machine.start {} 0) (pushes [10, 20, 30, 3])
    (runOne (.keyword "roll") m).2.stack.entries.map Entry.value =
        [.integer 10, .integer 30, .integer 20] ∧
      (runOne (.keyword "pick") m).2.stack.entries.map Entry.value =
        [.integer 10, .integer 30, .integer 20, .integer 10] ∧
      ∃ k : Session, eval (List.replicate 3 (rolls 3)).flatten m = (.ok k.values, k) ∧
        k.stack = m.stack := by
  intro m
  obtain ⟨levels, _, _, turns⟩ := pick_and_roll m
  have free : m.scopes.Free := free_after {} 0 _
  let entry (n : Nat) : Entry := .store (.integer n) .none {}
  have stack : m.stack.entries = [entry 3, entry 30, entry 20, entry 10] := rfl
  have level : m.OnLevel [entry 30, entry 20, entry 10] 3 :=
    ⟨free, ⟨entry 3, stack, rfl⟩, by decide, by decide⟩
  obtain ⟨e, found, rolled, _, picked⟩ := (levels _ 3 level).2 (by decide) (by decide)
  cases found
  refine ⟨by rw [rolled]; rfl, by rw [picked nofun]; rfl, ?_⟩
  exact turns 3 ⟨free, nofun, rfl⟩ (by decide) (by decide) (by decide)

/-- The last index asks for a number that overflows, so that arguments are not found wanting. -/
theorem last_level :
    let m := after (Machine.start {} 0) (pushes [1, 18446744073709551615])
    (∃ below, m.OnLevel below 18446744073709551615 ∧ below.length < 18446744073709551615) ∧
      runOne (.keyword "pick") m = (.error .overflow, m) ∧ ¬ Lacks (.keyword "pick") m := by
  intro m
  let entry (n : Nat) : Entry := .store (.integer n) .none {}
  have stack : m.stack.entries = [entry 18446744073709551615, entry 1] := rfl
  have level : m.OnLevel [entry 1] 18446744073709551615 :=
    ⟨free_after {} 0 _, ⟨_, stack, rfl⟩, by decide, by decide⟩
  have ran := Operation.TakesLevel.pick.runOne_last level (by decide) (List.cons_ne_nil _ _)
  refine ⟨⟨_, level, by decide⟩, ran, fun ⟨op, needed, available, lacks⟩ => ?_⟩
  have overflows : (runOne (.keyword "pick") m).1 = .error .overflow := congrArg Prod.fst ran
  cases overflows.symm.trans lacks

end Session

end StackCalc
