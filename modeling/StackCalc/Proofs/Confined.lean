import StackCalc.Proofs.Invariant
import StackCalc.Proofs.Names

/-! # What instructions leave alone

However an instruction goes, the limits in the settings are the same after it, as many scopes are
open and as many levels in use, and the history has lost none but its latest snapshots. So a session
between two steps is at rest: its stack and its history keep to the settings, no scope but the
global one is open, and no level is in use. -/

namespace StackCalc

/-! ## 1. Limits and scopes -/

namespace Scopes

theorem length_changeBinding {name : String} {f : Frame → Frame} {fs gs : List Frame}
    (h : changeBinding name f fs = some gs) : gs.length = fs.length := by
  induction fs generalizing gs with
  | nil => cases h
  | cons g fs ih =>
    unfold changeBinding at h
    split at h
    · cases h
      rfl
    · obtain ⟨rest, hrest, rfl⟩ := Option.map_eq_some_iff.mp h
      exact congrArg (· + 1) (ih hrest)

theorem length_bindInnermost (name : String) (e : Entry) (s : Scopes) :
    (s.bindInnermost name e).locals.length = s.locals.length := by
  unfold bindInnermost
  split <;> simp [*]

theorem length_set (name : String) (e : Entry) (s : Scopes) :
    (s.set name e).locals.length = s.locals.length := by
  unfold set
  split
  · rename_i fs hfs
    exact length_changeBinding hfs
  · split
    · rfl
    · exact length_bindInnermost name e s

theorem length_unset (name : String) (s : Scopes) :
    (s.unset name).locals.length = s.locals.length := by
  unfold unset
  split
  · rename_i fs hfs
    exact length_changeBinding hfs
  · rfl

/-- Closing a scope undoes opening one, whatever is bound in between. -/
theorem length_leave {s : Scopes} {n : Nat} (h : s.locals.length = n + 1) :
    s.leave.locals.length = n := by
  unfold leave exit?
  split
  · rename_i hs
    rw [hs] at h
    exact Nat.succ.inj h
  · rename_i hs
    rw [hs] at h
    cases h

end Scopes

namespace Machine

/-- The settings that bound the stack and the history are the same, and so are the limit of a stack
that keeps to them and the numbers of open scopes and of levels in use. -/
structure Confined (m n : Machine) : Prop where
  undoDepth : n.settings.undoDepth = m.settings.undoDepth
  stackLimit : n.settings.stackLimit = m.settings.stackLimit
  limit : m.stack.limit = m.settings.stackLimit → n.stack.limit = m.stack.limit
  scopes : n.scopes.locals.length = m.scopes.locals.length
  nesting : n.nesting = m.nesting

namespace Confined

variable {m n k : Machine}

/-- The settings and the numbers of open scopes and of levels are not touched. -/
theorem of_eq (settings : n.settings = m.settings) (limit : n.stack.limit = m.stack.limit)
    (scopes : n.scopes.locals.length = m.scopes.locals.length) (nesting : n.nesting = m.nesting) :
    m.Confined n :=
  ⟨settings ▸ rfl, settings ▸ rfl, fun _ => limit, scopes, nesting⟩

theorem trans (h : m.Confined n) (h' : n.Confined k) : m.Confined k where
  undoDepth := h'.undoDepth.trans h.undoDepth
  stackLimit := h'.stackLimit.trans h.stackLimit
  limit hm := by
    have hn := h.limit hm
    exact (h'.limit (hn.trans (hm.trans h.stackLimit.symm))).trans hn
  scopes := h'.scopes.trans h.scopes
  nesting := h'.nesting.trans h.nesting

end Confined

end Machine

theorem Effect.confined {m : Machine} {r : Except Error Unit × Machine} (h : Effect m r) :
    m.Confined r.2 := by
  induction h with
  | failed e stack h => exact .of_eq rfl h.limit rfl rfl
  | replaced consumed results _ _ _ _ => exact .of_eq rfl rfl rfl rfl
  | rearranged stack h => exact .of_eq rfl h.limit rfl rfl
  | configured style modes _ _ => exact ⟨rfl, rfl, fun hm => hm.symm, rfl, rfl⟩
  | pushed name e _ _ => exact .of_eq rfl rfl rfl rfl
  | unbound name => exact .of_eq rfl rfl (Scopes.length_unset name _) rfl
  | andThen _ _ first second => exact first.trans second

theorem Course.confined {V : Vocabulary} {m n : Machine} (h : Course V m n) : m.Confined n := by
  induction h with
  | idle m => exact .of_eq rfl rfl rfl rfl
  | effect h => exact h.confined
  | undone _ entries history _ => exact .of_eq rfl rfl rfl rfl
  | stored consumed o _ _ _ => exact .of_eq rfl rfl rfl rfl
  | assigned name e _ _ stack h => exact .of_eq rfl h.limit (Scopes.length_set name e _) rfl
  | taken stack h => exact .of_eq rfl h.limit rfl rfl
  | scratch args _ _ ih => exact ⟨ih.undoDepth, ih.stackLimit, fun _ => rfl, ih.scopes, ih.nesting⟩
  | inner _ ih =>
    exact ⟨ih.undoDepth, ih.stackLimit, ih.limit, Scopes.length_leave ih.scopes, ih.nesting⟩
  | deeper _ ih =>
    exact ⟨ih.undoDepth, ih.stackLimit, ih.limit, ih.scopes, congrArg (· - 1) ih.nesting⟩
  | andThen _ _ first second => exact first.trans second

/-! ## 2. Snapshots -/

namespace History

/-- A history with a depth, and with no more snapshots than that allows. -/
structure Bounded (h : History) (depth : Nat) : Prop where
  declared : h.depth = depth
  size : depth = 0 ∨ h.size ≤ depth

/-- A history without its latest snapshots. -/
def dropLatest (count : Nat) (h : History) : History :=
  { h with snapshots := h.snapshots.drop count }

variable {h : History} {depth : Nat}

theorem dropLatest_zero : h.dropLatest 0 = h := rfl

theorem dropLatest_dropLatest (i j : Nat) :
    (h.dropLatest i).dropLatest j = h.dropLatest (i + j) := by
  simp [dropLatest, List.drop_drop]

theorem dropLatest_of_none (none : h.snapshots = []) (count : Nat) : h.dropLatest count = h := by
  unfold dropLatest
  rw [none, List.drop_nil, ← none]

theorem Bounded.dropLatest (hb : h.Bounded depth) (count : Nat) :
    (h.dropLatest count).Bounded depth := by
  refine ⟨hb.declared, hb.size.imp_right fun fits => ?_⟩
  have shorter : (h.snapshots.drop count).length ≤ h.snapshots.length := by simp
  exact Nat.le_trans shorter fits

theorem bounded_withDepth (depth : Nat) (h : History) : (h.withDepth depth).Bounded depth := by
  unfold withDepth truncate
  split
  · rename_i unlimited
    exact ⟨rfl, .inl unlimited⟩
  · exact ⟨rfl, .inr (List.length_take_le _ _)⟩

theorem Bounded.push (hb : h.Bounded depth) (snapshot : List Entry) :
    (h.push snapshot).Bounded depth := by
  have pushed : (h.push snapshot).Bounded h.depth :=
    bounded_withDepth h.depth { h with snapshots := snapshot :: h.snapshots }
  rwa [hb.declared] at pushed

/-- A depth that a history has already changes nothing. -/
theorem Bounded.withDepth_eq (hb : h.Bounded depth) : h.withDepth depth = h := by
  cases hb.declared
  unfold withDepth truncate
  split
  · rfl
  · rename_i limited
    have fits : h.snapshots.length ≤ h.depth := hb.size.resolve_left limited
    rw [List.take_of_length_le fits]

end History

section
variable {m n : Machine}

/-- An effect leaves a bounded history as it is. -/
theorem Effect.history {r : Except Error Unit × Machine} (h : Effect m r) :
    m.history.Bounded m.settings.undoDepth → r.2.history = m.history := by
  induction h with
  | configured style modes _ _ => exact fun hm => hm.withDepth_eq
  | andThen first _ ihFirst ihSecond =>
    intro hm
    have same := ihFirst hm
    refine (ihSecond ?_).trans same
    rw [same, first.confined.undoDepth]
    exact hm
  | failed | replaced | rearranged | pushed | unbound => exact fun _ => rfl

/-- A course loses none but the latest snapshots, and none at all where undo cannot be called. -/
theorem Course.history {V : Vocabulary} (h : Course V m n) :
    m.history.Bounded m.settings.undoDepth →
      ∃ j, n.history = m.history.dropLatest j ∧ (¬ V.Undoes → j = 0) := by
  induction h with
  | effect h => exact fun hm => ⟨0, h.history hm, fun _ => rfl⟩
  | undone called entries history h =>
    refine fun _ => ⟨1, ?_, fun never => absurd called never⟩
    rw [History.pop_eq_some h]
    rfl
  | scratch _ _ _ ih | inner _ ih | deeper _ ih => exact ih
  | andThen first _ ihFirst ihSecond =>
    intro hm
    obtain ⟨i, hi, never⟩ := ihFirst hm
    obtain ⟨j, hj, never'⟩ := ihSecond (by
      rw [hi, first.confined.undoDepth]
      exact hm.dropLatest i)
    refine ⟨i + j, ?_, fun undoes => ?_⟩
    · rw [hj, hi, History.dropLatest_dropLatest]
    · rw [never undoes, never' undoes]
  | idle | stored | assigned | taken => exact fun _ => ⟨0, rfl, fun _ => rfl⟩

end

/-! ## 3. Sessions at rest -/

namespace Session

theorem Step.inAll (s : Step) : s.In .all := by
  cases s with
  | instruction i => exact i.inAll
  | undo => exact Vocabulary.undoes_of_name (List.not_mem_nil)
  | configure f => trivial
  | wait clock => trivial

/-- A session between two steps: the stack and the history keep to the settings, no scope but the
global one is open, and no level of nesting is in use. -/
structure AtRest (m : Session) : Prop where
  limit : m.stack.limit = m.settings.stackLimit
  history : m.history.Bounded m.settings.undoDepth
  scopes : m.scopes.locals = []
  nesting : m.nesting = 0

theorem atRest_start (settings : Settings) (clock : Int) :
    AtRest (Machine.start settings clock) where
  limit := rfl
  history := ⟨rfl, .inr (Nat.zero_le _)⟩
  scopes := rfl
  nesting := rfl

variable {m n : Session}

theorem AtRest.course {V : Vocabulary} (hm : m.AtRest) (h : Course V m n) : n.AtRest := by
  have confined := h.confined
  obtain ⟨j, hj, _⟩ := h.history hm.history
  refine ⟨?_, ?_, List.eq_nil_of_length_eq_zero ?_, confined.nesting.trans hm.nesting⟩
  · rw [confined.limit hm.limit, hm.limit, confined.stackLimit]
  · rw [hj, confined.undoDepth]
    exact hm.history.dropLatest j
  · rw [confined.scopes, hm.scopes]
    rfl

/-- A session at rest has all levels left. -/
theorem AtRest.levelsLeft (hm : m.AtRest) : Evaluator.levelsLeft m = Evaluator.maxNesting := by
  rw [Evaluator.levelsLeft, hm.nesting]
  rfl

/-- A failure at rest brings the very same stack back. -/
theorem AtRest.failed_stack {V : Vocabulary} (hm : m.AtRest) (h : Course V m n) :
    n.stack.withEntries m.stack.entries = m.stack := by
  unfold Stack.withEntries
  rw [h.confined.limit hm.limit]

theorem Taken.atRest {V : Vocabulary} (h : Taken V m n) (hm : m.AtRest) : n.AtRest := by
  cases h with
  | done h => exact hm.course h
  | recorded h =>
    have hn := hm.course h
    exact ⟨hn.limit, hn.history.push m.stack.entries, hn.scopes, hn.nesting⟩
  | failed h =>
    have hn := hm.course h
    exact ⟨hn.limit, hn.history, hn.scopes, hn.nesting⟩
  | configured settings _ _ =>
    exact ⟨rfl, History.bounded_withDepth _ _, hm.scopes, hm.nesting⟩
  | waited clock => exact ⟨hm.limit, hm.history, hm.scopes, hm.nesting⟩

/-- A session is at rest after any steps. -/
theorem atRest_after (settings : Settings) (clock : Int) (steps : List Step) :
    AtRest (after (Machine.start settings clock) steps) := by
  have run : ∀ (steps : List Step) (m : Session), m.AtRest → (m.after steps).AtRest := by
    intro steps
    induction steps with
    | nil => exact fun _ hm => hm
    | cons s steps ih =>
      exact fun m hm => ih (m.take s) ((taken_take s.inAll m.inAll).atRest hm)
  exact run steps _ (atRest_start settings clock)

end Session

end StackCalc
