import Mathlib.Data.List.Forall2
import StackCalc.Proofs.Views

/-! # Scope hygiene

A program leaves as many scopes as it finds, and in none of them a name that was not bound there
before, however its body goes. On the way an assignment and a removal reach the innermost frame that
binds the name, and a name that nothing binds is first bound in the innermost frame, which is that
of the program itself. No name that is bound is ever that of an operation, in whatever case. -/

namespace StackCalc

open Calc Evaluator

/-! ## 1. Frames -/

namespace Frame

variable {f g h : Frame} {name other : String}

theorem binds_iff : f.binds name ↔ ∃ e, (name, e) ∈ f.bindings := by
  simp [binds, get?, List.lookup_isSome_iff]

theorem binds_bind (e : Entry) : (f.bind name e).binds other ↔ other = name ∨ f.binds other := by
  unfold binds
  rw [get_bind]
  by_cases same : other = name <;> simp [same]

theorem binds_erase : (f.erase name).binds other ↔ other ≠ name ∧ f.binds other := by
  simp [binds_iff, erase, and_comm]

/-- A frame binds every name that another one does. -/
def Covers (f g : Frame) : Prop := ∀ name, g.binds name → f.binds name

theorem Covers.refl (f : Frame) : f.Covers f := fun _ => id

theorem Covers.trans (first : f.Covers g) (second : g.Covers h) : f.Covers h :=
  fun name bound => first name (second name bound)

theorem covers_bind (bound : f.binds name) (e : Entry) : f.Covers (f.bind name e) := by
  intro other hother
  rcases (binds_bind e).mp hother with rfl | kept
  · exact bound
  · exact kept

theorem covers_erase (name : String) (f : Frame) : f.Covers (f.erase name) :=
  fun _ hother => (binds_erase.mp hother).2

end Frame

/-! ## 2. Frame by frame -/

/-- As many frames as before, and each binds no names but those that it bound before. -/
def CoversAll (fs gs : List Frame) : Prop := List.Forall₂ Frame.Covers fs gs

namespace CoversAll

variable {fs gs hs : List Frame}

theorem refl (fs : List Frame) : CoversAll fs fs :=
  List.forall₂_same.mpr fun f _ => .refl f

theorem trans (first : CoversAll fs gs) (second : CoversAll gs hs) : CoversAll fs hs := by
  induction first generalizing hs with
  | nil => exact second
  | cons covers _ ih =>
    cases second with
    | cons covers' rest => exact .cons (covers.trans covers') (ih rest)

theorem tail (h : CoversAll fs gs) : CoversAll fs.tail gs.tail := by
  cases h with
  | nil => exact .nil
  | cons _ rest => exact rest

/-- Each frame comes from one that covers it. -/
theorem exists_of_mem (h : CoversAll fs gs) {g : Frame} (hg : g ∈ gs) : ∃ f ∈ fs, f.Covers g := by
  induction h with
  | nil => cases hg
  | @cons f g' fs gs covers _ ih =>
    rcases List.mem_cons.mp hg with rfl | hg
    · exact ⟨f, List.mem_cons_self, covers⟩
    · obtain ⟨f', hf', covers'⟩ := ih hg
      exact ⟨f', List.mem_cons_of_mem f hf', covers'⟩

/-- One frame is changed. -/
theorem at_frame {f g : Frame} (before after : List Frame) (h : f.Covers g) :
    CoversAll (before ++ f :: after) (before ++ g :: after) :=
  List.rel_append (refl before) (.cons h (refl after))

end CoversAll

namespace Scopes

variable {s : Scopes} {name : String} {f : Frame} {before after : List Frame}

/-- `f` is the innermost frame that binds a name: no frame before it does. -/
structure BoundAt (s : Scopes) (name : String) (before : List Frame) (f : Frame)
    (after : List Frame) : Prop where
  frames : s.frames = before ++ f :: after
  inner : ∀ g ∈ before, ¬ g.binds name
  binds : f.binds name

/-- A name is bound in some innermost frame, or in none. -/
theorem boundAt_or_unbound (s : Scopes) (name : String) :
    (∃ before f after, s.BoundAt name before f after) ∨ ∀ f ∈ s.frames, ¬ f.binds name := by
  cases found : s.frames.find? (Frame.binds name) with
  | none => exact .inr (List.find?_eq_none.mp found)
  | some f =>
    obtain ⟨binds, before, after, frames, inner⟩ := List.find?_eq_some_iff_append.mp found
    exact .inl ⟨before, f, after, frames, fun g hg => by simpa using inner g hg, binds⟩

theorem changeBinding_of_unbound {fs : List Frame} (h : ∀ f ∈ fs, ¬ f.binds name)
    (change : Frame → Frame) : changeBinding name change fs = none := by
  induction fs with
  | nil => rfl
  | cons f fs ih =>
    obtain ⟨hf, hfs⟩ := List.forall_mem_cons.mp h
    rw [changeBinding, if_neg hf, ih hfs]
    rfl

theorem changeBinding_append (inner : ∀ g ∈ before, ¬ g.binds name) (binds : f.binds name)
    (change : Frame → Frame) :
    changeBinding name change (before ++ f :: after) = some (before ++ change f :: after) := by
  induction before with
  | nil => exact if_pos binds
  | cons g before ih =>
    obtain ⟨hg, hbefore⟩ := List.forall_mem_cons.mp inner
    rw [List.cons_append, changeBinding, if_neg hg, ih hbefore]
    rfl

/-- The frame is the global one, or there are frames of programs up to it. -/
theorem BoundAt.cases (h : s.BoundAt name before f after) :
    (after = [] ∧ s.locals = before ∧ s.globals = f) ∨
      ∃ outer, after = outer ++ [s.globals] ∧ s.locals = before ++ f :: outer := by
  have frames : s.locals ++ [s.globals] = before ++ f :: after := h.frames
  rcases List.eq_nil_or_concat after with rfl | ⟨outer, last, rfl⟩
  · obtain ⟨locals, globals⟩ := List.append_inj' frames rfl
    exact .inl ⟨rfl, locals, List.singleton_inj.mp globals⟩
  · rw [List.concat_eq_append, ← List.cons_append, ← List.append_assoc] at frames
    obtain ⟨locals, globals⟩ := List.append_inj' frames rfl
    rw [List.singleton_inj.mp globals]
    exact .inr ⟨outer, List.concat_eq_append, locals⟩

/-- An assignment reaches the innermost frame that binds the name, and no other. -/
theorem BoundAt.set (h : s.BoundAt name before f after) (e : Entry) :
    (s.set name e).frames = before ++ f.bind name e :: after := by
  unfold Scopes.set
  rcases h.cases with ⟨rfl, locals, rfl⟩ | ⟨outer, rfl, locals⟩
  · rw [locals, changeBinding_of_unbound h.inner]
    dsimp only
    rw [if_pos h.binds]
    simp only [Scopes.frames]
  · rw [locals, changeBinding_append h.inner h.binds]
    simp [Scopes.frames]

/-- A removal reaches the innermost frame that binds the name, and no other. -/
theorem BoundAt.unset (h : s.BoundAt name before f after) :
    (s.unset name).frames = before ++ f.erase name :: after := by
  unfold Scopes.unset
  rcases h.cases with ⟨rfl, locals, rfl⟩ | ⟨outer, rfl, locals⟩
  · rw [locals, changeBinding_of_unbound h.inner]
    simp [Scopes.frames]
  · rw [locals, changeBinding_append h.inner h.binds]
    simp [Scopes.frames]

/-- A name that no frame binds is bound in the innermost one. -/
theorem frames_set_unbound (unbound : ∀ g ∈ s.frames, ¬ g.binds name) (hs : s.frames = f :: after)
    (e : Entry) : (s.set name e).frames = f.bind name e :: after := by
  obtain ⟨locals, globals⟩ : (∀ g ∈ s.locals, ¬ g.binds name) ∧ ¬ s.globals.binds name := by
    simpa [frames, or_imp, forall_and] using unbound
  unfold Scopes.set bindInnermost
  rw [changeBinding_of_unbound locals]
  dsimp only
  rw [if_neg globals]
  cases hl : s.locals with
  | nil =>
    rw [frames, hl] at hs
    cases hs
    simp [frames]
  | cons g gs =>
    rw [frames, hl] at hs
    cases hs
    simp [frames]

theorem depth_eq (s : Scopes) : s.depth = s.frames.length := by simp [depth, frames]

theorem frames_ne_nil (s : Scopes) : s.frames ≠ [] := by simp [frames]

/-- Outside of the innermost frame an assignment binds no new name. -/
theorem covers_set_outer (name : String) (e : Entry) (s : Scopes) :
    CoversAll s.frames.tail (s.set name e).frames.tail := by
  rcases s.boundAt_or_unbound name with ⟨before, f, after, h⟩ | unbound
  · rw [h.frames, h.set e]
    exact (CoversAll.at_frame before after (Frame.covers_bind h.binds e)).tail
  · obtain ⟨f, after, hs⟩ := List.exists_cons_of_ne_nil s.frames_ne_nil
    rw [frames_set_unbound unbound hs e, hs]
    exact .refl after

theorem covers_unset (name : String) (s : Scopes) : CoversAll s.frames (s.unset name).frames := by
  rcases s.boundAt_or_unbound name with ⟨before, f, after, h⟩ | unbound
  · rw [h.frames, h.unset]
    exact .at_frame before after (Frame.covers_erase name f)
  · unfold Scopes.unset
    rw [changeBinding_of_unbound fun g hg => unbound g (List.mem_append_left _ hg)]
    exact .at_frame s.locals [] (Frame.covers_erase name s.globals)

/-- Closing a scope that was opened takes away the frame that names have been bound in. -/
theorem covers_leave {t : Scopes} (opened : t.locals.length = s.locals.length + 1)
    (outer : CoversAll s.enter.frames.tail t.frames.tail) : CoversAll s.frames t.leave.frames := by
  obtain ⟨f, fs, ht⟩ := List.exists_cons_of_length_eq_add_one opened
  have left : t.leave.frames = t.frames.tail := by simp [leave, exit?, frames, ht]
  rw [left]
  exact outer

end Scopes

/-! ## 3. Programs -/

theorem Effect.covers {m : Machine} {r : Except Error Unit × Machine} (h : Effect m r) :
    CoversAll m.scopes.frames r.2.scopes.frames := by
  induction h with
  | unbound name => exact Scopes.covers_unset name _
  | andThen _ _ first second => exact first.trans second
  | failed | replaced | rearranged | configured | pushed => exact .refl _

/-- Whatever is run, new names are bound in the innermost frame only. -/
theorem Course.covers_outer {V : Vocabulary} {m n : Machine} (h : Course V m n) :
    CoversAll m.scopes.frames.tail n.scopes.frames.tail := by
  induction h with
  | effect h => exact h.covers.tail
  | assigned name e _ _ _ _ => exact Scopes.covers_set_outer name e _
  | scratch _ _ _ ih => exact ih
  -- The frame that the inner course may bind names in is gone after it.
  | inner h ih => exact (Scopes.covers_leave h.confined.scopes ih).tail
  | deeper _ ih => exact ih
  | andThen _ _ first second => exact first.trans second
  | idle | undone | stored | taken => exact .refl _

/-- Nothing but the frames and the names that were there before is left. -/
structure Machine.Contained (m n : Machine) : Prop where
  depth : n.scopes.depth = m.scopes.depth
  frames : CoversAll m.scopes.frames n.scopes.frames
  names : ∀ name, (n.scopes.get? name).isSome → (m.scopes.get? name).isSome

theorem Scopes.get_isSome {s : Scopes} {name : String} :
    (s.get? name).isSome ↔ ∃ f ∈ s.frames, f.binds name := List.findSome?_isSome_iff

theorem CoversAll.contained {m n : Machine} (h : CoversAll m.scopes.frames n.scopes.frames) :
    m.Contained n where
  depth := by
    rw [Scopes.depth_eq, Scopes.depth_eq]
    exact (List.Forall₂.length_eq h).symm
  frames := h
  names name := by
    rw [Scopes.get_isSome, Scopes.get_isSome]
    rintro ⟨g, hg, bound⟩
    obtain ⟨f, hf, covers⟩ := h.exists_of_mem hg
    exact ⟨f, hf, covers name bound⟩

namespace Evaluator

/-- A program leaves no scope and no name of its own, whether it fails or not. -/
theorem contained_program (levels : Nat) (body : List Instruction) (m : Machine) :
    m.Contained (exec (runInstruction levels (.program body)) m).2 := by
  refine CoversAll.contained ?_
  unfold runInstruction
  cases levels with
  | zero => exact .refl m.scopes.frames
  | succ levels =>
    have body : Within .all (fun _ => True) (body.forM (runInstruction levels)) :=
      .forM fun i _ => within_runInstruction levels i i.inAll
    have course := (body { m with nesting := m.nesting + 1, scopes := m.scopes.enter }
      (Machine.inAll _)).course
    dsimp only
    rw [exec_deeper, exec_inScope]
    exact Scopes.covers_leave course.confined.scopes course.covers_outer

end Evaluator

/-! ## 4. Reachable states -/

namespace Machine

/-- The states that calculators come to: those of sessions, those that programs start in, and those
that instructions leave, at top level or inside of programs. -/
inductive Reachable : Machine → Prop
  | session (settings : Settings) (clock : Int) (steps : List Session.Step) :
      Reachable (Session.after (start settings clock) steps)
  | entered {m : Machine} (h : m.Reachable) : Reachable { m with scopes := m.scopes.enter }
  | ran {m : Machine} (h : m.Reachable) (levels : Nat) (i : Instruction) :
      Reachable (exec (runInstruction levels i) m).2

theorem Reachable.free {m : Machine} (h : m.Reachable) : m.scopes.Free := by
  induction h with
  | session settings clock steps => exact Session.free_after settings clock steps
  | entered _ ih => exact Scopes.Each.enter ih
  | @ran m _ levels i ih => exact (within_runInstruction levels i i.inAll m m.inAll).course.free ih

end Machine

theorem Registry.find_eq_none {name word : String} (free : contains name = false)
    (same : Text.foldCase word = Text.foldCase name) : find? word = none := by
  have none : number? name = none := by simpa [contains] using free
  rw [find?, number?, same]
  exact congrArg (Option.bind · _) none

theorem Scopes.Free.unnamed {s : Scopes} (free : s.Free) {f : Frame} (hf : f ∈ s.frames)
    {name : String} (bound : f.binds name) : Registry.contains name = false := by
  obtain ⟨e, he⟩ := Frame.binds_iff.mp bound
  exact free f hf (name, e) he

/-- At top level the scopes are those that the instruction leaves, whether it fails or not. -/
theorem Session.scopes_runOne (i : Instruction) (m : Session) :
    (runOne i m).2.scopes = (exec (runInstruction (levelsLeft m) i) m).2.scopes := by
  rcases runOne_cases i m with ⟨n, h, hrun⟩ | ⟨e, n, h, hrun⟩
  · rw [h, hrun]
    dsimp only
    split <;> rfl
  · rw [h, hrun]

namespace Evaluator

variable {m : Machine} {word name : String} {op : Operation} {x y : Entry} {entries : List Entry}

/-- The name of an operation runs it, whatever variables there are. -/
theorem exec_keyword_of_free (free : m.scopes.Free) (found : Registry.find? word = some op)
    (levels : Nat) : exec (runInstruction levels (.keyword word)) m =
      exec (do requireArgs op.name op.minArgs; runAction (evaluateExpr levels) op.action) m := by
  rw [exec_keyword_unbound levels (free.unbound found) found, exec_bind, exec_requireArgs]
  cases m.checkArgs op.name op.minArgs <;> rfl

/-- The name on top is taken off, and its innermost binding is removed. -/
theorem exec_purgeTop (hm : m.stack.entries = x :: entries) (hx : x.value = .symbolic (.var name))
    (bound : m.scopes.get? name = some y) : exec Catalogue.purgeTop m =
      (.ok (), { m.withStack (m.stack.withEntries entries) with
        scopes := m.scopes.unset name }) := by
  have top : m.stack.peek 0 = .ok x := by simp [Stack.peek, hm]
  have dropped : m.stack.drop = .ok (m.stack.withEntries entries) := by simp [Stack.drop, hm]
  have named : Catalogue.variableName "purge" x = .ok name := by
    simp only [Catalogue.variableName, hx]
  simp only [Catalogue.purgeTop, exec_bind, exec_top, exec_lift, top, named, mapError_ok,
    Catalogue.exec_boundEntry, bound, rearrange, exec_get, exec_liftStack, dropped, exec_modify]
  rfl

end Evaluator

/-! ## 5. Hygiene -/

namespace Machine

/-- A name is on top of the stack, and some entries are below it. -/
def Names (m : Machine) (name : String) (entries : List Entry) : Prop :=
  ∃ x, m.stack.entries = x :: entries ∧ x.value = .symbolic (.var name)

/-- A keyword succeeds and leaves these frames. -/
def Leaves (m : Machine) (levels : Nat) (word : String) (frames : List Frame) : Prop :=
  ∃ n, exec (runInstruction levels (.keyword word)) m = (.ok (), n) ∧ n.scopes.frames = frames

/-- What holds of the variables of a machine, and what instructions do with them. -/
structure Hygienic (m : Machine) : Prop where
  /-- No name that is bound is that of an operation, in whatever case. -/
  unshadowed : ∀ f ∈ m.scopes.frames, ∀ name, f.binds name →
    ∀ word, Text.foldCase word = Text.foldCase name → Registry.find? word = none
  /-- The name of an operation runs the operation. -/
  runs : ∀ (levels : Nat) (word : String) (op : Operation), Registry.find? word = some op →
    exec (runInstruction levels (.keyword word)) m =
      exec (do requireArgs op.name op.minArgs; runAction (evaluateExpr levels) op.action) m
  /-- A program leaves no scope and no name of its own, whether it fails or not. -/
  programs : ∀ (levels : Nat) (body : List Instruction),
    m.Contained (exec (runInstruction levels (.program body)) m).2
  /-- Nor does it at top level. -/
  topLevel : ∀ body : List Instruction, m.Contained (Session.runOne (.program body) m).2
  /-- An assignment reaches the innermost frame that binds the name. -/
  assigns : ∀ (levels : Nat) (word : String), Registry.find? word = some Catalogue.store →
    ∀ name e entries, m.Names name (e :: entries) →
    ∀ before f after, m.scopes.BoundAt name before f after →
    m.Leaves levels word (before ++ f.bind name e :: after)
  /-- A name that no frame binds is bound in the innermost frame. -/
  declares : ∀ (levels : Nat) (word : String), Registry.find? word = some Catalogue.store →
    ∀ name e entries, m.Names name (e :: entries) → Registry.contains name = false →
    ∀ f after, m.scopes.frames = f :: after → (∀ g ∈ f :: after, ¬ g.binds name) →
    m.Leaves levels word (f.bind name e :: after)
  /-- A removal reaches the innermost frame that binds the name. -/
  removes : ∀ (levels : Nat) (word : String), Registry.find? word = some Catalogue.purge →
    ∀ name entries, m.Names name entries →
    ∀ before f after, m.scopes.BoundAt name before f after →
    m.Leaves levels word (before ++ f.erase name :: after)

variable {m : Machine} {levels : Nat} {word name : String} {f : Frame} {before after : List Frame}
  {e : Entry} {entries : List Entry}

/-- What is assigned goes where `Scopes.set` puts it. -/
theorem leaves_set (free : m.scopes.Free) (found : Registry.find? word = some Catalogue.store)
    (named : m.Names name (e :: entries)) (unnamed : Registry.contains name = false) :
    m.Leaves levels word (m.scopes.set name e).frames := by
  obtain ⟨x, stack, hx⟩ := named
  have enough : Catalogue.store.minArgs ≤ m.stack.size := by
    rw [Stack.size, stack]
    exact Nat.le_add_left 2 entries.length
  have run := (exec_keyword_of_enough levels free found enough).trans
    (exec_assignTop stack hx unnamed)
  exact ⟨_, run, rfl⟩

/-- What is removed goes from where `Scopes.unset` takes it. -/
theorem leaves_unset (free : m.scopes.Free) (found : Registry.find? word = some Catalogue.purge)
    (named : m.Names name entries) (bound : (m.scopes.get? name).isSome) :
    m.Leaves levels word (m.scopes.unset name).frames := by
  obtain ⟨x, stack, hx⟩ := named
  obtain ⟨e, he⟩ := Option.isSome_iff_exists.mp bound
  have enough : Catalogue.purge.minArgs ≤ m.stack.size := by
    rw [Stack.size, stack]
    exact Nat.le_add_left 1 entries.length
  have run := (exec_keyword_of_enough levels free found enough).trans (exec_purgeTop stack hx he)
  exact ⟨_, run, rfl⟩

/-- Every state that a calculator comes to is hygienic. -/
theorem hygienic_of_reachable (reached : m.Reachable) : m.Hygienic where
  unshadowed _ hf _ bound _ same :=
    Registry.find_eq_none (reached.free.unnamed hf bound) same
  runs levels _ _ found := exec_keyword_of_free reached.free found levels
  programs levels body := contained_program levels body m
  topLevel body := by
    have contained := (contained_program (levelsLeft m) body m).frames
    rw [← Session.scopes_runOne] at contained
    exact contained.contained
  assigns levels word found name e entries named before f after h := by
    have unnamed : Registry.contains name = false :=
      reached.free.unnamed (h.frames ▸ by simp) h.binds
    rw [← h.set e]
    exact leaves_set reached.free found named unnamed
  declares levels word found name e entries named unnamed f after hs unbound := by
    rw [← Scopes.frames_set_unbound (hs ▸ unbound) hs e]
    exact leaves_set reached.free found named unnamed
  removes levels word found name entries named before f after h := by
    have bound : (m.scopes.get? name).isSome := by
      rw [Scopes.get_isSome, h.frames]
      exact ⟨f, by simp, h.binds⟩
    rw [← h.unset]
    exact leaves_unset reached.free found named bound

/-- Binding a name to a number. -/
def binding (n : Int) (name : String) : List Instruction :=
  [.number (.integer n) .none, .symbolic (.var name), .keyword "sto"]

/-- A session in which `x` is 2. -/
def holdingTwo : Session := Session.after (start {} 0) ((binding 2 "x").map .instruction)

/-- The names and the values in each frame. -/
def shown (m : Machine) : List (List (String × Option Rat)) :=
  m.scopes.frames.map fun f => f.bindings.map fun b => (b.1, b.2.value.toRat?)

/-- A program binds `x` anew and stores `y`; after it `x` has its new value, and `y` is gone. -/
theorem hygienic_holdingTwo : holdingTwo.Reachable ∧ holdingTwo.Hygienic ∧
    (Session.runOne (.program (binding 3 "x" ++ binding 4 "y")) holdingTwo).2.shown =
      [[("x", some 3)]] :=
  have reached : holdingTwo.Reachable := .session {} 0 _
  ⟨reached, hygienic_of_reachable reached, by decide +kernel⟩

end Machine
end StackCalc
