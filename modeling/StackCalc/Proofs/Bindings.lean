import StackCalc.Proofs.Confined

/-! # Names of variables

A name is bound only if no operation has it, so in a session every operation is found under its
names whatever variables there are. With no scope open but the global one, a name stands for what
was last bound to it. -/

namespace StackCalc

/-! ## 1. Free names -/

/-- No operation has a name that is bound. -/
def Scopes.Free (s : Scopes) : Prop := s.Each fun b => Registry.contains b.1 = false

/-- The name of an operation is not bound. -/
theorem Scopes.Free.unbound {s : Scopes} (h : s.Free) {name : String} {op : Operation}
    (found : Registry.find? name = some op) : s.get? name = none := by
  cases hget : s.get? name with
  | none => rfl
  | some e =>
    have free : Registry.contains name = false := Scopes.Each.get h hget
    obtain ⟨n, hn, _⟩ := Option.bind_eq_some_iff.mp found
    rw [Registry.contains, hn] at free
    cases free

theorem Effect.free {m : Machine} {r : Except Error Unit × Machine} (h : Effect m r) :
    m.scopes.Free → r.2.scopes.Free := by
  induction h with
  | unbound name => exact Scopes.Each.unset
  | andThen _ _ first second => exact fun hm => second (first hm)
  | failed | replaced | rearranged | configured | pushed => exact id

theorem Course.free {V : Vocabulary} {m n : Machine} (h : Course V m n) :
    m.scopes.Free → n.scopes.Free := by
  induction h with
  | effect h => exact h.free
  | assigned name e _ free _ _ => exact fun hm => Scopes.Each.set hm free
  | scratch _ _ _ ih | deeper _ ih => exact ih
  | inner _ ih => exact fun hm => Scopes.Each.leave (ih (Scopes.Each.enter hm))
  | andThen _ _ first second => exact fun hm => second (first hm)
  | idle | undone | stored | taken => exact id

namespace Session

theorem Taken.free {V : Vocabulary} {m n : Session} (h : Taken V m n) (hm : m.scopes.Free) :
    n.scopes.Free := by
  cases h with
  | done h | recorded h | failed h => exact h.free hm
  | configured | waited => exact hm

theorem free_after (settings : Settings) (clock : Int) (steps : List Step) :
    (after (Machine.start settings clock) steps).scopes.Free := by
  have run : ∀ (steps : List Step) (m : Session), m.scopes.Free → (m.after steps).scopes.Free := by
    intro steps
    induction steps with
    | nil => exact fun _ hm => hm
    | cons s steps ih => exact fun m hm => ih (m.take s) ((taken_take s.inAll m.inAll).free hm)
  exact run steps _ (Scopes.each_iff.mpr ⟨List.forall_mem_nil _, List.forall_mem_nil _⟩)

end Session

/-! ## 2. Looking up -/

/-- Removing a name leaves what the others stand for. -/
theorem Frame.get_erase (f : Frame) {name other : String} (h : other ≠ name) :
    (f.erase name).get? other = f.get? other := by
  obtain ⟨bindings⟩ := f
  unfold Frame.get? Frame.erase
  dsimp only
  induction bindings with
  | nil => rfl
  | cons b bs ih =>
    obtain ⟨bound, e⟩ := b
    by_cases hb : bound = name
    · have skipped : (other == bound) = false := beq_eq_false_iff_ne.mpr (hb ▸ h)
      simp only [List.filter_cons, hb, ne_eq, not_true_eq_false, decide_false, Bool.false_eq_true,
        if_false, List.lookup_cons, hb ▸ skipped, ih]
    · simp only [List.filter_cons, hb, ne_eq, not_false_eq_true, decide_true, if_true,
        List.lookup_cons, ih]

theorem Frame.get_bind (f : Frame) (name other : String) (e : Entry) :
    (f.bind name e).get? other = if other = name then some e else f.get? other := by
  show List.lookup other ((name, e) :: (f.erase name).bindings) = _
  rw [List.lookup_cons]
  by_cases same : other = name
  · simp [same]
  · rw [beq_eq_false_iff_ne.mpr same, if_neg same]
    exact f.get_erase same

/-- With no other scope open, a name is bound in the global one. -/
theorem Scopes.set_global {s : Scopes} (h : s.locals = []) (name : String) (e : Entry) :
    s.set name e = { s with globals := s.globals.bind name e } := by
  unfold Scopes.set Scopes.bindInnermost
  simp [h, Scopes.changeBinding]

theorem Scopes.locals_set {s : Scopes} (h : s.locals = []) (name : String) (e : Entry) :
    (s.set name e).locals = [] := by
  rw [set_global h]
  exact h

/-- With no other scope open, a name stands for the entry that was last bound to it. -/
theorem Scopes.get_set {s : Scopes} (h : s.locals = []) (name other : String) (e : Entry) :
    (s.set name e).get? other = if other = name then some e else s.get? other := by
  have looked (t : Scopes) (ht : t.locals = []) : t.get? other = t.globals.get? other := by
    unfold Scopes.get?
    rw [ht, List.nil_append, List.findSome?_singleton]
  rw [looked s h, set_global h, looked { s with globals := s.globals.bind name e } h]
  exact Frame.get_bind s.globals name other e

/-! ## 3. Running operations by name -/

namespace Evaluator

open Calc

variable {m : Machine}

/-- The name of an operation runs it, if there are operands enough. -/
theorem exec_keyword_of_enough {word : String} {op : Operation} (levels : Nat)
    (free : m.scopes.Free) (found : Registry.find? word = some op)
    (enough : op.minArgs ≤ m.stack.size) :
    exec (runInstruction levels (.keyword word)) m =
      exec (runAction (evaluateExpr levels) op.action) m := by
  have accepted : m.checkArgs op.name op.minArgs = .ok () := Machine.checkArgs_eq_ok.mpr enough
  rw [exec_keyword_unbound levels (free.unbound found) found, accepted]

/-- The second entry is bound to the name on top. -/
theorem exec_assignTop {name : String} {x y : Entry} {entries : List Entry}
    (stack : m.stack.entries = x :: y :: entries) (hx : x.value = .symbolic (.var name))
    (unnamed : Registry.contains name = false) :
    exec assignTop m = (.ok (), { m with scopes := m.scopes.set name y }.withStack
      (m.stack.withEntries entries)) := by
  have top : m.stack.peek 0 = .ok x := by simp [Stack.peek, stack]
  have second : m.stack.peek 1 = .ok y := by simp [Stack.peek, stack]
  have popped : m.stack.popMany 2 = .ok ([x, y], m.stack.withEntries entries) := by
    simp [Stack.popMany, Stack.size, stack]
  have named : Catalogue.variableName "sto" x = .ok name := by
    simp only [Catalogue.variableName, hx]
  simp only [assignTop, exec_bind, exec_top, exec_lift, top, named, unnamed, mapError_ok,
    Bool.false_eq_true, if_false, exec_get, exec_liftStack, second, popped]
  rfl

end Evaluator
end StackCalc
