import StackCalc.Proofs.Catalogue
import StackCalc.Proofs.Registry
import StackCalc.Proofs.Scopes

/-! # The course of an instruction

What an instruction does to a machine is a chain of the effects of operations, of entries stored,
bound and taken off by the evaluator itself, and of such chains on a stack or in a scope of their
own. `Course` lists these. A vocabulary bounds the names that may be called and the values that may
occur on the way: what is in it to begin with stays in it, whether the instruction fails or not. -/

namespace StackCalc

/-! ## 1. Vocabularies -/

/-- Names that may be called and values that may occur, closed under what operations do with them.
An expression is in the vocabulary together with its names and its parts. -/
structure Vocabulary where
  names : String → Prop
  values : Value → Prop
  made : ∀ {v : Value}, v.Made values → values v
  reduce : ∀ {v : Value}, values v → values v.reduce
  var : ∀ {name : String}, values (.symbolic (.var name)) → names name
  const : ∀ {v : Value}, values (.symbolic (.const v)) → values v
  apply : ∀ {name : String} {args : List Expr}, values (.symbolic (.apply name args)) ↔
    names name ∧ ∀ e ∈ args, values (.symbolic e)

namespace Vocabulary

variable (V : Vocabulary)

/-- Whether undo can be called by a name of the vocabulary. -/
def Undoes : Prop := ∃ name, V.names name ∧ Registry.find? name = some Catalogue.undo

/-- An operand with a value of the vocabulary. -/
def Operand (o : StackCalc.Operand) : Prop := V.values o.value

/-- An entry with a value of the vocabulary. -/
def Entry (e : StackCalc.Entry) : Prop := V.values e.value

variable {V}

theorem undoes_of_name (h : V.names Catalogue.undo.name) : V.Undoes :=
  ⟨_, h, Registry.find_name (Registry.mem_of_rearrangements (by simp [Catalogue.rearrangements]))⟩

theorem entry_store {v : Value} (h : V.values v) (unit : UnitProduct) (style : NumberStyle) :
    V.Entry (.store v unit style) := by
  have reduced := V.reduce h
  unfold Vocabulary.Entry Entry.store Entry.stored
  split
  rename_i heq
  split at heq
  · cases heq
    exact V.made (.scalar _)
  · cases heq
    exact reduced

end Vocabulary

namespace Machine

/-- The entries on the stack and under variables satisfy `E`, and so do those in snapshots, as far
as they can come back. -/
structure Holds (V : Vocabulary) (E : Entry → Prop) (m : Machine) : Prop where
  stack : ∀ e ∈ m.stack.entries, E e
  scopes : m.scopes.All E
  snapshots : V.Undoes → ∀ s ∈ m.history.snapshots, ∀ e ∈ s, E e

/-- The machine holds nothing but values of the vocabulary. -/
abbrev In (V : Vocabulary) (m : Machine) : Prop := m.Holds V V.Entry

theorem Holds.mono {V : Vocabulary} {E F : Entry → Prop} {m : Machine} (h : m.Holds V E)
    (hE : ∀ e, E e → F e) : m.Holds V F where
  stack e he := hE e (h.stack e he)
  scopes f hf b hb := hE b.2 (h.scopes f hf b hb)
  snapshots called s hs e he := hE e (h.snapshots called s hs e he)

theorem holds_start (V : Vocabulary) (E : Entry → Prop) (settings : Settings) (clock : Int) :
    (start settings clock).Holds V E where
  stack := List.forall_mem_nil _
  scopes := Scopes.each_iff.mpr ⟨List.forall_mem_nil _, List.forall_mem_nil _⟩
  snapshots _ := List.forall_mem_nil _

end Machine

/-! ## 2. Courses -/

/-- How a machine may change while an instruction of a vocabulary runs. -/
inductive Course (V : Vocabulary) : Machine → Machine → Prop
  | idle (m : Machine) : Course V m m
  | effect {m : Machine} {r : Except Error Unit × Machine} (h : Effect m r) : Course V m r.2
  | undone {m : Machine} (called : V.Undoes) (entries : List Entry) (history : History)
      (h : m.history.pop? = some (entries, history)) :
      Course V m ({ m with history }.withStack (m.stack.withEntries entries))
  /-- A literal is pushed, or an expression is replaced by its value. -/
  | stored {m : Machine} (consumed : Nat) (o : Operand) (enough : consumed ≤ m.stack.size)
      (room : m.stack.requireRoom consumed 1 = .ok ()) (value : V.Operand o) :
      Course V m (m.replaced consumed [o])
  | assigned {m : Machine} (name : String) (e : Entry) (held : e ∈ m.stack.entries)
      (free : Registry.contains name = false) (stack : Stack) (h : m.stack.Rearranged stack) :
      Course V m ({ m with scopes := m.scopes.set name e }.withStack stack)
  /-- Called names are taken off the stack. The flags stay those of the first of them. -/
  | taken {m : Machine} (stack : Stack) (h : m.stack.Rearranged stack) :
      Course V m { m with stack }
  /-- An operation is run on a stack of its own, and the old stack is brought back. -/
  | scratch {m n : Machine} (args : List Operand) (values : ∀ o ∈ args, V.Operand o)
      (h : Course V { m with stack := { entries := (args.map m.entryOf).reverse } } n) :
      Course V m { n with stack := m.stack }
  /-- A program is run in a scope of its own. -/
  | inner {m n : Machine} (h : Course V { m with scopes := m.scopes.enter } n) :
      Course V m { n with scopes := n.scopes.leave }
  /-- A program or an expression is run one level deeper. -/
  | deeper {m n : Machine} (h : Course V { m with nesting := m.nesting + 1 } n) :
      Course V m { n with nesting := n.nesting - 1 }
  | andThen {m n k : Machine} (first : Course V m n) (second : Course V n k) : Course V m k

/-! ## 3. What courses keep -/

namespace History

variable {h : History} {s : List Entry}

theorem mem_truncate (hs : s ∈ h.truncate.snapshots) : s ∈ h.snapshots := by
  unfold truncate at hs
  split at hs
  · exact hs
  · exact List.mem_of_mem_take hs

theorem mem_withDepth {depth : Nat} (hs : s ∈ (h.withDepth depth).snapshots) : s ∈ h.snapshots :=
  mem_truncate (h := { h with depth }) hs

theorem mem_push {snapshot : List Entry} (hs : s ∈ (h.push snapshot).snapshots) :
    s = snapshot ∨ s ∈ h.snapshots :=
  List.mem_cons.mp (mem_truncate hs)

/-- Taking the latest snapshot leaves the others. -/
theorem pop_eq_some {entries : List Entry} {rest : History}
    (hp : h.pop? = some (entries, rest)) :
    h = { rest with snapshots := entries :: rest.snapshots } := by
  unfold pop? at hp
  split at hp
  · rename_i hs
    cases hp
    cases h
    cases hs
    rfl
  · cases hp

end History

section
variable {V : Vocabulary} {E : Entry → Prop} {m n : Machine}

theorem Machine.Holds.replaced (hm : m.Holds V E) {consumed : Nat} {results : List Operand}
    (hr : ∀ o ∈ results, E (m.entryOf o)) : (m.replaced consumed results).Holds V E := by
  refine ⟨fun e he => ?_, hm.scopes, hm.snapshots⟩
  rcases List.mem_append.mp he with he | he
  · obtain ⟨o, ho, rfl⟩ := List.mem_map.mp (List.mem_reverse.mp he)
    exact hr o ho
  · exact hm.stack e (List.mem_of_mem_drop he)

variable (known : ∀ e, E e → V.Entry e)
  (storing : ∀ v, V.values v → ∀ unit style, E (.store v unit style))

include known storing

/-- What holds of all entries, and of every entry that a value of the vocabulary is stored in,
holds of all entries after an effect. -/
theorem Effect.holds {r : Except Error Unit × Machine} (h : Effect m r) :
    m.Holds V E → r.2.Holds V E := by
  induction h with
  | failed e stack h =>
    exact fun hm => ⟨fun x hx => hm.stack x (h.kept x hx), hm.scopes, hm.snapshots⟩
  | replaced consumed results _ _ _ made =>
    intro hm
    refine hm.replaced fun o ho => storing o.value ?_ _ _
    refine V.made ((made o ho).mono ?_)
    rintro v ⟨e, he, rfl⟩
    exact known e (hm.stack e he)
  | rearranged stack h =>
    exact fun hm => ⟨fun x hx => hm.stack x (h.kept x hx), hm.scopes, hm.snapshots⟩
  | configured style modes _ _ =>
    intro hm
    refine ⟨hm.stack, hm.scopes, fun called s hs => ?_⟩
    exact hm.snapshots called s (History.mem_withDepth hs)
  | pushed name e bound _ =>
    intro hm
    exact ⟨List.forall_mem_cons.mpr ⟨hm.scopes.get bound, hm.stack⟩, hm.scopes, hm.snapshots⟩
  | unbound name => exact fun hm => ⟨hm.stack, hm.scopes.unset, hm.snapshots⟩
  | andThen _ _ first second => exact fun hm => second (first hm)

/-- What holds of all entries, and of every entry that a value of the vocabulary is stored in,
holds of all entries after a course. -/
theorem Course.holds (h : Course V m n) : m.Holds V E → n.Holds V E := by
  induction h with
  | idle m => exact id
  | effect h => exact h.holds known storing
  | undone called entries history h =>
    intro hm
    have snapshots := hm.snapshots called
    rw [History.pop_eq_some h, List.forall_mem_cons] at snapshots
    exact ⟨snapshots.1, hm.scopes, fun _ => snapshots.2⟩
  | stored consumed o _ _ value =>
    exact fun hm => hm.replaced (List.forall_mem_singleton.mpr (storing o.value value _ _))
  | assigned name e held _ stack h =>
    intro hm
    exact ⟨fun x hx => hm.stack x (h.kept x hx), hm.scopes.set (hm.stack e held), hm.snapshots⟩
  | taken stack h =>
    exact fun hm => ⟨fun x hx => hm.stack x (h.kept x hx), hm.scopes, hm.snapshots⟩
  | scratch args values _ ih =>
    intro hm
    have started := ih ⟨fun e he => ?_, hm.scopes, hm.snapshots⟩
    · exact ⟨hm.stack, started.scopes, started.snapshots⟩
    · obtain ⟨o, ho, rfl⟩ := List.mem_map.mp (List.mem_reverse.mp he)
      exact storing o.value (values o ho) _ _
  | inner _ ih =>
    intro hm
    have run := ih ⟨hm.stack, hm.scopes.enter, hm.snapshots⟩
    exact ⟨run.stack, run.scopes.leave, run.snapshots⟩
  | deeper _ ih =>
    intro hm
    have run := ih ⟨hm.stack, hm.scopes, hm.snapshots⟩
    exact ⟨run.stack, run.scopes, run.snapshots⟩
  | andThen _ _ first second => exact fun hm => second (first hm)

end

/-- A course of a vocabulary leads to no value outside of it. -/
theorem Course.keeps {V : Vocabulary} {m n : Machine} (h : Course V m n) (hm : m.In V) : n.In V :=
  h.holds (fun _ => id) (fun _ hv unit style => Vocabulary.entry_store hv unit style) hm

end StackCalc
