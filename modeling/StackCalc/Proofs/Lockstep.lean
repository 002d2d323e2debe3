import StackCalc.Proofs.Commit
import StackCalc.Proofs.Registry
import StackCalc.Proofs.Stored

/-! # Lock step with reference machines

A reference machine computes with a stack of numbers of its own. A session shows that stack if its
entries hold the values of those numbers, and nothing else can get in the way of an instruction: no
limit and no variables. An instruction then either stores a value or is refused, and which of the
two depends on the values alone. -/

namespace StackCalc

/-! ## 1. What a machine shows -/

namespace Machine

/-- The stack holds these values, the top one first, and their units are none. There is neither a
limit nor a variable. -/
structure Shows (m : Machine) (style : NumberStyle) (values : List Value) : Prop where
  operands : m.stack.entries.map (fun e => (⟨e.value, e.unit⟩ : Operand)) = values.map .plain
  style : m.settings.style = style
  limit : m.stack.limit = none
  scopes : m.scopes = {}

theorem shows_start (settings : Settings) (clock : Int) (h : settings.stackLimit = none) :
    (start settings clock).Shows settings.style [] := ⟨rfl, rfl, h, rfl⟩

namespace Shows

variable {m : Machine} {style : NumberStyle} {values : List Value}

theorem size (h : m.Shows style values) : m.stack.size = values.length := by
  simpa [Stack.size] using congrArg List.length h.operands

theorem values_eq (h : m.Shows style values) : m.stack.entries.map Entry.value = values := by
  simpa [Function.comp_def, Operand.plain] using congrArg (List.map Operand.value) h.operands

theorem units_eq (h : m.Shows style values) : ∀ e ∈ m.stack.entries, e.unit = .none := by
  intro e he
  have : (⟨e.value, e.unit⟩ : Operand) ∈ values.map .plain := h.operands ▸ List.mem_map_of_mem he
  obtain ⟨v, _, hv⟩ := List.mem_map.mp this
  exact (congrArg Operand.unit hv).symm

theorem topOperands (h : m.Shows style values) (count : Nat) :
    m.topOperands count = (values.take count).reverse.map .plain := by
  rw [Machine.topOperands, List.map_reverse, List.map_take, h.operands, ← List.map_take,
    ← List.map_reverse]

theorem room (h : m.Shows style values) (remove add : Nat) :
    m.stack.requireRoom remove add = .ok () :=
  Stack.requireRoom_eq_ok.mpr fun n hn => by rw [h.limit] at hn; cases hn

/-- A result takes the place of its operands in the form in which it is stored. -/
theorem replaced (h : m.Shows style values) (consumed : Nat) (v : Value) :
    (m.replaced consumed [.plain v]).Shows style
      ((Entry.store v .none style).value :: values.drop consumed) := by
  refine ⟨?_, h.style, h.limit, h.scopes⟩
  have entry : m.entryOf (.plain v) = Entry.store v .none style := by
    rw [entryOf, h.style]
    rfl
  show ((m.entryOf (.plain v)) :: m.stack.entries.drop consumed).map _ = _
  rw [entry, List.map_cons, List.map_cons, List.map_drop, h.operands, List.map_drop]
  rfl

theorem flags_replaced (h : m.Shows style values) (consumed : Nat) (v : Value) :
    (m.replaced consumed [.plain v]).flags = (Entry.store v .none style).flags := by
  show (m.entryOf (.plain v)).flags = _
  rw [entryOf, h.style]
  rfl

end Shows
end Machine

/-! ## 2. Instructions -/

namespace Session

open Evaluator

variable {i : Instruction} {m n : Session} {style : NumberStyle} {values : List Value}

/-- An instruction that succeeds and stores a value above those that are left. -/
structure Stores (i : Instruction) (m : Session) (style : NumberStyle) (v : Value)
    (rest : List Value) : Prop where
  ok : (runOne i m).1 = .ok ()
  shown : (runOne i m).2.Shows style ((Entry.store v .none style).value :: rest)
  flags : (runOne i m).2.flags = (Entry.store v .none style).flags

/-- An instruction that fails and changes nothing. -/
def Refuses (i : Instruction) (m : Session) : Prop := ∃ e, runOne i m = (.error e, m)

theorem runOne_done (h : (runInstruction (levelsLeft m) i).exec m = (.ok (), n)) :
    ∃ history, runOne i m = (.ok (), { n with history }) := by
  have h : (runInstruction (levelsLeft m) i).run.run m = (.ok (), n) := h
  simp only [runOne, h]
  split
  · exact ⟨_, rfl⟩
  · exact ⟨n.history, rfl⟩

theorem refuses_of_exec {e : Error} (h : (runInstruction (levelsLeft m) i).exec m = (.error e, m)) :
    Refuses i m :=
  ⟨e, runOne_refused h⟩

theorem stores_of_exec (consumed : Nat) {v : Value} (hm : m.Shows style values)
    (h : (runInstruction (levelsLeft m) i).exec m = (.ok (), m.replaced consumed [.plain v])) :
    Stores i m style v (values.drop consumed) := by
  obtain ⟨history, h⟩ := runOne_done h
  have shown := hm.replaced consumed v
  have flags := hm.flags_replaced consumed v
  exact ⟨by rw [h], by rw [h]; exact ⟨shown.operands, shown.style, shown.limit, shown.scopes⟩,
    by rw [h]; exact flags⟩

/-- A literal is stored on top. -/
theorem stores_number (hm : m.Shows style values) (v : Value) :
    Stores (.number v .none) m style v values := by
  refine stores_of_exec 0 hm ?_
  unfold runInstruction
  show (Calc.pushOperand (.plain v)).exec m = _
  simp only [Calc.pushOperand, Calc.pushEntry, Calc.exec_bind, Calc.exec_get, Calc.exec_liftStack,
    Stack.push, hm.room 0 1]
  rfl

/-- The name of an operation runs it on enough operands. -/
theorem exec_keyword {op : Operation} {run : Calc Unit} (hop : op ∈ Registry.operations)
    (hrun : op.action = .primitive run) (hm : m.Shows style values) (levels : Nat) :
    (runInstruction levels (.keyword op.name)).exec m =
      match m.checkArgs op.name op.minArgs with
      | .ok () => run.exec m
      | .error e => (.error e, m) := by
  have unbound : m.scopes.get? op.name = none := by
    simp [hm.scopes, Scopes.get?, Frame.get?]
  rw [exec_keyword_unbound levels unbound (Registry.find_name hop), hrun]
  rfl

/-- An operation is refused for want of operands. -/
theorem refuses_few {op : Operation} {run : Calc Unit} (arity : Nat)
    (hop : op ∈ Registry.operations) (hrun : op.action = .primitive run)
    (hargs : op.minArgs = arity) (hm : m.Shows style values) (few : values.length < arity) :
    Refuses (.keyword op.name) m := by
  have refused : m.checkArgs op.name op.minArgs =
      .error (.insufficientArguments op.name op.minArgs m.stack.size) := by
    rw [Machine.checkArgs, if_pos (by rw [hm.size, hargs]; exact few)]
  refine refuses_of_exec (e := .insufficientArguments op.name op.minArgs m.stack.size) ?_
  rw [exec_keyword hop hrun hm, refused]

theorem exec_keyword_enough {op : Operation} {run : Calc Unit} (hop : op ∈ Registry.operations)
    (hrun : op.action = .primitive run) (hm : m.Shows style values)
    (enough : op.minArgs ≤ values.length) (levels : Nat) :
    (runInstruction levels (.keyword op.name)).exec m = run.exec m := by
  have accepted : m.checkArgs op.name op.minArgs = .ok () :=
    Machine.checkArgs_eq_ok.mpr (hm.size ▸ enough)
  rw [exec_keyword hop hrun hm, accepted]

/-! ## 3. Operations on the top entries -/

section
variable {op : Operation} {name : String} {arity : Nat} {s : Signature} {f : Signature.Transform}
  (hop : op ∈ Registry.operations)
  (hrun : op.action = .primitive (Calc.applyTop name arity s f)) (hargs : op.minArgs = arity)
  (hm : m.Shows style values) (enough : arity ≤ values.length)

include hop hrun hargs hm enough

theorem exec_applied : (runInstruction (levelsLeft m) (.keyword op.name)).exec m =
    m.commit (do
      let result ← s.apply name f m.settings ((values.take arity).reverse.map .plain)
      return (arity, [result])) := by
  have operands : m.operands name arity = .ok ((values.take arity).reverse.map .plain) :=
    Machine.operands_eq_ok.mpr ⟨hm.size ▸ enough, (hm.topOperands arity).symm⟩
  rw [exec_keyword_enough hop hrun hm (hargs ▸ enough), Calc.exec_applyTop, Calc.applyPlan,
    operands]
  rfl

/-- An operation stores the result of its transform. -/
theorem stores_applied {v : Value}
    (hv : s.apply name f m.settings ((values.take arity).reverse.map .plain) = .ok (.plain v)) :
    Stores (.keyword op.name) m style v (values.drop arity) := by
  refine stores_of_exec arity hm ?_
  rw [exec_applied hop hrun hargs hm enough, hv]
  show m.commit (.ok (arity, [.plain v])) = _
  simp only [Machine.commit, List.length_singleton, hm.room arity 1]

/-- An operation is refused if its transform fails. -/
theorem refuses_applied {e : Error}
    (he : s.apply name f m.settings ((values.take arity).reverse.map .plain) = .error e) :
    Refuses (.keyword op.name) m := by
  refine refuses_of_exec (e := e) ?_
  rw [exec_applied hop hrun hargs hm enough, he]
  rfl

end

/-! ## 4. Reference steps -/

/-- What is computed where a reference machine has a result: a value that stands for it. Where it
has none, there is a failure. -/
def Gives {β γ : Type} (value : β → Value) (stands : β → γ → Prop) (x : Except Error Operand) :
    Option γ → Prop
  | some r => ∃ b, x = .ok (.plain (value b)) ∧ stands b r
  | none => ∃ e, x = .error e

/-- An instruction follows a reference step. Where the step is defined, it succeeds and leaves a
session that fits, and elsewhere it is refused. -/
def Follows {γ : Type} (fits : γ → Session → Prop) (i : Instruction) (m : Session) :
    Option γ → Prop
  | some r => (runOne i m).1 = .ok () ∧ fits r (runOne i m).2
  | none => Refuses i m

section
variable {γ : Type} {fits : γ → Session → Prop} {expected : Option γ}

theorem Follows.succeeds_iff (h : Follows fits i m expected) :
    (runOne i m).1 = .ok () ↔ expected.isSome := by
  cases expected with
  | none =>
    obtain ⟨e, he⟩ := h
    simp [he]
  | some r => simp [h.1]

theorem Follows.unchanged (h : Follows fits i m none) : (runOne i m).2 = m := by
  obtain ⟨e, he⟩ := h
  rw [he]

/-- An operation follows a reference step if its transform does and what it stores fits. -/
theorem follows_applied {β δ : Type} {op : Operation} {name : String} {s : Signature}
    {f : Signature.Transform} {value : β → Value} {stands : β → δ → Prop} {computed : Option δ}
    {next : δ → γ} (arity : Nat) (hop : op ∈ Registry.operations)
    (hrun : op.action = .primitive (Calc.applyTop name arity s f)) (hargs : op.minArgs = arity)
    (hm : m.Shows style values) (enough : arity ≤ values.length)
    (hc : Gives value stands
      (s.apply name f m.settings ((values.take arity).reverse.map .plain)) computed)
    (fit : ∀ b r, stands b r →
      Stores (.keyword op.name) m style (value b) (values.drop arity) →
        fits (next r) (runOne (.keyword op.name) m).2) :
    Follows fits (.keyword op.name) m (computed.map next) := by
  cases computed with
  | none =>
    obtain ⟨e, he⟩ := hc
    exact refuses_applied hop hrun hargs hm enough he
  | some r =>
    obtain ⟨b, hb, hr⟩ := hc
    have stores := stores_applied hop hrun hargs hm enough hb
    exact ⟨stores.ok, fit b r hr stores⟩

end

/-! ## 5. Runs -/

/-- A run stays in step if every command does. The commands are those of a reference machine with
numbers of type `α` on its stack, which are shown as `value`. -/
theorem shows_run {α β : Type} {value : α → Value} {instruction : β → Instruction}
    {after : List α → β → List α}
    (h : ∀ (c : β) (m : Session) (stack : List α), m.Shows style (stack.map value) →
      (runOne (instruction c) m).2.Shows style ((after stack c).map value))
    (commands : List β) : ∀ (m : Session) (stack : List α), m.Shows style (stack.map value) →
      (run (commands.map instruction) m).2.Shows style
        ((commands.foldl after stack).map value) := by
  induction commands with
  | nil => exact fun _ _ hm => hm
  | cons c commands ih =>
    intro m stack hm
    rw [List.map_cons, run_cons_snd, List.foldl_cons]
    exact ih _ _ (h c m stack hm)

end Session
end StackCalc
