import StackCalc.Proofs.Confined

/-! # The flags of a session

Whatever changes the stack leaves the flags of the new top entry, but for one step: a call takes
its name off the stack and leaves the flags as they are. They are those of the name, and an
expression has none, so that flags which do not follow the top entry are clear. -/

namespace StackCalc

/-! ## 1. Flags of expressions -/

/-- An entry that has no flags if it holds an expression. -/
def Entry.Plain (e : Entry) : Prop := ∀ x, e.value = .symbolic x → e.flags = .clear

theorem Entry.store_plain (v : Value) (unit : UnitProduct) (style : NumberStyle) :
    (store v unit style).Plain := by
  intro x hx
  by_cases integer : ∃ n, v.reduce = .integer n
  · obtain ⟨n, hn⟩ := integer
    rw [store_integer hn] at hx
    cases hx
  · have other := store_other (fun n hn => integer ⟨n, hn⟩) unit style
    rw [other] at hx ⊢
    have hx : v.reduce = .symbolic x := hx
    rw [hx]
    rfl

/-- Entries of a vocabulary, as they are stored. -/
def Vocabulary.Stored (V : Vocabulary) (e : StackCalc.Entry) : Prop := V.Entry e ∧ e.Plain

theorem Vocabulary.entry_of_stored {V : Vocabulary} (e : StackCalc.Entry) (h : V.Stored e) :
    V.Entry e := h.1

theorem Vocabulary.stored_store {V : Vocabulary} (v : Value) (h : V.values v)
    (unit : UnitProduct) (style : NumberStyle) : V.Stored (.store v unit style) :=
  ⟨entry_store h unit style, Entry.store_plain v unit style⟩

/-- Whether the names of a vocabulary call others. -/
def Vocabulary.Calls (V : Vocabulary) : Prop :=
  ∃ name op, V.names name ∧ Registry.find? name = some op ∧ op.action = .call

/-- The flags are those of the top entry, or clear where names can be called. -/
def Machine.Flagged (V : Vocabulary) (m : Machine) : Prop :=
  m.flags = m.topFlags ∨ V.Calls ∧ m.flags = .clear

/-! ## 2. Steps that succeed -/

section
variable {V : Vocabulary} {m n : Machine}

namespace Machine

theorem flagged_withStack (m : Machine) (stack : Stack) : (m.withStack stack).Flagged V := .inl rfl

theorem flagged_pushed (m : Machine) (e : Entry) : (m.pushed e).Flagged V := .inl rfl

/-- Results leave the flags of the last of them, which is on top. -/
theorem flagged_replaced (m : Machine) (consumed : Nat) {results : List Operand}
    (some : results ≠ []) : (m.replaced consumed results).Flagged V := by
  refine .inl ?_
  obtain ⟨others, last, rfl⟩ := (List.eq_nil_or_concat results).resolve_left some
  simp [replaced, topFlags, Stack.withEntries]

end Machine

theorem Effect.flagged {r : Except Error Unit × Machine} (h : Effect m r) (ok : r.1 = .ok ()) :
    m.Flagged V → r.2.Flagged V := by
  induction h with
  | failed e stack _ => cases ok
  | replaced consumed results _ _ some _ => exact fun _ => Machine.flagged_replaced _ consumed some
  | rearranged stack _ => exact fun _ => Machine.flagged_withStack _ stack
  | configured style modes _ _ => exact id
  | pushed name e _ _ => exact fun _ => Machine.flagged_pushed _ e
  | unbound name => exact id
  | andThen _ _ first second => exact fun hm => second ok (first rfl hm)

end

namespace Evaluator

open Calc

variable {V : Vocabulary}

theorem flagged_pushEntry {e : Entry} {m n : Machine} (h : exec (pushEntry e) m = (.ok (), n)) :
    n.Flagged V := by
  rcases exec_pushEntry e m with ⟨fault, he⟩ | ⟨_, he⟩
  · cases he.symm.trans h
  · cases he.symm.trans h
    exact m.flagged_pushed e

theorem flagged_pushOperand {o : Operand} {m n : Machine}
    (h : exec (pushOperand o) m = (.ok (), n)) : n.Flagged V := by
  rw [pushOperand, exec_get_bind] at h
  exact flagged_pushEntry h

theorem flagged_replaceTop {consumed : Nat} {o : Operand} {m n : Machine}
    (h : exec (replaceTop consumed [o]) m = (.ok (), n)) : n.Flagged V := by
  rcases exec_replaceTop_cases consumed [o] m with ⟨e, he⟩ | ⟨_, _, he⟩
  · cases he.symm.trans h
  · cases he.symm.trans h
    exact m.flagged_replaced consumed (List.cons_ne_nil o [])

/-- What evaluation does to the flags on the way is over once its result is stored. -/
theorem flagged_evaluateTop {evaluate : Expr → Calc Operand} {m n : Machine} (hm : m.Flagged V)
    (h : exec (evaluateTop evaluate) m = (.ok (), n)) : n.Flagged V := by
  obtain ⟨e, _, h⟩ := exec_read_eq_ok (exec_top m) h
  split at h
  · obtain ⟨o, k, _, h⟩ := exec_bind_eq_ok h
    exact flagged_replaceTop h
  · cases h
    exact hm

theorem flagged_assignTop {m n : Machine} (h : exec assignTop m = (.ok (), n)) : n.Flagged V := by
  obtain ⟨_, _, h⟩ := exec_read_eq_ok (exec_top m) h
  obtain ⟨name, _, h⟩ := exec_read_eq_ok (exec_lift m _) h
  split at h
  · cases h
  · rw [exec_get_bind] at h
    obtain ⟨e, _, h⟩ := exec_read_eq_ok (exec_liftStack m _) h
    obtain ⟨p, _, h⟩ := exec_read_eq_ok (exec_liftStack m _) h
    cases h
    exact Machine.flagged_withStack _ p.2

theorem flagged_undo {m : Machine} (hm : m.Flagged V) : (exec undo m).2.Flagged V := by
  rw [exec_undo]
  split
  · exact hm
  · exact Machine.flagged_withStack _ _

theorem flagged_runDirect {evaluate : Expr → Calc Operand} {action : Action}
    (ha : Admitted V action) {m n : Machine} (hm : m.Flagged V)
    (h : exec (runDirect evaluate action) m = (.ok (), n)) : n.Flagged V := by
  rcases ha with does | ⟨_, rfl⟩
  · cases action with
    | primitive run =>
      have effect : Effect m (exec run m) := does m
      rw [show exec run m = (.ok (), n) from h] at effect
      exact effect.flagged rfl hm
    | evaluate => exact flagged_evaluateTop hm h
    | assign => exact flagged_assignTop h
    | call =>
      cases h
      exact hm
  · have undone := flagged_undo hm
    rwa [show exec undo m = (.ok (), n) from h] at undone

/-- What a call takes off the stack first is an expression. -/
theorem followCalls_symbolic {scopes : Scopes} {entries : List Entry} {p : Callee × List Entry}
    (h : followCalls scopes entries = .ok p) :
    ∃ e below x, entries = e :: below ∧ e.value = .symbolic x := by
  cases entries with
  | nil => cases h
  | cons e below =>
    obtain ⟨name, hname, _⟩ := bind_eq_ok.mp h
    unfold calledName at hname
    split at hname
    · exact ⟨e, below, _, rfl, ‹_›⟩
    · exact ⟨e, below, _, rfl, ‹_›⟩
    · cases hname

theorem flagged_callTop {evaluate : Expr → Calc Operand} (calls : V.Calls) {m n : Machine}
    (held : m.Holds V V.Stored) (hm : m.Flagged V) (h : exec (callTop evaluate) m = (.ok (), n)) :
    n.Flagged V := by
  rw [callTop, exec_get_bind] at h
  obtain ⟨p, hp, h⟩ := exec_read_eq_ok (exec_lift m _) h
  rw [exec_modify_bind] at h
  obtain ⟨e, below, x, hentries, hx⟩ := followCalls_symbolic hp
  have clear : m.flags = .clear := by
    rcases hm with top | ⟨_, clear⟩
    · have plain := (held.stack e (by simp [hentries])).2 x hx
      rw [top, Machine.topFlags, hentries]
      exact plain
    · exact clear
  have taken : Machine.Flagged V { m with stack := m.stack.withEntries p.2 } := .inr ⟨calls, clear⟩
  have hc := (within_followCalls (V := V) m.stack.entries (fun e he => (held.stack e he).1) p hp).1
  cases hc' : p.1 with
  | «variable» e =>
    rw [hc'] at h
    exact flagged_pushEntry h
  | operation op =>
    rw [hc'] at h hc
    obtain ⟨_, _, h⟩ := exec_read_eq_ok (exec_requireArgs _ _ _) h
    cases hc with
    | operation admitted => exact flagged_runDirect admitted taken h

theorem flagged_runAction {evaluate : Expr → Calc Operand} {action : Action}
    (ha : Admitted V action) (calls : action = .call → V.Calls) {m n : Machine}
    (held : m.Holds V V.Stored) (hm : m.Flagged V)
    (h : exec (runAction evaluate action) m = (.ok (), n)) : n.Flagged V := by
  by_cases call : action = .call
  · rw [call] at h
    exact flagged_callTop (calls call) held hm h
  · have direct : runAction evaluate action = runDirect evaluate action := by
      cases action with
      | call => exact absurd rfl call
      | _ => rfl
    rw [direct] at h
    exact flagged_runDirect ha hm h

theorem flagged_runName {evaluate : Expr → Calc Operand} {name : String} (hn : V.names name)
    {m n : Machine} (held : m.Holds V V.Stored) (hm : m.Flagged V)
    (h : exec (runName evaluate name) m = (.ok (), n)) : n.Flagged V := by
  rw [runName, exec_get_bind] at h
  obtain ⟨callee, hc, h⟩ := exec_read_eq_ok (exec_lift m _) h
  unfold resolveName at hc
  split at hc
  · cases hc
    exact flagged_pushEntry h
  · split at hc
    · rename_i op found
      cases hc
      obtain ⟨_, _, h⟩ := exec_read_eq_ok (exec_requireArgs _ _ m) h
      exact flagged_runAction (admitted_find hn found) (fun call => ⟨name, op, hn, found, call⟩)
        held hm h
    · cases hc

theorem flagged_inScope {step : Calc Unit} {m n : Machine}
    (hs : ∀ k l : Machine, k.Holds V V.Stored → k.Flagged V → exec step k = (.ok (), l) →
      l.Flagged V) (held : m.Holds V V.Stored) (hm : m.Flagged V)
    (h : exec (inScope step) m = (.ok (), n)) : n.Flagged V := by
  rw [exec_inScope] at h
  obtain ⟨ran, rfl⟩ := Prod.mk.inj h
  have entered : Machine.Holds V V.Stored { m with scopes := m.scopes.enter } :=
    ⟨held.stack, held.scopes.enter, held.snapshots⟩
  have inner := hs _ (exec step { m with scopes := m.scopes.enter }).2 entered hm
    (Prod.ext ran rfl)
  exact inner

theorem flagged_deeper {step : Calc Unit} {m n : Machine}
    (hs : ∀ k l : Machine, k.Holds V V.Stored → k.Flagged V → exec step k = (.ok (), l) →
      l.Flagged V) (held : m.Holds V V.Stored) (hm : m.Flagged V)
    (h : exec (deeper step) m = (.ok (), n)) : n.Flagged V := by
  rw [exec_deeper] at h
  obtain ⟨ran, rfl⟩ := Prod.mk.inj h
  have below : Machine.Holds V V.Stored { m with nesting := m.nesting + 1 } :=
    ⟨held.stack, held.scopes, held.snapshots⟩
  have inner := hs _ (exec step { m with nesting := m.nesting + 1 }).2 below hm
    (Prod.ext ran rfl)
  exact inner

/-- The body of a program leaves the flags as they are to be if its instructions do. -/
theorem flagged_forM {levels : Nat} {body : List Instruction} (hb : ∀ i ∈ body, i.In V)
    (step : ∀ i ∈ body, ∀ m n : Machine, m.Holds V V.Stored → m.Flagged V →
      exec (runInstruction levels i) m = (.ok (), n) → n.Flagged V) {m n : Machine}
    (held : m.Holds V V.Stored) (hm : m.Flagged V)
    (h : exec (forM body (runInstruction levels)) m = (.ok (), n)) : n.Flagged V := by
  induction body generalizing m with
  | nil =>
    cases h
    exact hm
  | cons i is ih =>
    rw [List.forM_cons] at h
    obtain ⟨_, k, first, rest⟩ := exec_bind_eq_ok h
    obtain ⟨hi, his⟩ := List.forall_mem_cons.mp hb
    obtain ⟨stepFirst, stepRest⟩ := List.forall_mem_cons.mp step
    have within := held.mono Vocabulary.entry_of_stored
    have course := (within_runInstruction levels i hi m within).course
    rw [first] at course
    exact ih his stepRest (course.holds Vocabulary.entry_of_stored Vocabulary.stored_store held)
      (stepFirst m k held hm first) rest

/-- An instruction that succeeds leaves the flags as they are to be. The recursion is on the
levels. -/
theorem flagged_runInstruction : ∀ (levels : Nat) (i : Instruction), i.In V →
    ∀ m n : Machine, m.Holds V V.Stored → m.Flagged V →
      exec (runInstruction levels i) m = (.ok (), n) → n.Flagged V
  | levels, i, hi, m, n, held, hm, h => by
    unfold runInstruction at h
    cases hi with
    | noop =>
      cases h
      exact hm
    | list _ =>
      rw [exec_get_bind] at h
      obtain ⟨v, _, h⟩ := exec_read_eq_ok (exec_lift m _) h
      exact flagged_pushOperand h
    | matrix rows =>
      obtain ⟨v, _, h⟩ := exec_read_eq_ok (exec_lift m _) h
      exact flagged_pushOperand h
    | keyword hn => exact flagged_runName hn held hm h
    | program hb =>
      cases levels with
      | zero => cases h
      | succ levels =>
        exact flagged_deeper (fun _ _ => flagged_inScope fun _ _ => flagged_forM hb fun j hj =>
          flagged_runInstruction levels j (hb j hj)) held hm h
    | truth | number | time | reference | symbolic => exact flagged_pushOperand h

end Evaluator

/-! ## 3. Sessions -/

/-- The vocabulary without calls by name. -/
abbrev Vocabulary.withoutCalls : Vocabulary := .without ["execute", "exec", "call"] (by decide)

theorem Vocabulary.not_calls_withoutCalls : ¬ withoutCalls.Calls := by
  rintro ⟨name, op, avoids, found, call⟩
  exact avoids (Registry.lower_of_call found call)

namespace Session

variable {V : Vocabulary}

theorem flagged_take {s : Step} (hs : s.In V) {m : Session} (held : Machine.Holds V V.Stored m)
    (hm : m.Flagged V) : (m.take s).Flagged V := by
  cases s with
  | instruction i =>
    show Machine.Flagged V (runOne i m).2
    rcases runOne_cases i m with ⟨n, h, hi⟩ | ⟨e, n, _, hi⟩
    · have hn := Evaluator.flagged_runInstruction _ i hs m n held hm h
      rw [hi]
      dsimp only
      split
      · exact hn
      · exact hn
    -- A failure brings the stack and the flags back together.
    · rw [hi]
      exact hm
  | undo => exact Evaluator.flagged_undo hm
  | configure f =>
    show Machine.Flagged V (Calc.exec (Calc.changeSettings f) m).2
    rcases Calc.exec_changeSettings f m with ⟨e, h⟩ | ⟨_, _, h⟩
    · rw [h]
      exact hm
    · rw [h]
      exact hm
  | wait clock => exact hm

theorem flagged_after {steps : List Step} (hs : ∀ s ∈ steps, s.In V) {m : Session}
    (held : Machine.Holds V V.Stored m) (hm : m.Flagged V) : (m.after steps).Flagged V := by
  induction steps generalizing m with
  | nil => exact hm
  | cons s steps ih =>
    obtain ⟨hs, hsteps⟩ := List.forall_mem_cons.mp hs
    have taken := taken_take hs (held.mono Vocabulary.entry_of_stored)
    exact ih hsteps (taken.holds Vocabulary.entry_of_stored Vocabulary.stored_store held)
      (flagged_take hs held hm)

theorem flagged_start (settings : Settings) (clock : Int) (steps : List Step)
    (hs : ∀ s ∈ steps, s.In V) : (after (Machine.start settings clock) steps).Flagged V :=
  flagged_after hs (Machine.holds_start V V.Stored settings clock) (.inl rfl)

/-- A step whose instruction, if it is one, mentions none of the given names. -/
def Step.Avoids (lower : List String) : Step → Prop
  | .instruction i => i.Avoids lower
  | _ => True

theorem Step.Avoids.inWithoutCalls {s : Step} (h : s.Avoids ["execute", "exec", "call"]) :
    s.In .withoutCalls := by
  cases s with
  | instruction i => exact Instruction.Avoids.inVocabulary _ h
  | undo =>
    have named : StackCalc.Avoids ["execute", "exec", "call"] Catalogue.undo.name := by
      decide +kernel
    exact Vocabulary.undoes_of_name named
  | configure f => trivial
  | wait clock => trivial

/-- After any steps the flags are those of the top entry, or clear. They are those of the top entry
if no step mentions a call by name. -/
theorem flags_after (settings : Settings) (clock : Int) (steps : List Step) :
    let m := after (Machine.start settings clock) steps
    (m.flags = m.topFlags ∨ m.flags = .clear) ∧
      ((∀ s ∈ steps, s.Avoids ["execute", "exec", "call"]) → m.flags = m.topFlags) := by
  refine ⟨?_, fun avoids => ?_⟩
  · exact (flagged_start settings clock steps fun s _ => s.inAll).imp_right And.right
  · have flagged := flagged_start settings clock steps fun s hs => (avoids s hs).inWithoutCalls
    exact flagged.resolve_right fun h => Vocabulary.not_calls_withoutCalls h.1

instance (lower : List String) : DecidablePred (Step.Avoids lower)
  | .instruction i => inferInstanceAs (Decidable (i.Avoids lower))
  | .undo | .configure _ | .wait _ => .isTrue trivial

/-- A difference below zero. -/
def difference : List Step :=
  [.instruction (.number (.integer 3) .none), .instruction (.number (.integer 5) .none),
    .instruction (.keyword "-")]

theorem flags_after_difference :
    let m := after (Machine.start {} 0) difference
    (∀ s ∈ difference, s.Avoids ["execute", "exec", "call"]) ∧ m.flags = m.topFlags ∧
      m.flags = ⟨false, false, false, true⟩ := by
  intro m
  have avoids : ∀ s ∈ difference, s.Avoids ["execute", "exec", "call"] := by decide +kernel
  exact ⟨avoids, (flags_after {} 0 difference).2 avoids, by decide +kernel⟩

/-- A call of a mode switch by name, with zero below the name. -/
def switchCalled : List Instruction :=
  [.number (.integer 0) .none, .reference "hex", .keyword "execute"]

/-- The call leaves zero on top without its flag. -/
theorem flags_stale :
    let m := after (Machine.start {} 0) (switchCalled.map .instruction)
    m.topFlags = ⟨true, false, false, false⟩ ∧ m.flags = .clear := by
  decide +kernel

end Session
end StackCalc
