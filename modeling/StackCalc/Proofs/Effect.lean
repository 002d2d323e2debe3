import StackCalc.Proofs.Commit
import StackCalc.Proofs.Transform

/-! # What operations do to a machine

`Effect` lists what a step of an operation can do: replace operands by results, rearrange the stack,
change how entries are shown and stored, push or forget a variable, or fail. Every operation of the
catalogue but undo is a chain of these. What holds of a machine whatever is run on it follows from
the list, and no proof about whole runs looks into an operation again. -/

namespace StackCalc

/-! ## 1. Effects -/

/-- A stack with no other entries than before and no more of them than its limit allows. -/
structure Stack.Rearranged (s t : Stack) : Prop where
  kept : ∀ e ∈ t.entries, e ∈ s.entries
  limit : t.limit = s.limit
  room : t.size ≤ s.size ∨ ∀ n, t.limit = some n → t.size ≤ n

namespace Machine

/-- The state after the settings are changed. -/
def configured (m : Machine) (settings : Settings) : Machine :=
  { m with
    settings
    stack := { m.stack with limit := settings.stackLimit }
    history := m.history.withDepth settings.undoDepth }

/-- The state after an entry is pushed as it is. -/
def pushed (m : Machine) (e : Entry) : Machine :=
  { m with stack := m.stack.withEntries (e :: m.stack.entries), flags := e.flags }

/-- The values of the entries on the stack. -/
def OnStack (m : Machine) (v : Value) : Prop := ∃ e ∈ m.stack.entries, e.value = v

/-- An operand whose value is made out of those on the stack. -/
abbrev Supplies (m : Machine) (o : Operand) : Prop := o.Made m.OnStack

end Machine

/-- What steps do to a machine: their outcome, and the state that they leave. -/
inductive Effect : Machine → Except Error Unit × Machine → Prop
  /-- A step fails. It may have taken entries off the stack. -/
  | failed {m : Machine} (e : Error) (stack : Stack) (h : m.stack.Rearranged stack) :
      Effect m (.error e, { m with stack })
  | replaced {m : Machine} (consumed : Nat) (results : List Operand)
      (enough : consumed ≤ m.stack.size)
      (room : m.stack.requireRoom consumed results.length = .ok ()) (some : results ≠ [])
      (made : ∀ o ∈ results, m.Supplies o) : Effect m (.ok (), m.replaced consumed results)
  | rearranged {m : Machine} (stack : Stack) (h : m.stack.Rearranged stack) :
      Effect m (.ok (), m.withStack stack)
  | configured {m : Machine} (style : NumberStyle) (modes : DisplayModes)
      (valid : Settings.Valid { m.settings with style, modes })
      (room : ∀ n, m.settings.stackLimit = some n → m.stack.size ≤ n) :
      Effect m (.ok (), m.configured { m.settings with style, modes })
  | pushed {m : Machine} (name : String) (e : Entry) (bound : m.scopes.get? name = some e)
      (room : m.stack.requireRoom 0 1 = .ok ()) : Effect m (.ok (), m.pushed e)
  | unbound {m : Machine} (name : String) :
      Effect m (.ok (), { m with scopes := m.scopes.unset name })
  | andThen {m n : Machine} {r : Except Error Unit × Machine} (first : Effect m (.ok (), n))
      (second : Effect n r) : Effect m r

theorem Effect.refused (m : Machine) (e : Error) : Effect m (.error e, m) :=
  .failed e m.stack ⟨fun _ => id, rfl, .inl (Nat.le_refl _)⟩

/-- A step that has no effects but the listed ones. -/
def Calc.Does (x : Calc Unit) : Prop := ∀ m, Effect m (x.exec m)

namespace Calc

variable {m : Machine}

/-- A step that starts by reading the state. -/
theorem effect_read {α : Type} {x : Calc α} {r : Except Error α} {f : α → Calc Unit}
    (hx : exec x m = (r, m)) (hf : ∀ a, r = .ok a → Effect m (exec (f a) m)) :
    Effect m (exec (x >>= f) m) := by
  rw [exec_bind, hx]
  cases r with
  | error e => exact .refused m e
  | ok a => exact hf a rfl

theorem effect_get {f : Machine → Calc Unit} (h : Effect m (exec (f m) m)) :
    Effect m (exec (get >>= f) m) := by
  rwa [exec_get_bind]

/-- Two steps with effects, one after the other. -/
theorem effect_seq {x : Calc Unit} {f : Unit → Calc Unit} (hx : Effect m (exec x m))
    (hf : ∀ n, exec x m = (.ok (), n) → Effect n (exec (f ()) n)) :
    Effect m (exec (x >>= f) m) := by
  rw [exec_bind]
  cases h : exec x m with
  | mk r n =>
    rw [h] at hx
    cases r with
    | error e => exact hx
    | ok _ => exact .andThen hx (hf n h)

/-! ## 2. Replacements -/

theorem effect_commit {plan : Except Error (Nat × List Operand)}
    (enough : ∀ consumed results, plan = .ok (consumed, results) → consumed ≤ m.stack.size)
    (made : Yields (fun p => p.2 ≠ [] ∧ ∀ o ∈ p.2, m.Supplies o) plan) :
    Effect m (m.commit plan) := by
  unfold Machine.commit
  split
  · exact .refused m _
  · rename_i consumed results
    obtain ⟨some, made⟩ := made _ rfl
    split
    · rename_i room
      exact .replaced consumed results (enough consumed results rfl) room some made
    · exact .refused m _

theorem made_topOperands (m : Machine) (count : Nat) : ∀ o ∈ m.topOperands count, m.Supplies o := by
  intro o ho
  obtain ⟨e, he, rfl⟩ := List.mem_map.mp ho
  exact .given ⟨e, List.mem_of_mem_take (List.mem_reverse.mp he), rfl⟩

/-- A step that applies an operation with one result to the top entries. The result is computed
from the operands, unless it is deferred, and no operand is converted to an expression. -/
def Applies (x : Calc Unit) (op : String) (arity : Nat) : Prop :=
  ∃ s f, x = applyTop op arity s f ∧ f.Computes ∧ s.Concrete ∧ Deferrable op

theorem Applies.does {x : Calc Unit} {op : String} {arity : Nat} (h : x.Applies op arity) :
    x.Does := by
  obtain ⟨s, f, rfl, hf, _, hop⟩ := h
  intro m
  rw [exec_applyTop]
  refine effect_commit (fun _ _ => applyPlan_enough) fun p hp => ?_
  obtain ⟨os, hos, hp⟩ := bind_eq_ok.mp hp
  obtain ⟨_, rfl⟩ := Machine.operands_eq_ok.mp hos
  obtain ⟨result, hresult, hp⟩ := bind_eq_ok.mp hp
  cases hp
  have made := Signature.made_apply hop hf.makes (made_topOperands m arity) result hresult
  exact ⟨List.cons_ne_nil _ _, List.forall_mem_singleton.mpr made⟩

theorem applies_unary {op : String} {s : Signature}
    {f : Settings → Operand → Except Error Operand}
    (hf : ∀ {S : Value → Prop} s a, S a.value → Yields (Operand.Computed S) (f s a))
    (hop : Deferrable op := by decide +kernel) (hs : s.Concrete := by decide) :
    (unary op s f).Applies op 1 := by
  refine ⟨s, _, rfl, fun S settings os h => ?_, hs, hop⟩
  dsimp only
  split
  · exact hf settings _ (h _ (by simp))
  · exact yields_error

theorem computes_ofPair {op : String} {f : Settings → Operand → Operand → Except Error Operand}
    (hf : ∀ {S : Value → Prop} s a b, S a.value → S b.value →
      Yields (Operand.Computed S) (f s a b)) : (ofPair op f).Computes := by
  intro S settings os h
  unfold ofPair
  split
  · exact hf settings _ _ (h _ (by simp)) (h _ (by simp))
  · exact yields_error

theorem applies_binary {op : String} {s : Signature}
    {f : Settings → Operand → Operand → Except Error Operand}
    (hf : ∀ {S : Value → Prop} s a b, S a.value → S b.value →
      Yields (Operand.Computed S) (f s a b))
    (hop : Deferrable op := by decide +kernel) (hs : s.Concrete := by decide) :
    (binary op s f).Applies op 2 :=
  ⟨s, _, rfl, computes_ofPair hf, hs, hop⟩

theorem applies_ternary {op : String} {s : Signature}
    {f : Settings → Operand → Operand → Operand → Except Error Operand}
    (hf : ∀ {S : Value → Prop} s a b c, Yields (Operand.Computed S) (f s a b c))
    (hop : Deferrable op := by decide +kernel) (hs : s.Concrete := by decide) :
    (ternary op s f).Applies op 3 := by
  refine ⟨s, _, rfl, fun S settings os _ => ?_, hs, hop⟩
  dsimp only
  split
  · exact hf settings _ _ _
  · exact yields_error

theorem does_applyTopMany {op : String} {arity : Nat} {s : Signature}
    {f : Settings → List Operand → Except Error (List Operand)}
    (hf : ∀ {S : Value → Prop} s os, (∀ o ∈ os, o.Made S) →
      Yields (fun rs => rs ≠ [] ∧ ∀ r ∈ rs, r.Made S) (f s os)) :
    (applyTopMany op arity s f).Does := by
  intro m
  rw [exec_applyTopMany]
  refine effect_commit (fun _ _ => applyManyPlan_enough) fun p hp => ?_
  obtain ⟨os, hos, hp⟩ := bind_eq_ok.mp hp
  obtain ⟨_, rfl⟩ := Machine.operands_eq_ok.mp hos
  obtain ⟨results, hresults, hp⟩ := bind_eq_ok.mp hp
  cases hp
  obtain ⟨resolved, hresolved, hresults⟩ := bind_eq_ok.mp hresults
  exact hf m.settings resolved
    (Signature.made_resolve (made_topOperands m arity) resolved hresolved) results hresults

theorem does_foldCounted {op : String} {s : Signature} {neutral : Scalar}
    {f : Settings → Operand → Operand → Except Error Operand}
    (hf : ∀ {S : Value → Prop} s a b, S a.value → S b.value →
      Yields (Operand.Computed S) (f s a b))
    (hop : Deferrable op := by decide +kernel) :
    (foldCounted op s (.scalar neutral) f).Does := by
  intro m
  rw [exec_foldCounted]
  refine effect_commit (fun _ _ => foldPlan_enough) fun p hp => ?_
  obtain ⟨n, _, hp⟩ := bind_eq_ok.mp hp
  obtain ⟨result, hresult, hp⟩ := bind_eq_ok.mp hp
  cases hp
  have os := fun o ho => made_topOperands m (n + 1) o (List.dropLast_subset _ ho)
  refine ⟨List.cons_ne_nil _ _, List.forall_mem_singleton.mpr ?_⟩
  unfold foldLeft at hresult
  split at hresult
  · cases hresult
    exact .scalar neutral
  · rename_i o rest heq
    rw [heq] at os
    refine yields_foldlM (fun a b ha hb => ?_) rest o (os o (by simp))
      (fun p hp => os p (List.mem_cons_of_mem _ hp)) result hresult
    exact Signature.made_apply hop (computes_ofPair hf).makes (by simp [ha, hb])

/-- Pushing an operand is replacing nothing by it. -/
theorem effect_pushOperand {o : Operand} (ho : m.Supplies o) :
    Effect m (exec (pushOperand o) m) := by
  simp only [pushOperand, pushEntry, exec_bind, exec_get, exec_liftStack, Stack.push]
  cases room : m.stack.requireRoom 0 1 with
  | error fault => exact .refused m _
  | ok _ =>
    exact .replaced 0 [o] (Nat.zero_le _) room (List.cons_ne_nil _ _)
      (List.forall_mem_singleton.mpr ho)

theorem effect_replaceTop {consumed : Nat} {results : List Operand}
    (enough : consumed ≤ m.stack.size) (some : results ≠ []) (made : ∀ o ∈ results, m.Supplies o) :
    Effect m (exec (replaceTop consumed results) m) := by
  rw [exec_replaceTop consumed results m enough]
  exact effect_commit (fun _ _ h => by cases h; exact enough) (yields_ok.mpr ⟨some, made⟩)

end Calc

/-! ## 3. Rearrangements -/

namespace Stack.Rearranged

variable {s t u : Stack}

theorem trans (h : s.Rearranged t) (h' : t.Rearranged u) : s.Rearranged u where
  kept e he := h.kept e (h'.kept e he)
  limit := h'.limit.trans h.limit
  room := by
    rcases h'.room with small | fits
    · rcases h.room with small' | fits
      · exact .inl (Nat.le_trans small small')
      · exact .inr fun n hn => Nat.le_trans small (fits n (h'.limit.symm.trans hn))
    · exact .inr fits

/-- Entries of a stack, and no more than there are, are a rearrangement. -/
theorem of_entries {entries : List Entry} (kept : ∀ e ∈ entries, e ∈ s.entries)
    (fewer : entries.length ≤ s.entries.length) : s.Rearranged (s.withEntries entries) :=
  ⟨kept, rfl, .inl fewer⟩

/-- Entries at the bottom of a stack are a rearrangement of it. -/
theorem of_suffix {entries : List Entry} (h : entries <:+ s.entries) :
    s.Rearranged (s.withEntries entries) :=
  of_entries (fun _ he => h.subset he) h.length_le

theorem of_popMany {n : Nat} {popped : List Entry} (h : s.popMany n = .ok (popped, t)) :
    s.Rearranged t := by
  unfold popMany at h
  split at h
  · cases h
  · cases h
    exact of_suffix (List.drop_suffix n s.entries)

theorem of_push {e : Entry} (he : e ∈ s.entries) (h : s.push e = .ok t) : s.Rearranged t := by
  obtain ⟨_, room, h⟩ := bind_eq_ok.mp h
  cases h
  refine ⟨fun x hx => ?_, rfl, .inr fun n hn => ?_⟩
  · rcases List.mem_cons.mp hx with rfl | hx
    · exact he
    · exact hx
  · exact Stack.requireRoom_eq_ok.mp room n hn

theorem of_dup (h : s.dup = .ok t) : s.Rearranged t := by
  unfold dup at h
  split at h
  · rename_i e es hs
    exact of_push (by simp [hs]) h
  · cases h

theorem of_drop (h : s.drop = .ok t) : s.Rearranged t := by
  unfold drop at h
  split at h
  · rename_i hs
    cases h
    exact of_entries (by simp +contextual [hs]) (by simp [hs])
  · cases h

theorem of_swap (h : s.swap = .ok t) : s.Rearranged t := by
  unfold swap at h
  split at h
  · rename_i hs
    cases h
    exact of_entries (by simp +contextual [hs]) (by simp [hs])
  · cases h

theorem of_rot (h : s.rot = .ok t) : s.Rearranged t := by
  unfold rot at h
  split at h
  · rename_i hs
    cases h
    exact of_entries (by simp +contextual [hs]) (by simp [hs])
  · cases h

theorem of_copySecond (h : s.copySecond = .ok t) : s.Rearranged t := by
  unfold copySecond at h
  split at h
  · rename_i hs
    exact of_push (by simp [hs]) h
  · cases h

theorem level_mem {n : Nat} {e : Entry} (h : s.level? n = some e) :
    n - 1 < s.entries.length ∧ e ∈ s.entries := by
  unfold level? at h
  split at h
  · cases h
  · exact ⟨(List.getElem?_eq_some_iff.mp h).1, List.mem_of_getElem? h⟩

theorem of_pick {n : Nat} (h : s.pick n = .ok t) : s.Rearranged t := by
  unfold pick at h
  split at h
  · rename_i hs
    exact of_push (level_mem hs).2 h
  · cases h

theorem of_roll {n : Nat} (h : s.roll n = .ok t) : s.Rearranged t := by
  unfold roll at h
  split at h
  · rename_i hs
    obtain ⟨hn, he⟩ := level_mem hs
    cases h
    refine of_entries (fun x hx => ?_) ?_
    · rcases List.mem_cons.mp hx with rfl | hx
      · exact he
      · exact List.mem_of_mem_eraseIdx hx
    · rw [List.length_cons, List.length_eraseIdx_of_lt hn]
      omega
  · cases h

end Stack.Rearranged

namespace Calc

variable {m : Machine}

theorem does_rearrange {f : Stack → Except StackFault Stack}
    (hf : ∀ s t, f s = .ok t → s.Rearranged t) : (rearrange f).Does := by
  intro m
  refine effect_get (effect_read (exec_liftStack m _) fun t ht => ?_)
  exact .rearranged t (hf _ t (mapError_eq_ok.mp ht))

/-! ## 4. Settings -/

/-- Settings are changed if they are valid and the stack keeps their limit, and nothing happens
otherwise. -/
theorem exec_changeSettings (f : Settings → Settings) (m : Machine) :
    (∃ e, exec (changeSettings f) m = (.error e, m)) ∨
      (f m.settings).Valid ∧ (∀ n, (f m.settings).stackLimit = some n → m.stack.size ≤ n) ∧
        exec (changeSettings f) m = (.ok (), m.configured (f m.settings)) := by
  rw [changeSettings, exec_get_bind]
  dsimp only
  split
  · exact .inl ⟨_, rfl⟩
  · rename_i faultless
    have valid : (f m.settings).Valid := Option.eq_none_iff_forall_not_mem.mpr faultless
    split
    · rename_i n hn
      split
      · exact .inl ⟨_, rfl⟩
      · rename_i room
        refine .inr ⟨valid, fun k hk => ?_, rfl⟩
        cases hn.symm.trans hk
        exact Nat.not_lt.mp room
    · rename_i unlimited
      exact .inr ⟨valid, fun n hn => absurd hn (unlimited n), rfl⟩

/-- A change of how entries are shown and stored. -/
theorem does_changeSettings {f : Settings → Settings}
    (hf : ∀ s, ∃ style modes, f s = { s with style, modes }) : (changeSettings f).Does := by
  intro m
  obtain ⟨style, modes, h⟩ := hf m.settings
  rcases exec_changeSettings f m with ⟨e, he⟩ | ⟨valid, room, he⟩
  · rw [he]
    exact .refused m e
  · rw [h] at valid room he
    rw [he]
    exact .configured style modes valid room

/-! ## 5. Snapshots -/

theorem exec_undo (m : Machine) : exec undo m =
    match m.history.pop? with
    | none => (.error (.stack .nothingToUndo), m)
    | some (entries, history) =>
      (.ok (), { m with history }.withStack (m.stack.withEntries entries)) := by
  rw [undo, exec_get_bind]
  cases m.history.pop? with
  | none => rfl
  | some _ => rfl

end Calc
end StackCalc
