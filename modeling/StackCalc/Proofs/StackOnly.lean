import StackCalc.Proofs.Evaluator

/-! # Operations that change the stack only

All operations but undo, those that change settings and those on names do nothing to the settings,
the variables and the history, whether they fail or not. -/

namespace StackCalc

open Calc

/-! ## 1. Steps that change the stack only -/

namespace Machine

/-- The settings, the variables and the history are the same. -/
structure StackOnly (m n : Machine) : Prop where
  settings : n.settings = m.settings
  scopes : n.scopes = m.scopes
  history : n.history = m.history

theorem StackOnly.refl (m : Machine) : m.StackOnly m := ⟨rfl, rfl, rfl⟩

theorem StackOnly.trans {m n k : Machine} (h : m.StackOnly n) (h' : n.StackOnly k) :
    m.StackOnly k :=
  ⟨h'.settings.trans h.settings, h'.scopes.trans h.scopes, h'.history.trans h.history⟩

theorem stackOnly_commit (m : Machine) (plan : Except Error (Nat × List Operand)) :
    m.StackOnly (m.commit plan).2 := by
  unfold commit
  split
  · exact .refl m
  · split
    · exact ⟨rfl, rfl, rfl⟩
    · exact .refl m

end Machine

namespace Calc

variable {α β : Type}

/-- A step that changes nothing but the stack and the flags. -/
def StackOnly (x : Calc α) : Prop := ∀ m : Machine, m.StackOnly (exec x m).2

theorem StackOnly.bind {x : Calc α} {f : α → Calc β} (hx : x.StackOnly)
    (hf : ∀ a, (f a).StackOnly) : (x >>= f).StackOnly := by
  intro m
  rw [exec_bind]
  have first := hx m
  cases h : exec x m with
  | mk r n =>
    rw [h] at first
    cases r with
    | error e => exact first
    | ok a => exact first.trans (hf a n)

/-- A step that only reads the state. -/
theorem stackOnly_of_read {x : Calc α} (h : ∀ m, ∃ r, exec x m = (r, m)) : x.StackOnly := by
  intro m
  obtain ⟨r, hr⟩ := h m
  rw [hr]
  exact .refl m

theorem stackOnly_get : (get : Calc Machine).StackOnly := stackOnly_of_read fun _ => ⟨_, rfl⟩

theorem stackOnly_lift (r : Except Error α) : (lift r).StackOnly :=
  stackOnly_of_read fun m => ⟨_, exec_lift m r⟩

theorem stackOnly_rearrange (f : Stack → Except StackFault Stack) : (rearrange f).StackOnly :=
  stackOnly_get.bind fun _ => .bind (stackOnly_lift _) fun _ _ => ⟨rfl, rfl, rfl⟩

theorem stackOnly_pushOperand (o : Operand) : (pushOperand o).StackOnly := by
  refine stackOnly_get.bind fun k m => ?_
  rcases exec_pushEntry (k.entryOf o) m with ⟨fault, h⟩ | ⟨_, h⟩
  · rw [h]
    exact .refl m
  · rw [h]
    exact ⟨rfl, rfl, rfl⟩

theorem stackOnly_replaceTop (consumed : Nat) (results : List Operand) :
    (replaceTop consumed results).StackOnly := by
  intro m
  rcases exec_replaceTop_cases consumed results m with ⟨e, h⟩ | ⟨_, _, h⟩
  · rw [h]
    exact .refl m
  · rw [h]
    exact ⟨rfl, rfl, rfl⟩

/-- A step that carries out a plan. -/
theorem stackOnly_of_commit {x : Calc Unit} {plan : Machine → Except Error (Nat × List Operand)}
    (h : ∀ m, exec x m = m.commit (plan m)) : x.StackOnly := by
  intro m
  rw [h m]
  exact m.stackOnly_commit _

theorem Applies.stackOnly {x : Calc Unit} {op : String} {arity : Nat} (h : x.Applies op arity) :
    x.StackOnly := by
  obtain ⟨s, f, rfl, _⟩ := h
  exact stackOnly_of_commit (exec_applyTop op arity s f)

end Calc

/-! ## 2. The operations -/

/-- An operation that changes nothing but the stack and the flags. -/
def Operation.StackOnly (op : Operation) : Prop :=
  ∃ run, op.action = .primitive run ∧ run.StackOnly

namespace Catalogue

/-- The operations that change settings. -/
def setters : List Operation := modes.filter fun op => op.results = 0

theorem stackOnly_collect : collect.StackOnly := by
  refine .bind (stackOnly_of_read fun m => ⟨_, exec_countedOperands _ m⟩) fun os => ?_
  refine .bind (stackOnly_of_read fun m => ?_) fun _ => ?_
  · exact exec_forIn_read (fun (o : Operand) => ⟨_, exec_lift m (o.unit.requireSame _)⟩) os
  · exact stackOnly_get.bind fun _ => .bind (stackOnly_lift _) fun _ => stackOnly_replaceTop _ _

theorem stackOnly_byLevel (op : String) (f : Nat → Stack → Except StackFault Stack) :
    (byLevel op f).StackOnly :=
  .bind (stackOnly_of_read fun m => ⟨_, exec_level op m⟩) fun _ => stackOnly_rearrange _

/-- The operations on operands that take or give other numbers of entries than most. -/
def irregular : List Operation := onOperands.filter fun op => ¬ (0 < op.arity ∧ op.results = 1)

theorem stackOnly_irregular : ∀ op ∈ irregular, op.StackOnly := by
  have listed : irregular = [splitComplex, sum, product, toList, fromList, pi, now] := rfl
  simp only [listed, List.forall_mem_cons]
  exact ⟨⟨_, rfl, stackOnly_of_commit (exec_applyTopMany _ _ _ _)⟩,
    ⟨_, rfl, stackOnly_of_commit (exec_foldCounted _ _ _ _)⟩,
    ⟨_, rfl, stackOnly_of_commit (exec_foldCounted _ _ _ _)⟩, ⟨_, rfl, stackOnly_collect⟩,
    ⟨_, rfl, stackOnly_of_commit (exec_applyTopMany _ _ _ _)⟩,
    ⟨_, rfl, stackOnly_get.bind fun _ => stackOnly_replaceTop _ _⟩,
    ⟨_, rfl, stackOnly_get.bind fun _ => stackOnly_replaceTop _ _⟩, List.forall_mem_nil _⟩

theorem stackOnly_onOperands : ∀ op ∈ onOperands, op.StackOnly := by
  intro op hop
  by_cases single : 0 < op.arity ∧ op.results = 1
  · obtain ⟨run, hrun, applies⟩ := (onOperands_all op hop).single single.1 single.2
    exact ⟨run, hrun, applies.stackOnly⟩
  · exact stackOnly_irregular op (List.mem_filter.mpr ⟨hop, decide_eq_true single⟩)

theorem stackOnly_rearrangements : ∀ op ∈ rearrangements, op.StackOnly ∨ op = undo := by
  simp only [rearrangements, List.forall_mem_cons]
  exact ⟨.inl ⟨_, rfl, stackOnly_rearrange _⟩, .inl ⟨_, rfl, stackOnly_rearrange _⟩,
    .inl ⟨_, rfl, stackOnly_rearrange _⟩, .inl ⟨_, rfl, stackOnly_rearrange _⟩,
    .inl ⟨_, rfl, stackOnly_rearrange _⟩, .inl ⟨_, rfl, stackOnly_byLevel _ _⟩,
    .inl ⟨_, rfl, stackOnly_byLevel _ _⟩,
    .inl ⟨_, rfl, stackOnly_get.bind fun _ => stackOnly_pushOperand _⟩,
    .inl ⟨_, rfl, stackOnly_rearrange _⟩, .inr trivial, List.forall_mem_nil _⟩

/-- The operations on modes that change no settings query the flags. -/
theorem stackOnly_modes : ∀ op ∈ modes, op.StackOnly ∨ op ∈ setters := by
  intro op hop
  by_cases silent : op.results = 0
  · exact .inr (List.mem_filter.mpr ⟨hop, decide_eq_true silent⟩)
  · have query : op ∈ modes.filter fun op => ¬ op.results = 0 :=
      List.mem_filter.mpr ⟨hop, decide_eq_true silent⟩
    have pushFlags : ∀ op ∈ [zeroFlag, carryFlag, overflowFlag, signFlag], op.StackOnly := by
      simp only [List.forall_mem_cons]
      exact ⟨⟨_, rfl, stackOnly_get.bind fun _ => stackOnly_pushOperand _⟩,
        ⟨_, rfl, stackOnly_get.bind fun _ => stackOnly_pushOperand _⟩,
        ⟨_, rfl, stackOnly_get.bind fun _ => stackOnly_pushOperand _⟩,
        ⟨_, rfl, stackOnly_get.bind fun _ => stackOnly_pushOperand _⟩, List.forall_mem_nil _⟩
    exact .inl (pushFlags op query)

end Catalogue

/-- Every operation but undo, the ones that change settings, and the ones on names changes nothing
but the stack and the flags. -/
theorem stackOnly_operations : ∀ op ∈ Registry.operations, op.StackOnly ∨ op = Catalogue.undo ∨
    op ∈ Catalogue.setters ∨ op ∈ Catalogue.references := by
  intro op hop
  have cases : op ∈ Catalogue.onOperands ∨ op ∈ Catalogue.rearrangements ∨
      op ∈ Catalogue.modes ∨ op ∈ Catalogue.references := by
    simp only [Registry.operations, Catalogue.onOperands, List.mem_append] at hop ⊢
    grind
  rcases cases with h | h | h | h
  · exact .inl (Catalogue.stackOnly_onOperands op h)
  · exact (Catalogue.stackOnly_rearrangements op h).imp_right .inl
  · exact (Catalogue.stackOnly_modes op h).imp_right fun h => .inr (.inl h)
  · exact .inr (.inr (.inr h))

end StackCalc
