import StackCalc.Proofs.Isolation

/-! # Stacks without expressions

Computing never makes an expression, and names are expressions, so operations leave stacks without
expressions as they are in this respect. Only undo brings others back, and only a list that is taken
apart may give expressions away, with the number of its elements above them. -/

namespace StackCalc

open Calc Evaluator

/-! ## 1. Steps -/

namespace Machine

variable {m : Machine}

theorem OnConcrete.topOperands (hm : m.OnConcrete) (count : Nat) :
    ∀ o ∈ m.topOperands count, o.Concrete := by
  intro o ho
  obtain ⟨e, he, rfl⟩ := List.mem_map.mp ho
  exact hm e (List.mem_of_mem_take (List.mem_reverse.mp he))

theorem OnConcrete.replaced (hm : m.OnConcrete) {consumed : Nat} {results : List Operand}
    (h : ∀ o ∈ results, o.Concrete) : (m.replaced consumed results).OnConcrete := by
  intro e he
  rcases List.mem_append.mp he with new | old
  · obtain ⟨o, ho, rfl⟩ := List.mem_map.mp (List.mem_reverse.mp new)
    exact (Operand.concrete_stored _ o).mpr (h o ho)
  · exact hm e (List.mem_of_mem_drop old)

theorem OnConcrete.commit (hm : m.OnConcrete) {plan : Except Error (Nat × List Operand)}
    (h : Yields (fun p => ∀ o ∈ p.2, o.Concrete) plan) : (m.commit plan).2.OnConcrete := by
  unfold Machine.commit
  split
  · exact hm
  · split
    · exact hm.replaced (h _ rfl)
    · exact hm

theorem OnConcrete.rearranged (hm : m.OnConcrete) {n : Machine}
    (h : m.stack.Rearranged n.stack) : n.OnConcrete :=
  fun e he => hm e (h.kept e he)

end Machine

namespace Calc

variable {α β : Type}

/-- A step that leaves a stack without expressions, whether it fails or not. -/
def KeepsConcrete (x : Calc α) : Prop := ∀ m : Machine, m.OnConcrete → (exec x m).2.OnConcrete

theorem KeepsConcrete.bind {x : Calc α} {f : α → Calc β} (hx : x.KeepsConcrete)
    (hf : ∀ a, (f a).KeepsConcrete) : (x >>= f).KeepsConcrete := by
  intro m hm
  rw [exec_bind]
  have first := hx m hm
  cases h : exec x m with
  | mk r n =>
    rw [h] at first
    cases r with
    | error e => exact first
    | ok a => exact hf a n first

theorem keepsConcrete_of_read {x : Calc α} (h : ∀ m, ∃ r, exec x m = (r, m)) :
    x.KeepsConcrete := by
  intro m hm
  obtain ⟨r, hr⟩ := h m
  rw [hr]
  exact hm

theorem keepsConcrete_get : (get : Calc Machine).KeepsConcrete :=
  keepsConcrete_of_read fun _ => ⟨_, rfl⟩

theorem keepsConcrete_lift (r : Except Error α) : (lift r).KeepsConcrete :=
  keepsConcrete_of_read fun m => ⟨_, exec_lift m r⟩

theorem keepsConcrete_rearrange {f : Stack → Except StackFault Stack}
    (hf : ∀ s t, f s = .ok t → s.Rearranged t) : (rearrange f).KeepsConcrete := by
  intro m hm
  rw [rearrange, exec_get_bind, exec_bind, exec_liftStack]
  cases h : f m.stack with
  | error fault => exact hm
  | ok t => exact hm.rearranged (hf _ t h)

theorem keepsConcrete_pushOperand {o : Operand} (ho : o.Concrete) :
    (pushOperand o).KeepsConcrete := by
  refine keepsConcrete_get.bind fun k m hm => ?_
  rcases exec_pushEntry (k.entryOf o) m with ⟨fault, h⟩ | ⟨_, h⟩
  · rw [h]
    exact hm
  · rw [h]
    exact List.forall_mem_cons.mpr ⟨(Operand.concrete_stored _ o).mpr ho, hm⟩

theorem keepsConcrete_replaceTop (consumed : Nat) {o : Operand} (ho : o.Concrete) :
    (replaceTop consumed [o]).KeepsConcrete := by
  intro m hm
  rcases exec_replaceTop_cases consumed [o] m with ⟨e, h⟩ | ⟨_, _, h⟩
  · rw [h]
    exact hm
  · rw [h]
    exact hm.replaced (List.forall_mem_singleton.mpr ho)

theorem keepsConcrete_changeSettings (f : Settings → Settings) :
    (changeSettings f).KeepsConcrete := by
  intro m hm
  rcases exec_changeSettings f m with ⟨e, h⟩ | ⟨_, _, h⟩
  · rw [h]
    exact hm
  · rw [h]
    exact hm

theorem Applies.keepsConcrete {x : Calc Unit} {op : String} {arity : Nat} (h : x.Applies op arity) :
    x.KeepsConcrete := by
  obtain ⟨s, f, rfl, hf, hs, _⟩ := h
  intro m hm
  rw [exec_applyTop]
  refine hm.commit fun p hp => ?_
  obtain ⟨os, hos, hp⟩ := bind_eq_ok.mp hp
  obtain ⟨_, rfl⟩ := Machine.operands_eq_ok.mp hos
  obtain ⟨result, hresult, hp⟩ := bind_eq_ok.mp hp
  cases hp
  exact List.forall_mem_singleton.mpr
    (Signature.concrete_apply hs hf (hm.topOperands arity) result hresult)

theorem keepsConcrete_foldCounted {op : String} {s : Signature} {neutral : Scalar}
    {f : Settings → Operand → Operand → Except Error Operand} (hs : s.Concrete)
    (hf : ∀ {S : Value → Prop} s a b, S a.value → S b.value →
      Yields (Operand.Computed S) (f s a b)) :
    (foldCounted op s (.scalar neutral) f).KeepsConcrete := by
  intro m hm
  rw [exec_foldCounted]
  refine hm.commit fun p hp => ?_
  obtain ⟨n, _, hp⟩ := bind_eq_ok.mp hp
  obtain ⟨result, hresult, hp⟩ := bind_eq_ok.mp hp
  cases hp
  have os := fun o ho => hm.topOperands (n + 1) o (List.dropLast_subset _ ho)
  refine List.forall_mem_singleton.mpr ?_
  unfold foldLeft at hresult
  split at hresult
  · cases hresult
    exact Value.concrete_scalar neutral
  · rename_i o rest heq
    rw [heq] at os
    refine yields_foldlM (fun a b ha hb => ?_) rest o (os o (by simp))
      (fun p hp => os p (List.mem_cons_of_mem _ hp)) result hresult
    exact Signature.concrete_apply hs (computes_ofPair hf) (by simp [ha, hb])

end Calc

/-! ## 2. The operations -/

/-- An operation that is a step of the machine and leaves a stack without expressions. -/
def Operation.KeepsConcrete (op : Operation) : Prop :=
  ∃ run, op.action = .primitive run ∧ run.KeepsConcrete

namespace Catalogue

theorem keepsConcrete_collect : collect.KeepsConcrete := by
  refine .bind (keepsConcrete_of_read fun m => ⟨_, exec_countedOperands _ m⟩) fun os => ?_
  refine .bind (keepsConcrete_of_read fun m => ?_) fun _ => ?_
  · exact exec_forIn_read (fun (o : Operand) => ⟨_, exec_lift m (o.unit.requireSame _)⟩) os
  · refine keepsConcrete_get.bind fun k m hm => ?_
    rw [exec_bind, exec_lift]
    cases h : Value.ofItems k.settings.style.precision (os.map Operand.value) with
    | error e => exact hm
    | ok list =>
      have concrete : list.Concrete := Value.concrete_ofItems list h
      exact keepsConcrete_replaceTop _ (o := ⟨list, _⟩) concrete m hm

theorem keepsConcrete_splitComplex :
    (applyTopMany "c->r" 1 complexes.strict splitParts).KeepsConcrete := by
  intro m hm
  rw [exec_applyTopMany]
  refine hm.commit fun p hp => ?_
  obtain ⟨os, _, hp⟩ := bind_eq_ok.mp hp
  obtain ⟨results, hresults, hp⟩ := bind_eq_ok.mp hp
  obtain ⟨resolved, _, hresults⟩ := bind_eq_ok.mp hresults
  cases hp
  unfold splitParts at hresults
  split at hresults
  · cases hresults
    exact List.forall_mem_cons.mpr ⟨Value.concrete_scalar _,
      List.forall_mem_singleton.mpr (Value.concrete_scalar _)⟩
  · cases hresults

theorem keepsConcrete_byLevel {op : String} {f : Nat → Stack → Except StackFault Stack}
    (hf : ∀ n s t, f n s = .ok t → s.Rearranged t) : (byLevel op f).KeepsConcrete := by
  refine .bind (keepsConcrete_of_read fun m => ⟨_, exec_level op m⟩) fun n => ?_
  refine keepsConcrete_rearrange fun s t h => ?_
  obtain ⟨u, hu, h⟩ := bind_eq_ok.mp h
  exact (Stack.Rearranged.of_drop hu).trans (hf n u t h)

theorem keepsConcrete_restyleByTop (op : String) (f : NumberStyle → Nat → NumberStyle) :
    (restyleByTop op f).KeepsConcrete := by
  refine .bind (keepsConcrete_of_read fun m => ⟨_, exec_top m⟩) fun e => ?_
  refine .bind (keepsConcrete_lift _) fun _ => .bind (keepsConcrete_lift _) fun n => ?_
  split
  · exact fun m hm => hm
  · exact .bind (keepsConcrete_changeSettings _) fun _ =>
      keepsConcrete_rearrange fun _ _ => .of_drop

theorem keepsConcrete_pushFlag (flag : Flags → Bool) : (pushFlag flag).KeepsConcrete :=
  keepsConcrete_get.bind fun _ => keepsConcrete_pushOperand (Value.concrete_scalar _)

theorem keepsConcrete_irregular : ∀ op ∈ irregular, op.KeepsConcrete ∨ op = fromList := by
  have listed : irregular = [splitComplex, sum, product, toList, fromList, pi, now] := rfl
  simp only [listed, List.forall_mem_cons]
  exact ⟨.inl ⟨_, rfl, keepsConcrete_splitComplex⟩,
    .inl ⟨_, rfl, keepsConcrete_foldCounted (by decide) fun _ _ _ _ _ => Operand.computed_add⟩,
    .inl ⟨_, rfl, keepsConcrete_foldCounted (by decide) fun _ _ _ _ _ => Operand.computed_mul⟩,
    .inl ⟨_, rfl, keepsConcrete_collect⟩, .inr trivial,
    .inl ⟨_, rfl, keepsConcrete_get.bind fun _ =>
      keepsConcrete_replaceTop _ (Value.concrete_scalar _)⟩,
    .inl ⟨_, rfl, keepsConcrete_get.bind fun _ => keepsConcrete_replaceTop _ nofun⟩,
    List.forall_mem_nil _⟩

theorem keepsConcrete_onOperands : ∀ op ∈ onOperands, op.KeepsConcrete ∨ op = fromList := by
  intro op hop
  by_cases single : 0 < op.arity ∧ op.results = 1
  · obtain ⟨run, hrun, applies⟩ := (onOperands_all op hop).single single.1 single.2
    exact .inl ⟨run, hrun, applies.keepsConcrete⟩
  · exact keepsConcrete_irregular op (List.mem_filter.mpr ⟨hop, decide_eq_true single⟩)

theorem keepsConcrete_rearrangements : ∀ op ∈ rearrangements, op.KeepsConcrete ∨ op = undo := by
  simp only [rearrangements, List.forall_mem_cons]
  exact ⟨.inl ⟨_, rfl, keepsConcrete_rearrange fun _ _ => .of_dup⟩,
    .inl ⟨_, rfl, keepsConcrete_rearrange fun _ _ => .of_drop⟩,
    .inl ⟨_, rfl, keepsConcrete_rearrange fun _ _ => .of_swap⟩,
    .inl ⟨_, rfl, keepsConcrete_rearrange fun _ _ => .of_copySecond⟩,
    .inl ⟨_, rfl, keepsConcrete_rearrange fun _ _ => .of_rot⟩,
    .inl ⟨_, rfl, keepsConcrete_byLevel fun _ _ _ => .of_pick⟩,
    .inl ⟨_, rfl, keepsConcrete_byLevel fun _ _ _ => .of_roll⟩,
    .inl ⟨_, rfl, keepsConcrete_get.bind fun _ =>
      keepsConcrete_pushOperand (Value.concrete_scalar _)⟩,
    .inl ⟨_, rfl, keepsConcrete_rearrange fun _ _ h => by
      cases h
      exact .of_entries (List.forall_mem_nil _) (Nat.zero_le _)⟩,
    .inr trivial, List.forall_mem_nil _⟩

theorem keepsConcrete_modes : ∀ op ∈ modes, op.KeepsConcrete := by
  have mode (f : Settings → Settings) : (changeSettings f).KeepsConcrete :=
    keepsConcrete_changeSettings f
  simp only [modes, List.forall_mem_cons]
  exact ⟨⟨_, rfl, mode _⟩, ⟨_, rfl, mode _⟩, ⟨_, rfl, mode _⟩, ⟨_, rfl, mode _⟩,
    ⟨_, rfl, keepsConcrete_restyleByTop _ _⟩, ⟨_, rfl, keepsConcrete_restyleByTop _ _⟩,
    ⟨_, rfl, mode _⟩, ⟨_, rfl, mode _⟩, ⟨_, rfl, keepsConcrete_restyleByTop _ _⟩,
    ⟨_, rfl, mode _⟩, ⟨_, rfl, mode _⟩, ⟨_, rfl, mode _⟩, ⟨_, rfl, mode _⟩, ⟨_, rfl, mode _⟩,
    ⟨_, rfl, mode _⟩, ⟨_, rfl, mode _⟩, ⟨_, rfl, keepsConcrete_pushFlag _⟩,
    ⟨_, rfl, keepsConcrete_pushFlag _⟩, ⟨_, rfl, keepsConcrete_pushFlag _⟩,
    ⟨_, rfl, keepsConcrete_pushFlag _⟩, List.forall_mem_nil _⟩

/-- A list that is taken apart has the number of its elements on top. -/
theorem fromList_top {m n : Machine}
    (run : exec (applyTopMany "list->" 1 lists explode) m = (.ok (), n)) {e : Entry}
    {below : List Entry} (top : n.stack.entries = e :: below) : e.value.Concrete := by
  rw [exec_applyTopMany] at run
  unfold Machine.commit at run
  split at run
  · cases run
  rename_i consumed results hplan
  split at run
  · obtain ⟨os, _, hplan⟩ := bind_eq_ok.mp hplan
    obtain ⟨exploded, hresults, hplan⟩ := bind_eq_ok.mp hplan
    obtain ⟨resolved, _, hresults⟩ := bind_eq_ok.mp hresults
    cases hplan
    cases run
    unfold explode at hresults
    split at hresults
    · cases hresults
      rw [Machine.replaced] at top
      simp only [Stack.withEntries, List.map_append, List.reverse_append, List.map_singleton,
        List.reverse_singleton, List.cons_append, List.nil_append] at top
      rw [← (List.cons.inj top).1]
      exact (Operand.concrete_stored _ (.plain (.integer _))).mpr (Value.concrete_scalar _)
    · cases hresults
  · cases run

end Catalogue

/-- Every operation but undo that leaves a single entry on a stack without expressions leaves none
there. -/
theorem concrete_of_single {evaluate : Expr → Calc Operand} {op : Operation}
    (hop : op ∈ Registry.operations) (notUndo : op ≠ Catalogue.undo) {m n : Machine}
    (hm : m.OnConcrete) (run : exec (runAction evaluate op.action) m = (.ok (), n)) {e : Entry}
    (single : n.stack.entries = [e]) : e.value.Concrete := by
  have member : e ∈ n.stack.entries := single ▸ List.mem_singleton_self e
  have cases : op.KeepsConcrete ∨ op = Catalogue.fromList ∨ op ∈ Catalogue.references := by
    have groups : op ∈ Catalogue.onOperands ∨ op ∈ Catalogue.rearrangements ∨
        op ∈ Catalogue.modes ∨ op ∈ Catalogue.references := by
      simp only [Registry.operations, Catalogue.onOperands, List.mem_append] at hop ⊢
      grind
    rcases groups with h | h | h | h
    · exact (Catalogue.keepsConcrete_onOperands op h).imp_right .inl
    · exact .inl ((Catalogue.keepsConcrete_rearrangements op h).resolve_right notUndo)
    · exact .inl (Catalogue.keepsConcrete_modes op h)
    · exact .inr (.inr h)
  rcases cases with ⟨step, hstep, keeps⟩ | rfl | reference
  · rw [hstep] at run
    have after := keeps m hm
    rw [show exec step m = (.ok (), n) from run] at after
    exact after e member
  · exact Catalogue.fromList_top run single
  · obtain ⟨r, unchanged⟩ := exec_references evaluate hm op reference
    cases unchanged.symm.trans run
    exact hm e member

end StackCalc
