import StackCalc.Proofs.Effect

/-! # The effects of the catalogue

Every primitive operation does nothing but the effects of `Effect`. The families of operations come
first, each with what it computes from canonical operands, and then the operations, module by
module. -/

namespace StackCalc

open Catalogue

namespace Catalogue

/-! ## 1. Functions of operands -/

theorem applies_testEqual (op : String) (wanted : Bool) (hop : Deferrable op := by decide +kernel) :
    (testEqual op wanted).Applies op 2 :=
  Calc.applies_binary (fun _ _ _ _ _ => by simp) hop

theorem applies_testOrder (op : String) (test : Ordering → Bool)
    (hop : Deferrable op := by decide +kernel) : (testOrder op test).Applies op 2 :=
  Calc.applies_binary (fun _ _ _ _ _ => by simp) hop

theorem applies_onInteger (op : String) (f : Settings → Int → Except Error Int)
    (hop : Deferrable op := by decide +kernel) : (onInteger op f).Applies op 1 :=
  Calc.applies_unary (fun _ _ _ => by simp [Value.integer]) hop

theorem applies_onIntegers (op : String) (f : Settings → Int → Int → Except Error Int)
    (hop : Deferrable op := by decide +kernel) : (onIntegers op f).Applies op 2 :=
  Calc.applies_binary (fun _ _ _ _ _ => by simp [Value.integer]) hop

theorem applies_bitwise (op : String) (f : Int → Int → Int)
    (hop : Deferrable op := by decide +kernel) : (bitwise op f).Applies op 2 :=
  applies_onIntegers op _ hop

theorem applies_exactPart (op : String) (part : Int × Int → Int)
    (hop : Deferrable op := by decide +kernel) : (exactPart op part).Applies op 1 :=
  Calc.applies_unary (fun _ _ _ => by simp [Value.integer]) hop

theorem applies_onValue {op : String} {s : Signature} {f : Settings → Value → Except Error Value}
    (hf : ∀ {S : Value → Prop} s v, S v → Yields (Value.Computed S) (f s v))
    (hop : Deferrable op := by decide +kernel) (hs : s.Concrete := by decide) :
    (onValue op s f).Applies op 1 := by
  refine Calc.applies_unary (fun s a ha => ?_) hop hs
  simpa only [yields_bind, yields_pure, Operand.computed_mk] using hf s a.value ha

theorem applies_rounding (op : String) (mode : RoundingMode)
    (hop : Deferrable op := by decide +kernel) : (rounding op mode).Applies op 1 :=
  applies_onValue (fun _ _ _ => Value.computed_round) hop

theorem applies_function (op : String) (real : Settings → MPFloat → Except Error Scalar)
    (complex : Complex → Except Error Complex) (hop : Deferrable op := by decide +kernel) :
    (function op real complex).Applies op 1 := by
  refine Calc.applies_unary (fun s a _ => ?_) hop
  simp only [yields_bind]
  intro _ _
  split <;> simp [Value.complex]

theorem applies_timeOf (op : String) (absolute : Bool) (hop : Deferrable op := by decide +kernel) :
    (timeOf op absolute).Applies op 1 :=
  Calc.applies_unary (fun _ _ _ => by simp) hop

/-! ## 2. Steps of their own -/

theorem does_collect : collect.Does := by
  intro m
  refine Calc.effect_read (Calc.exec_countedOperands _ m) fun os hos => ?_
  obtain ⟨n, hn, hos⟩ := bind_eq_ok.mp hos
  cases hos
  have enough := Machine.counted_le hn
  obtain ⟨checked, hchecked⟩ := Calc.exec_forIn_read
    (fun (o : Operand) => ⟨_, Calc.exec_lift m (o.unit.requireSame _)⟩) _
  refine Calc.effect_read hchecked fun _ _ => Calc.effect_get ?_
  refine Calc.effect_read (Calc.exec_lift m _) fun list hlist =>
    Calc.effect_replaceTop ?_ (List.cons_ne_nil _ _) ?_
  · rw [List.length_dropLast, Machine.length_topOperands enough]
    exact enough
  · refine List.forall_mem_singleton.mpr (Value.Made.ofItems (fun v hv => ?_) hlist)
    obtain ⟨o, ho, rfl⟩ := List.mem_map.mp hv
    exact Calc.made_topOperands m (n + 1) o (List.dropLast_subset _ ho)

/-- The level on top of the stack, which an operation requires to lie below it. -/
def levelOf (op : String) (m : Machine) : Except Error Nat := do
  let n ← (← (m.stack.peek 0).mapError .stack).value.toIndex "level"
  if n = 0 then throw (.stack (.levelZero op))
  let needed ← Word.nat64.hold (n + 1)
  m.checkArgs op needed.toNat
  return n

theorem exec_level (op : String) (m : Machine) : (level op).exec m = (levelOf op m, m) := by
  refine Calc.exec_bind_read (Calc.exec_top m) fun e => ?_
  refine Calc.exec_bind_read (Calc.exec_lift m _) fun n => ?_
  by_cases zero : n = 0
  · rw [if_pos zero, if_pos zero]
    rfl
  · rw [if_neg zero, if_neg zero]
    refine Calc.exec_bind_read (Calc.exec_lift m _) fun needed => ?_
    exact Calc.exec_bind_read (Calc.exec_requireArgs op _ m) fun _ => rfl

theorem does_byLevel {op : String} {f : Nat → Stack → Except StackFault Stack}
    (hf : ∀ n s t, f n s = .ok t → s.Rearranged t) : (byLevel op f).Does := by
  intro m
  refine Calc.effect_read (exec_level op m) fun n _ => Calc.does_rearrange (fun s t h => ?_) m
  obtain ⟨u, hu, h⟩ := bind_eq_ok.mp h
  exact (Stack.Rearranged.of_drop hu).trans (hf n u t h)

theorem does_restyle (f : NumberStyle → NumberStyle) : (restyle f).Does :=
  Calc.does_changeSettings fun s => ⟨f s.style, s.modes, rfl⟩

theorem does_remode (f : DisplayModes → DisplayModes) : (remode f).Does :=
  Calc.does_changeSettings fun s => ⟨s.style, f s.modes, rfl⟩

theorem does_restyleByTop (op : String) (f : NumberStyle → Nat → NumberStyle) :
    (restyleByTop op f).Does := by
  intro m
  refine Calc.effect_read (Calc.exec_top m) fun e _ => ?_
  refine Calc.effect_read (Calc.exec_lift m _) fun _ _ => ?_
  refine Calc.effect_read (Calc.exec_lift m _) fun n _ => ?_
  split
  · exact .refused m _
  · refine Calc.effect_seq (does_restyle _ m) fun n _ => ?_
    exact Calc.does_rearrange (fun _ _ => Stack.Rearranged.of_drop) n

theorem does_pushFlag (flag : Flags → Bool) : (pushFlag flag).Does := fun _ =>
  Calc.effect_get (Calc.effect_pushOperand (.scalar _))

theorem exec_boundEntry (name : String) (m : Machine) :
    (boundEntry name).exec m = (match m.scopes.get? name with
      | some e => .ok e
      | none => .error (.invalidArgument (.undefinedVariable name)), m) := by
  rw [boundEntry, Calc.exec_get_bind]
  cases m.scopes.get? name <;> rfl

theorem drop_of_pop {s t : Stack} {e : Entry} (h : s.pop = .ok (e, t)) : s.drop = .ok t := by
  unfold Stack.pop at h
  unfold Stack.drop
  split at h
  · cases h
    simp_all
  · cases h

theorem does_recallTop : recallTop.Does := by
  intro m
  refine Calc.effect_read (Calc.exec_top m) fun e _ => ?_
  refine Calc.effect_read (Calc.exec_lift m _) fun name _ => ?_
  refine Calc.effect_read (exec_boundEntry name m) fun bound hbound => Calc.effect_get ?_
  refine Calc.effect_read (Calc.exec_liftStack m _) fun ⟨top, below⟩ hpop => ?_
  have hbound : m.scopes.get? name = some bound := by
    split at hbound
    · rename_i h
      cases hbound
      exact h
    · cases hbound
  have dropped : m.stack.Rearranged below :=
    Stack.Rearranged.of_drop (drop_of_pop (mapError_eq_ok.mp hpop))
  simp only [Calc.exec_bind, Calc.exec_modify, Calc.pushEntry, Calc.exec_get, Calc.exec_liftStack,
    Stack.push]
  -- The name is off the stack by the time that room is found missing, so a failure shows.
  cases room : below.requireRoom 0 1 with
  | error fault => exact .failed (.stack fault) below dropped
  | ok _ => exact .andThen (.rearranged below dropped) (.pushed name bound hbound room)

theorem does_purgeTop : purgeTop.Does := by
  intro m
  refine Calc.effect_read (Calc.exec_top m) fun e _ => ?_
  refine Calc.effect_read (Calc.exec_lift m _) fun name _ => ?_
  refine Calc.effect_read (exec_boundEntry name m) fun _ _ => ?_
  refine Calc.effect_seq (Calc.does_rearrange (fun _ _ => Stack.Rearranged.of_drop) m) fun n _ => ?_
  exact .unbound name

/-! ## 3. The operations -/

end Catalogue

/-- An action that, if it is a step of the machine, has no effects but the listed ones. -/
def Action.Does : Action → Prop
  | .primitive run => run.Does
  | _ => True

/-- An operation that computes one result from as many operands as its arity says. -/
def Operation.Applies (op : Operation) : Prop :=
  ∃ run, op.action = .primitive run ∧ run.Applies op.name op.minArgs

/-- An operation that computes one result from its operands, or one with the listed effects that
takes or gives other numbers of entries. -/
inductive Operation.OnOperands (op : Operation) : Prop
  | applies {run : Calc Unit} (h : op.action = .primitive run)
      (ha : run.Applies op.name op.minArgs)
  | other (h : op.action.Does) (counts : op.arity ≤ 0 ∨ op.results ≠ 1 := by decide)

namespace Operation.OnOperands

variable {op : Operation}

theorem does (h : op.OnOperands) : op.action.Does := by
  cases h with
  | applies h ha =>
    rw [h]
    exact ha.does
  | other h _ => exact h

theorem single (h : op.OnOperands) (arity : 0 < op.arity) (results : op.results = 1) :
    op.Applies := by
  cases h with
  | applies h ha => exact ⟨_, h, ha⟩
  | other _ counts => exact absurd results (counts.resolve_left (Int.not_le.mpr arity))

end Operation.OnOperands

namespace Catalogue

variable {S : Value → Prop}

theorem onOperands_numeric : ∀ op ∈ numeric, op.OnOperands := by
  simp only [numeric, List.forall_mem_cons]
  exact ⟨.applies rfl (Calc.applies_binary fun _ _ _ _ _ => Operand.computed_add),
    .applies rfl (Calc.applies_binary fun _ _ _ _ _ => Operand.computed_sub),
    .applies rfl (Calc.applies_binary fun _ _ _ _ _ => Operand.computed_mul),
    .applies rfl (Calc.applies_binary fun _ _ _ _ _ => Operand.computed_div),
    .applies rfl (Calc.applies_unary fun _ _ _ => Operand.computed_neg),
    .applies rfl (Calc.applies_unary fun _ _ _ => Operand.computed_inv),
    .applies rfl (Calc.applies_unary fun _ _ _ => Operand.computed_abs),
    .applies rfl (Calc.applies_unary fun _ _ _ => Operand.computed_mul),
    .applies rfl (Calc.applies_unary fun _ _ _ => Operand.computed_sqrt),
    .applies rfl (Calc.applies_binary fun _ _ _ _ _ => Operand.computed_pow),
    .applies rfl (Calc.applies_binary fun _ _ _ _ _ => Operand.computed_modulo),
    .applies rfl (Calc.applies_binary fun _ _ _ _ _ => Operand.computed_floorDiv),
    .applies rfl (Calc.applies_binary fun _ _ _ ha hb =>
      Operand.computed_extreme (.given ha) (.given hb)),
    .applies rfl (Calc.applies_binary fun _ _ _ ha hb =>
      Operand.computed_extreme (.given ha) (.given hb)),
    .applies rfl (applies_testEqual _ _), .applies rfl (applies_testEqual _ _),
    .applies rfl (applies_testOrder _ _), .applies rfl (applies_testOrder _ _),
    .applies rfl (applies_testOrder _ _), .applies rfl (applies_testOrder _ _),
    List.forall_mem_nil _⟩

theorem onOperands_integers : ∀ op ∈ integers, op.OnOperands := by
  simp only [integers, List.forall_mem_cons]
  exact ⟨.applies rfl (applies_onIntegers _ _), .applies rfl (applies_onIntegers _ _),
    .applies rfl (applies_onIntegers _ _),
    .applies rfl (Calc.applies_ternary fun _ _ _ _ => by simp [Value.integer]),
    .applies rfl (applies_onInteger _ _), .applies rfl (applies_onIntegers _ _),
    .applies rfl (applies_onIntegers _ _), .applies rfl (applies_exactPart _ _),
    .applies rfl (applies_exactPart _ _), .applies rfl (applies_bitwise _ _),
    .applies rfl (applies_bitwise _ _), .applies rfl (applies_bitwise _ _),
    .applies rfl (applies_onInteger _ _), .applies rfl (applies_onIntegers _ _),
    .applies rfl (applies_onIntegers _ _), List.forall_mem_nil _⟩

theorem computed_exactValue {v : Value} (h : v.Computed S) :
    Yields (Value.Computed S) (exactValue v) := by
  unfold exactValue
  split
  · simp [Value.rational]
  · simpa using h

theorem computed_floatValue {s : Settings} {v : Value} :
    Yields (Value.Computed S) (floatValue s v) := by
  unfold floatValue
  split <;> simp [Value.float]

theorem computed_joinParts {s : Settings} {a b : Operand} :
    Yields (Operand.Computed S) (joinParts s a b) := by
  simp only [joinParts, yields_bind]
  intro unit _
  split <;> simp [Value.complex]

theorem made_splitParts {s : Settings} {os : List Operand} :
    Yields (fun rs => rs ≠ [] ∧ ∀ r ∈ rs, r.Made S) (splitParts s os) := by
  unfold splitParts
  split <;> simp [Value.float]

theorem computed_realPart {v : Value} (h : v.Computed S) : (realPart v).Computed S := by
  unfold realPart
  split
  · simp [Value.float]
  · exact h

theorem computed_imaginaryPart (v : Value) : (imaginaryPart v).Computed S := by
  unfold imaginaryPart
  split <;> simp [Value.float, Value.integer]

theorem computed_conjugate {v : Value} (h : v.Computed S) : (conjugate v).Computed S := by
  unfold conjugate
  split
  · simp [Value.complex]
  · exact h

theorem computed_angleOf {s : Settings} {v : Value} : Yields (Value.Computed S) (angleOf s v) := by
  unfold angleOf
  split
  · simp [Value.float]
  · rw [yields_ok]
    (repeat' split) <;> simp [Value.float, Value.integer]

theorem onOperands_conversions : ∀ op ∈ conversions, op.OnOperands := by
  simp only [conversions, List.forall_mem_cons]
  exact ⟨.applies rfl (applies_onValue fun _ _ h => computed_exactValue (.given h)),
    .applies rfl (applies_onValue fun _ _ _ => computed_floatValue),
    .applies rfl (applies_onValue fun _ _ h => yields_ok.mpr (.given h)),
    .applies rfl (Calc.applies_binary fun _ _ _ _ _ => computed_joinParts),
    .other (Calc.does_applyTopMany fun _ _ _ => made_splitParts),
    .applies rfl (applies_rounding _ _),
    .applies rfl (applies_onValue fun _ _ _ => Value.computed_fractionPart),
    .applies rfl (applies_rounding _ _), .applies rfl (applies_rounding _ _),
    .applies rfl (applies_rounding _ _),
    .applies rfl (applies_onValue fun _ _ h => yields_ok.mpr (computed_realPart (.given h))),
    .applies rfl (applies_onValue fun _ v _ => yields_ok.mpr (computed_imaginaryPart v)),
    .applies rfl (applies_onValue fun _ _ h => yields_ok.mpr (computed_conjugate (.given h))),
    .applies rfl (Calc.applies_unary fun _ _ _ => by simp [computed_angleOf]),
    List.forall_mem_nil _⟩

theorem computed_identityOf {a : Operand} : Yields (Operand.Computed S) (identityOf a) := by
  simp only [identityOf, yields_bind]
  intro _ _ n _
  split <;> simp

theorem computed_sizeOf (v : Value) : (sizeOf v).Computed S := by
  unfold sizeOf
  split
  · exact .scalar _
  · exact .shape _ _
  · exact .scalar _

theorem made_explode {s : Settings} {os : List Operand} (h : ∀ o ∈ os, o.Made S) :
    Yields (fun rs => rs ≠ [] ∧ ∀ r ∈ rs, r.Made S) (explode s os) := by
  unfold explode
  split
  · rename_i k items unit
    have hl : (Value.list k items).Made S := h _ (List.mem_singleton.mpr rfl)
    rw [yields_ok]
    refine ⟨by simp, fun r hr => ?_⟩
    rcases List.mem_append.mp hr with hr | hr
    · obtain ⟨v, hv, rfl⟩ := List.mem_map.mp hr
      exact .element hl hv
    · rw [List.mem_singleton.mp hr]
      exact .scalar _
  · exact yields_error

theorem onOperands_aggregates : ∀ op ∈ aggregates, op.OnOperands := by
  simp only [aggregates, List.forall_mem_cons]
  exact ⟨.applies rfl (Calc.applies_unary fun _ _ _ => by simp),
    .applies rfl (Calc.applies_unary fun _ _ _ => by simp),
    .applies rfl (Calc.applies_unary fun _ _ _ => computed_identityOf),
    .other (Calc.does_foldCounted fun _ _ _ _ _ => Operand.computed_add),
    .other (Calc.does_foldCounted fun _ _ _ _ _ => Operand.computed_mul),
    .other does_collect, .other (Calc.does_applyTopMany fun _ _ => made_explode),
    .applies rfl (Calc.applies_unary fun _ a _ => yields_ok.mpr (computed_sizeOf a.value)),
    List.forall_mem_nil _⟩

theorem does_rearrangements : ∀ op ∈ rearrangements, op = undo ∨ op.action.Does := by
  simp only [rearrangements, List.forall_mem_cons]
  exact ⟨.inr (Calc.does_rearrange fun _ _ => .of_dup),
    .inr (Calc.does_rearrange fun _ _ => .of_drop),
    .inr (Calc.does_rearrange fun _ _ => .of_swap),
    .inr (Calc.does_rearrange fun _ _ => .of_copySecond),
    .inr (Calc.does_rearrange fun _ _ => .of_rot), .inr (does_byLevel fun _ _ _ => .of_pick),
    .inr (does_byLevel fun _ _ _ => .of_roll),
    .inr fun _ => Calc.effect_get (Calc.effect_pushOperand (Value.made_scalar _)),
    .inr (Calc.does_rearrange fun s _ h => by cases h; exact .of_entries (by simp) (Nat.zero_le _)),
    .inl trivial, List.forall_mem_nil _⟩

theorem does_modes : ∀ op ∈ modes, op.action.Does := by
  simp only [modes, List.forall_mem_cons]
  exact ⟨does_restyle _, does_restyle _, does_restyle _, does_restyle _, does_restyleByTop _ _,
    does_restyleByTop _ _, does_restyle _, does_restyle _, does_restyleByTop _ _, does_remode _,
    does_remode _, does_remode _, does_remode _, does_remode _, does_remode _, does_remode _,
    does_pushFlag _, does_pushFlag _, does_pushFlag _, does_pushFlag _, List.forall_mem_nil _⟩

theorem does_references : ∀ op ∈ references, op.action.Does := by
  simp only [references, List.forall_mem_cons]
  exact ⟨trivial, does_recallTop, does_purgeTop, trivial, trivial, List.forall_mem_nil _⟩

theorem onOperands_analysis : ∀ op ∈ analysis, op.OnOperands := by
  simp only [analysis, List.forall_mem_cons]
  exact ⟨.applies rfl (applies_function _ _ _), .applies rfl (applies_function _ _ _),
    .applies rfl (applies_function _ _ _), .applies rfl (applies_function _ _ _),
    .applies rfl (applies_function _ _ _), .applies rfl (applies_function _ _ _),
    .other fun _ => Calc.effect_get (Calc.effect_replaceTop (Nat.zero_le _) (List.cons_ne_nil _ _)
      (by simp [Value.float])),
    List.forall_mem_nil _⟩

theorem computed_secondsOf {a : Operand} : Yields (Operand.Computed S) (secondsOf a) := by
  unfold secondsOf
  split <;> simp [Value.rational]

theorem onOperands_instants : ∀ op ∈ instants, op.OnOperands := by
  simp only [instants, List.forall_mem_cons]
  exact ⟨.other fun _ => Calc.effect_get (Calc.effect_replaceTop (Nat.zero_le _)
      (List.cons_ne_nil _ _) (by simp)),
    .applies rfl (applies_timeOf _ _), .applies rfl (applies_timeOf _ _),
    .applies rfl (Calc.applies_unary fun _ _ _ => computed_secondsOf),
    List.forall_mem_nil _⟩

/-- The operations on operands. -/
def onOperands : List Operation :=
  numeric ++ integers ++ conversions ++ aggregates ++ analysis ++ instants

theorem onOperands_all : ∀ op ∈ onOperands, op.OnOperands := by
  simp only [onOperands, List.forall_mem_append]
  exact ⟨⟨⟨⟨⟨onOperands_numeric, onOperands_integers⟩, onOperands_conversions⟩,
    onOperands_aggregates⟩, onOperands_analysis⟩, onOperands_instants⟩

end Catalogue

/-- Every operation but undo that is a step of the machine has no effects but the listed ones. -/
theorem does_operations : ∀ op ∈ Registry.operations, op = Catalogue.undo ∨ op.action.Does := by
  have operands {ops : List Operation} (h : ∀ op ∈ ops, op.OnOperands) :
      ∀ op ∈ ops, op = Catalogue.undo ∨ op.action.Does := fun op hop => .inr (h op hop).does
  have other {ops : List Operation} (h : ∀ op ∈ ops, op.action.Does) :
      ∀ op ∈ ops, op = Catalogue.undo ∨ op.action.Does := fun op hop => .inr (h op hop)
  simp only [Registry.operations, List.forall_mem_append]
  exact ⟨⟨⟨⟨⟨⟨⟨⟨operands Catalogue.onOperands_numeric, operands Catalogue.onOperands_integers⟩,
    operands Catalogue.onOperands_conversions⟩, operands Catalogue.onOperands_aggregates⟩,
    Catalogue.does_rearrangements⟩, other Catalogue.does_modes⟩, other Catalogue.does_references⟩,
    operands Catalogue.onOperands_analysis⟩, operands Catalogue.onOperands_instants⟩

/-! ## 4. Operations that leave no snapshot -/

/-- An operation that leaves a snapshot, undo, or a change of how entries are shown and stored. -/
inductive Operation.Accounted (op : Operation) : Prop
  | recorded (h : op.recorded = true)
  | undo (h : op = Catalogue.undo)
  | restyled (f : NumberStyle → NumberStyle) (h : op.action = .primitive (Catalogue.restyle f))
  | remoded (f : DisplayModes → DisplayModes) (h : op.action = .primitive (Catalogue.remode f))

theorem accounted_modes : ∀ op ∈ Catalogue.modes, op.Accounted := by
  simp only [Catalogue.modes, List.forall_mem_cons]
  exact ⟨.restyled _ rfl, .restyled _ rfl, .restyled _ rfl, .restyled _ rfl, .recorded rfl,
    .recorded rfl, .restyled _ rfl, .restyled _ rfl, .recorded rfl, .remoded _ rfl, .remoded _ rfl,
    .remoded _ rfl, .remoded _ rfl, .remoded _ rfl, .remoded _ rfl, .remoded _ rfl, .recorded rfl,
    .recorded rfl, .recorded rfl, .recorded rfl, List.forall_mem_nil _⟩

/-- Every operation but undo that may change the stack leaves a snapshot. -/
theorem accounted_operations : ∀ op ∈ Registry.operations, op.Accounted := by
  have recorded {ops : List Operation} (h : ops.all Operation.recorded = true) :
      ∀ op ∈ ops, op.Accounted := fun op hop => .recorded (List.all_eq_true.mp h op hop)
  have rearrangements : ∀ op ∈ Catalogue.rearrangements, op.Accounted := by
    simp only [Catalogue.rearrangements, List.forall_mem_cons]
    exact ⟨.recorded rfl, .recorded rfl, .recorded rfl, .recorded rfl, .recorded rfl,
      .recorded rfl, .recorded rfl, .recorded rfl, .recorded rfl, .undo rfl, List.forall_mem_nil _⟩
  simp only [Registry.operations, List.forall_mem_append]
  exact ⟨⟨⟨⟨⟨⟨⟨⟨recorded (by decide), recorded (by decide)⟩, recorded (by decide)⟩,
    recorded (by decide)⟩, rearrangements⟩, accounted_modes⟩, recorded (by decide)⟩,
    recorded (by decide)⟩, recorded (by decide)⟩

end StackCalc
