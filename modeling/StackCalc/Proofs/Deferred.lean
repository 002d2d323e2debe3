import Mathlib.Data.List.Nodup
import StackCalc.Proofs.Aggregates

/-! # Deferred aggregates

Variables may stand for operands of an aggregate, and be bound afterwards. What is left on the stack
is then an application for every operand from the first variable on, one in the other, and each of
them is evaluated as an aggregate of its own with the operand as the count. So the operands that
wait are not combined: they have to be one, all of them, and what comes out is what the operands
before them are combined to. -/

namespace StackCalc

open Calc Evaluator

/-! ## 1. Nested applications -/

/-- An expression gives an operand if more than so many levels are left and a condition holds, and
fails otherwise. -/
structure Expr.Comes (settings : Settings) (ρ : String → Option Operand) (e : Expr) (a : Operand)
    (depth : Nat) (ready : Prop) : Prop where
  gives : ∀ {levels : Nat}, depth < levels → ready → ∃ r, e.result settings ρ levels = .ok r ∧
    r.Concrete ∧ r.stored settings.style = a.stored settings.style
  fails : ∀ {levels : Nat}, ¬ (depth < levels ∧ ready) →
    ∃ fault, e.result settings ρ levels = .error fault

section
variable {settings : Settings} {ρ : String → Option Operand}

namespace Expr

/-- What gives a value with any level left. -/
theorem comes_of_result {e : Expr} {a r : Operand}
    (he : ∀ levels, e.result settings ρ (levels + 1) = .ok r) (concrete : r.Concrete)
    (same : r.stored settings.style = a.stored settings.style) :
    e.Comes settings ρ a 0 True where
  gives {levels} enough _ := by
    obtain ⟨k, rfl⟩ := Nat.exists_eq_add_one_of_ne_zero (Nat.ne_of_gt enough)
    exact ⟨r, he k, concrete, same⟩
  fails {levels} few := by
    cases levels with
    | zero => exact ⟨_, rfl⟩
    | succ k => exact absurd ⟨Nat.succ_pos k, trivial⟩ few

/-- A value as an argument. -/
theorem comes_argument {o : Operand} (concrete : o.Concrete) (unitless : o.Unitless) :
    o.argument.Comes settings ρ o 0 True := by
  have constant : o.argument = .const o.value.reduce := by
    rw [Operand.argument, ofValue_concrete concrete, Value.reduceExpr]
  refine comes_of_result (r := ⟨o.value.reduce, o.unit⟩) (fun levels => ?_)
    (o.value.concrete_reduce.mpr concrete) (Operand.stored_reduce settings.style o.value o.unit)
  rw [constant, result_const, unitless]
  rfl

variable {op : Operation} {s : Signature} {neutral : Value}
  {f : Settings → Operand → Operand → Except Error Operand} (h : op.Combines s neutral f)

include h

/-- An aggregate of an expression and a value gives what the expression does if the value is one. -/
theorem Comes.apply {e x : Expr} {a b : Operand} {depth : Nat} {ready : Prop}
    (he : e.Comes settings ρ a depth ready) (hx : x.Comes settings ρ b 0 True) :
    (Expr.apply op.name [e, x]).Comes settings ρ a (depth + 1)
      (ready ∧ (b.stored settings.style).value = .integer 1) := by
  -- with both arguments evaluated, the second one decides
  have applies {levels : Nat} {r y : Operand} (hr : e.result settings ρ levels = .ok r)
      (hy : x.result settings ρ levels = .ok y) (concrete : r.Concrete ∧ y.Concrete) :
      (Expr.apply op.name [e, x]).result settings ρ (levels + 1) =
        countedPair op.name (r.stored settings.style) (y.stored settings.style) := by
    rw [result_apply, List.mapM_cons, List.mapM_cons, hr, hy]
    show applied settings op.name [r, y] = _
    rw [applied_concrete (by simp [concrete]), h.outcome_pair]
  constructor
  · rintro levels enough ⟨isReady, one⟩
    obtain ⟨k, rfl⟩ := Nat.exists_eq_add_one_of_ne_zero (Nat.ne_of_gt (Nat.zero_lt_of_lt enough))
    have deeper : depth < k := Nat.lt_of_succ_lt_succ enough
    obtain ⟨r, hr, hr', same⟩ := he.gives deeper isReady
    obtain ⟨y, hy, hy', isOne⟩ := hx.gives (Nat.zero_lt_of_lt deeper) trivial
    refine ⟨r.stored settings.style, ?_, (Operand.concrete_stored _ r).mpr hr', ?_⟩
    · rw [applies hr hy ⟨hr', hy'⟩, countedPair_one (isOne ▸ one)]
    · rw [Operand.stored_stored, same]
  · intro levels refused
    cases levels with
    | zero => exact ⟨_, rfl⟩
    | succ k =>
      by_cases first : depth < k ∧ ready
      · obtain ⟨r, hr, hr', _⟩ := he.gives first.1 first.2
        obtain ⟨y, hy, hy', same⟩ := hx.gives (Nat.zero_lt_of_lt first.1) trivial
        rw [applies hr hy ⟨hr', hy'⟩]
        refine countedPair_other fun one => refused ⟨Nat.succ_lt_succ first.1, first.2, ?_⟩
        rw [← same]
        exact one
      · obtain ⟨fault, hfault⟩ := he.fails first
        refine ⟨fault, ?_⟩
        rw [result_apply, List.mapM_cons, hfault]
        rfl

/-- Applications one in the other give what the innermost expression does, if all values are one. -/
theorem Comes.nested {α : Type} {given value : α → Operand} {xs : List α}
    (each : ∀ x ∈ xs, (given x).argument.Comes settings ρ (value x) 0 True) :
    ∀ {e : Expr} {a : Operand} {depth : Nat} {ready : Prop}, e.Comes settings ρ a depth ready →
      (xs.foldl (fun e x => Expr.apply op.name [e, (given x).argument]) e).Comes settings ρ a
        (depth + xs.length)
        (ready ∧ ∀ x ∈ xs, ((value x).stored settings.style).value = .integer 1) := by
  induction xs with
  | nil =>
    intro e a depth ready he
    simpa using he
  | cons x xs ih =>
    intro e a depth ready he
    obtain ⟨hx, hxs⟩ := List.forall_mem_cons.mp each
    have rest := ih hxs (he.apply h hx)
    rw [List.foldl_cons, List.length_cons, List.forall_mem_cons, ← and_assoc]
    rw [Nat.add_right_comm] at rest
    exact rest

end Expr

namespace Operand

variable {name : String}

/-- An operation that waits with one operand after the other holds nested applications. -/
theorem argument_waitingAll {α : Type} (given : α → Operand) (xs : List α) (a : Operand) :
    (waitingAll name (xs.map given) a).argument =
      xs.foldl (fun e x => .apply name [e, (given x).argument]) a.argument := by
  induction xs generalizing a with
  | nil => rfl
  | cons x xs ih => exact ih (waiting name [a, given x])

theorem unitless_waitingAll {os : List Operand} {a : Operand} (ha : a.Unitless) :
    (waitingAll name os a).Unitless := by
  induction os generalizing a with
  | nil => exact ha
  | cons o os ih => exact ih rfl

theorem residual_waitingAll (op : Computes name 2) {names : List String} {os : List Operand}
    (hos : ∀ o ∈ os, o.Residual names) {a : Operand} (ha : a.Residual names) :
    (waitingAll name os a).Residual names := by
  induction os generalizing a with
  | nil => exact ha
  | cons o os ih =>
    obtain ⟨ho, hos⟩ := List.forall_mem_cons.mp hos
    exact ih hos (residual_waiting (List.cons_ne_nil _ _) op (by simp [ha, ho]))

end Operand

end

/-! ## 2. Items -/

/-- A value to be combined. A variable may stand for it at first. -/
structure Item where
  value : Value
  name? : Option String := none

namespace Item

/-- The item without variable. -/
def bare (i : Item) : Item := ⟨i.value, none⟩

def instruction (i : Item) : Instruction :=
  match i.name? with
  | none => .number i.value .none
  | some name => .symbolic (.var name)

/-- What comes on the stack for an item. -/
def entry (style : NumberStyle) (i : Item) : Entry :=
  match i.name? with
  | none => .store i.value .none style
  | some name => .store (.symbolic (.var name)) .none style

def operand (style : NumberStyle) (i : Item) : Operand := (i.entry style).operand

/-- The instructions that combine items. -/
def combining (op : Operation) (items : List Item) : List Instruction :=
  items.map instruction ++ [.number (.integer items.length) .none, .keyword op.name]

/-- The bindings of the variables. -/
def bindings (items : List Item) : List Binding :=
  items.filterMap fun i => i.name?.map fun name => ⟨name, i.value, .none⟩

/-- The first item, and if it is a value the values that follow it. -/
def leading : List Item → List Item
  | [] => []
  | i :: is => i :: if i.name?.isSome then [] else is.takeWhile fun j => j.name?.isNone

/-- The other items. The first one of them has a variable, or the first item of all has. -/
def trailing : List Item → List Item
  | [] => []
  | i :: is => if i.name?.isSome then is else is.dropWhile fun j => j.name?.isNone

/-- The items that wait are one, and not too many to be nested. -/
def Ready (items : List Item) : Prop :=
  (trailing items).length < maxNesting ∧ ∀ i ∈ trailing items, i.value.reduce = .integer 1

theorem leading_append_trailing (items : List Item) : leading items ++ trailing items = items := by
  cases items with
  | nil => rfl
  | cons i is =>
    rw [leading, trailing]
    split
    · rfl
    · exact congrArg (i :: ·) List.takeWhile_append_dropWhile

theorem mem_of_leading {items : List Item} {i : Item} (h : i ∈ leading items) : i ∈ items :=
  leading_append_trailing items ▸ List.mem_append_left _ h

theorem mem_of_trailing {items : List Item} {i : Item} (h : i ∈ trailing items) : i ∈ items :=
  leading_append_trailing items ▸ List.mem_append_right _ h

/-- The leading items are values and followed by a variable, if by anything, or they are one item
with a variable. -/
theorem leading_cases {items : List Item} (some : items ≠ []) :
    ((∀ i ∈ leading items, i.name? = none) ∧ ∀ i ∈ (trailing items).head?, i.name? ≠ none) ∨
      ∃ i ∈ items, i.name? ≠ none ∧ leading items = [i] := by
  obtain ⟨i, is, rfl⟩ := List.exists_cons_of_ne_nil some
  rw [leading, trailing]
  cases named : i.name? with
  | none =>
    rw [if_neg (by simp), if_neg (by simp)]
    refine .inl ⟨List.forall_mem_cons.mpr ⟨named, fun j hj => ?_⟩, fun j hj => ?_⟩
    · simpa using List.all_eq_true.mp List.all_takeWhile j hj
    · have stopped := List.head?_dropWhile_not (fun j : Item => j.name?.isNone) is
      rw [Option.mem_def.mp hj] at stopped
      have waits : j.name?.isNone = false := stopped
      exact Option.isSome_iff_ne_none.mp (by simpa using waits)
  | some name => exact .inr ⟨i, List.mem_cons_self, by simp [named], rfl⟩

variable {style : NumberStyle} {i : Item}

theorem operand_value (h : i.name? = none) :
    i.operand style = (Operand.plain i.value).stored style := by
  rw [operand, entry, h]
  rfl

theorem operand_variable {name : String} (h : i.name? = some name) :
    i.operand style = .plain (.symbolic (.var name)) := by
  rw [operand, entry, h]
  rfl

theorem unitless_operand : (i.operand style).Unitless := by
  cases h : i.name? with
  | none =>
    rw [operand_value h]
    rfl
  | some name =>
    rw [operand_variable h]
    rfl

theorem not_concrete_of_variable (h : i.name? ≠ none) : ¬ (i.operand style).Concrete := by
  obtain ⟨name, named⟩ := Option.ne_none_iff_exists'.mp h
  rw [operand_variable named]
  exact fun concrete => concrete rfl

theorem bare_of_value (h : i.name? = none) : i.bare = i := by
  obtain ⟨v, name?⟩ := i
  cases h
  rfl

theorem operand_bare : i.bare.operand style = (Operand.plain i.value).stored style :=
  operand_value rfl

theorem concrete_bare (h : i.value.Concrete) : (i.bare.operand style).Concrete := by
  rw [operand_bare, Operand.concrete_stored]
  exact h

end Item

/-! ## 3. Combining items -/

section
variable {op : Operation} {s : Signature} {neutral : Value}
  {f : Settings → Operand → Operand → Except Error Operand} (h : op.Combines s neutral f)
  {settings : Settings}

/-- What items are combined to. -/
def Item.combined (op : Operation) (s : Signature) (neutral : Value)
    (f : Settings → Operand → Operand → Except Error Operand) (settings : Settings)
    (items : List Item) : Except Error Operand :=
  foldLeft (op.combine s f settings) neutral (items.map (Item.operand settings.style))

include h

/-- Values are combined to a value. -/
theorem Item.combined_values {items : List Item} (some : items ≠ [])
    (concrete : ∀ i ∈ items, i.value.Concrete) :
    Yields (fun r => r.Concrete ∧ r.Unitless)
      (Item.combined op s neutral f settings (items.map Item.bare)) := by
  obtain ⟨i, is, rfl⟩ := List.exists_cons_of_ne_nil some
  have given : ∀ j ∈ i :: is, (j.bare.operand settings.style).Concrete ∧
      (j.bare.operand settings.style).Unitless := fun j hj =>
    ⟨Item.concrete_bare (concrete j hj), Item.unitless_operand⟩
  refine h.foldlM_concrete (given i List.mem_cons_self) ?_
  simpa using fun j hj => given j (List.mem_cons_of_mem i hj)

/-- What the leading items are combined to, and what their values are combined to. -/
theorem Item.combined_leading (settings : Settings) {items : List Item} (some : items ≠ [])
    (concrete : ∀ i ∈ items, i.value.Concrete) :
    let leading := Item.combined op s neutral f settings (Item.leading items)
    let values := Item.combined op s neutral f settings ((Item.leading items).map Item.bare)
    (leading = values ∧ Yields (fun r => r.Concrete ∧ r.Unitless) values ∧
        ∀ i ∈ (Item.trailing items).head?, i.name? ≠ none) ∨
      ∃ i ∈ items, i.name? ≠ none ∧ leading = .ok (i.operand settings.style) ∧
        values = .ok (i.bare.operand settings.style) := by
  intro leading values
  rcases Item.leading_cases some with ⟨unnamed, followed⟩ | ⟨i, hi, named, single⟩
  · have bare : (Item.leading items).map Item.bare = Item.leading items :=
      List.map_congr_left (fun i hi => Item.bare_of_value (unnamed i hi)) |>.trans (List.map_id _)
    have nonempty : Item.leading items ≠ [] := by
      obtain ⟨i, is, rfl⟩ := List.exists_cons_of_ne_nil some
      exact List.cons_ne_nil _ _
    refine .inl ⟨?_, ?_, followed⟩
    · show Item.combined op s neutral f settings _ = Item.combined op s neutral f settings _
      rw [bare]
    · exact Item.combined_values h nonempty fun i hi => concrete i (Item.mem_of_leading hi)
  · refine .inr ⟨i, hi, named, ?_, ?_⟩
    · show Item.combined op s neutral f settings _ = _
      rw [single]
      rfl
    · show Item.combined op s neutral f settings _ = _
      rw [single]
      rfl

/-- The leading items are combined, and the operation waits with the others. -/
theorem Item.combined_eq_waiting {items : List Item} (some : items ≠ [])
    (concrete : ∀ i ∈ items, i.value.Concrete) :
    Item.combined op s neutral f settings items =
      (Item.combined op s neutral f settings (Item.leading items)).map
        (.waitingAll op.name ((Item.trailing items).map (Item.operand settings.style))) := by
  have waits {a : Operand} (ha : a.Unitless) (symbolic : ∀ i ∈ (Item.trailing items).head?,
        ¬ (a.Concrete ∧ (i.operand settings.style).Concrete)) :
      ((Item.trailing items).map (Item.operand settings.style)).foldlM
        (op.combine s f settings) a = .ok (.waitingAll op.name
          ((Item.trailing items).map (Item.operand settings.style)) a) := by
    refine h.foldlM_waits ha (by simpa using fun i _ => Item.unitless_operand) fun o ho => ?_
    rw [List.head?_map] at ho
    obtain ⟨i, hi, rfl⟩ := Option.map_eq_some_iff.mp ho
    exact symbolic i hi
  have split : Item.combined op s neutral f settings items =
      (Item.combined op s neutral f settings (Item.leading items)) >>= fun a =>
        ((Item.trailing items).map (Item.operand settings.style)).foldlM
          (op.combine s f settings) a := by
    obtain ⟨i, is, rfl⟩ := List.exists_cons_of_ne_nil some
    obtain ⟨l, ls, hl⟩ : ∃ l ls, Item.leading (i :: is) = l :: ls := ⟨_, _, rfl⟩
    have whole : (i :: is).map (Item.operand settings.style) =
        (Item.leading (i :: is)).map (Item.operand settings.style) ++
          (Item.trailing (i :: is)).map (Item.operand settings.style) := by
      rw [← List.map_append, Item.leading_append_trailing]
    rw [Item.combined, Item.combined, whole, hl]
    exact List.foldlM_append
  rw [split]
  rcases Item.combined_leading h settings some concrete with
    ⟨same, values, followed⟩ | ⟨i, hi, named, single, _⟩
  · rw [same]
    cases hr : Item.combined op s neutral f settings ((Item.leading items).map Item.bare) with
    | error e => rfl
    | ok a =>
      obtain ⟨_, unitless⟩ := values a hr
      exact waits unitless fun j hj both =>
        Item.not_concrete_of_variable (followed j hj) both.2
  · rw [single]
    exact waits Item.unitless_operand fun _ _ both => Item.not_concrete_of_variable named both.1

end

/-! ## 4. Items in a session -/

namespace Item

/-- The variables of items. -/
def names (items : List Item) : List String := (bindings items).map Binding.name

variable {items : List Item} {i : Item} {style : NumberStyle}

theorem mem_bindings (hi : i ∈ items) {name : String} (named : i.name? = some name) :
    ⟨name, i.value, .none⟩ ∈ bindings items :=
  List.mem_filterMap.mpr ⟨i, hi, by rw [named]; rfl⟩

/-- Every variable stands for the value of its item. -/
theorem operand_bindings {s : Scopes} (globals : s.locals = []) (apart : (names items).Nodup)
    (hi : i ∈ items) {name : String} (named : i.name? = some name) :
    (s.bindAll style (bindings items)).operand? name = some (i.bare.operand style) := by
  have own := mem_bindings hi named
  rcases Scopes.get_bindAll globals style (bindings items) name with
    ⟨b, hb, same, bound⟩ | ⟨missing, _⟩
  · cases List.inj_on_of_nodup_map apart hb own same
    rw [Scopes.operand?, bound, operand_bare]
    rfl
  · exact absurd (List.mem_map.mpr ⟨_, own, rfl⟩) missing

theorem covers_bindings {s : Scopes} (globals : s.locals = []) (apart : (names items).Nodup)
    (concrete : ∀ i ∈ items, i.value.Concrete) :
    Covers (names items) (s.bindAll style (bindings items)).operand? := by
  intro x hx
  obtain ⟨b, hb, rfl⟩ := List.mem_map.mp hx
  obtain ⟨i, hi, hbound⟩ := List.mem_filterMap.mp hb
  obtain ⟨name, named, rfl⟩ := Option.map_eq_some_iff.mp hbound
  exact ⟨_, operand_bindings globals apart hi named, concrete_bare (concrete i hi)⟩

theorem residual_operand (hi : i ∈ items) (concrete : i.value.Concrete) :
    (i.operand style).Residual (names items) := by
  cases named : i.name? with
  | none =>
    rw [← bare_of_value named]
    exact (concrete_bare concrete).residual
  | some name =>
    rw [operand_variable named]
    rintro e ⟨⟩
    refine ⟨.var name, fun x hx => ?_⟩
    cases List.mem_singleton.mp hx
    exact List.mem_map.mpr ⟨_, mem_bindings hi named, rfl⟩

variable {settings : Settings}

/-- With the variables bound, every item gives its value. -/
theorem comes_operand {s : Scopes} (globals : s.locals = []) (apart : (names items).Nodup)
    (hi : i ∈ items) (concrete : i.value.Concrete) :
    (i.operand settings.style).argument.Comes settings
      (s.bindAll settings.style (bindings items)).operand? (i.bare.operand settings.style) 0
        True := by
  cases named : i.name? with
  | none =>
    rw [← bare_of_value named]
    exact Expr.comes_argument (concrete_bare concrete) unitless_operand
  | some name =>
    rw [operand_variable named]
    refine Expr.comes_of_result (r := i.bare.operand settings.style) (fun levels => ?_)
      (concrete_bare concrete) rfl
    show (Expr.var name).result settings _ (levels + 1) = _
    rw [Expr.result_var, operand_bindings globals apart hi named]
    rfl

/-- What the leading items are combined to gives what their values are combined to. -/
theorem combined_comes {op : Operation} {s : Signature} {neutral : Value}
    {f : Settings → Operand → Operand → Except Error Operand} (h : op.Combines s neutral f)
    (settings : Settings) {scopes : Scopes} (globals : scopes.locals = [])
    (apart : (names items).Nodup) (some : items ≠ []) (concrete : ∀ i ∈ items, i.value.Concrete) :
    let leading := combined op s neutral f settings (leading items)
    let values := combined op s neutral f settings ((Item.leading items).map bare)
    let ρ := (scopes.bindAll settings.style (bindings items)).operand?
    (∃ e, leading = .error e ∧ values = .error e) ∨
      ∃ a b, leading = .ok a ∧ values = .ok b ∧ a.Unitless ∧ a.Residual (names items) ∧
        a.argument.Comes settings ρ b 0 True := by
  intro leading values ρ
  rcases combined_leading h settings some concrete with
    ⟨same, computed, _⟩ | ⟨i, hi, _, single, value⟩
  · cases hr : values with
    | error e => exact .inl ⟨e, same.trans hr, rfl⟩
    | ok a =>
      obtain ⟨isConcrete, unitless⟩ := computed a hr
      exact .inr ⟨a, a, same.trans hr, rfl, unitless, isConcrete.residual,
        Expr.comes_argument isConcrete unitless⟩
  · exact .inr ⟨_, _, single, value, unitless_operand, residual_operand hi (concrete i hi),
      comes_operand globals apart hi (concrete i hi)⟩

/-- Evaluated as it is stored, the operation that waits gives what the leading items give if the
others are ready, and fails otherwise. -/
theorem result_waitingAll {op : Operation} {s : Signature} {neutral : Value}
    {f : Settings → Operand → Operand → Except Error Operand} (h : op.Combines s neutral f)
    {scopes : Scopes} (globals : scopes.locals = []) (apart : (names items).Nodup)
    (concrete : ∀ i ∈ items, i.value.Concrete) (unbounded : settings.style.wordBits = 0)
    {a b : Operand} (unitless : a.Unitless)
    (comes : a.argument.Comes settings
      (scopes.bindAll settings.style (bindings items)).operand? b 0 True) :
    let w := Operand.waitingAll op.name ((trailing items).map (operand settings.style)) a
    let ρ := (scopes.bindAll settings.style (bindings items)).operand?
    let r := (w.stored settings.style).result settings ρ maxNesting
    (Ready items → r.map (Operand.stored settings.style) = .ok (b.stored settings.style)) ∧
      (¬ Ready items → ∃ e, r = .error e) := by
  intro w ρ r
  have nested : w.argument.Comes settings ρ b (0 + (trailing items).length)
      (True ∧ ∀ i ∈ trailing items,
        ((i.bare.operand settings.style).stored settings.style).value = .integer 1) := by
    rw [Operand.argument_waitingAll]
    exact comes.nested h fun i hi =>
      comes_operand globals apart (mem_of_trailing hi) (concrete i (mem_of_trailing hi))
  have agree : Agree settings.style (w.argument.result settings ρ maxNesting) r :=
    Expr.agree_waiting (fun _ => Operand.unitless_waitingAll unitless) 63
  have one (i : Item) :
      ((i.bare.operand settings.style).stored settings.style).value = .integer 1 ↔
        i.value.reduce = .integer 1 := by
    rw [operand_bare, Operand.stored_stored, Operand.stored, Entry.store_unbounded unbounded]
    rfl
  rw [Nat.zero_add] at nested
  constructor
  · rintro ⟨enough, ones⟩
    obtain ⟨o, ho, _, same⟩ := nested.gives enough ⟨trivial, fun i hi => (one i).mpr (ones i hi)⟩
    rw [ho] at agree
    obtain ⟨o', ho', same'⟩ := agree_ok.mp agree
    rw [ho']
    exact congrArg Except.ok (same'.symm.trans same)
  · intro refused
    obtain ⟨e, he⟩ := nested.fails fun both =>
      refused ⟨both.1, fun i hi => (one i).mp (both.2.2 i hi)⟩
    rw [he] at agree
    exact agree_error.mp agree

end Item

namespace Session

/-- Items are put on the stack. -/
theorem leads_items (v : View) (items : List Item) :
    Leads (items.map Item.instruction) v (v.pushAll (items.map (Item.entry v.settings.style))) := by
  induction items generalizing v with
  | nil => exact leads_nil
  | cons i items ih =>
    have first : Leads [i.instruction] v (v.push (i.entry v.settings.style)) := by
      unfold Item.instruction Item.entry
      cases i.name? with
      | none => exact leads_number i.value .none
      | some name => exact leads_symbolic (.var name)
    have rest := ih (v.push (i.entry v.settings.style))
    have both : (v.push (i.entry v.settings.style)).pushAll
        (items.map (Item.entry v.settings.style)) =
        v.pushAll ((i :: items).map (Item.entry v.settings.style)) :=
      v.pushAll_pushAll [i.entry v.settings.style] (items.map (Item.entry v.settings.style))
    rw [← both]
    exact first.append rest

variable {op : Operation} {s : Signature} {neutral : Value}
  {f : Settings → Operand → Operand → Except Error Operand} (h : op.Combines s neutral f)
  {v : View} (free : v.scopes.Free) (unbounded : v.settings.style.wordBits = 0)

include h free unbounded

/-- Items are combined. -/
theorem ends_combining {items : List Item} (few : items.length ≤ maxCount) :
    Ends (Item.combining op items) v v
      ((Item.combined op s neutral f v.settings items).map fun o =>
        [o.stored v.settings.style]) := by
  have combined := ends_aggregate h free unbounded
    (items.map (Item.entry v.settings.style)) (by simpa using few)
  rw [List.length_map, List.map_map] at combined
  exact (leads_items v items).ends combined

/-- Items are combined, their variables are bound, and what is on the stack is evaluated. -/
theorem ends_deferred (globals : v.scopes.locals = []) {items : List Item} (some : items ≠ [])
    (few : items.length ≤ maxCount) (concrete : ∀ i ∈ items, i.value.Concrete)
    (unnamed : ∀ b ∈ Item.bindings items, Registry.contains b.name = false)
    (apart : (Item.names items).Nodup) :
    ∃ r : Except Error Operand,
      Ends (Item.combining op items ++ ((Item.bindings items).flatMap Binding.instructions ++
          [.keyword "eval"])) v (v.bindAll (Item.bindings items))
        (r.map fun o => [o.stored v.settings.style]) ∧
        (Item.Ready items → r.map (Operand.stored v.settings.style) =
          (Item.combined op s neutral f v.settings ((Item.leading items).map Item.bare)).map
            (Operand.stored v.settings.style)) ∧
        (¬ Item.Ready items → ∃ e, r = .error e) := by
  let bs := Item.bindings items
  have combined := ends_combining h free unbounded few
  rw [Item.combined_eq_waiting h some concrete] at combined
  rcases Item.combined_comes h v.settings globals apart some concrete with
    ⟨e, failed, failed'⟩ | ⟨a, b, given, value, unitless, residual, comes⟩
  · rw [failed] at combined
    refine ⟨.error e, Fails.append combined, fun _ => ?_, fun _ => ⟨e, rfl⟩⟩
    rw [failed']
  · rw [given] at combined
    obtain ⟨xs, hxs, hleads⟩ := combined
    obtain ⟨x, rfl, hx⟩ := List.map_eq_singleton_iff.mp hxs
    have bound : Leads (bs.flatMap Binding.instructions) (v.pushAll [x]) ((v.bindAll bs).push x) :=
      leads_bindAll (v := v.pushAll [x]) unnamed free
    have left : x.operand.Residual (Item.names items) := by
      rw [hx]
      refine (Operand.residual_waitingAll h.computes_pair ?_ residual).stored v.settings.style
      simpa using fun i hi => Item.residual_operand (Item.mem_of_trailing hi)
        (concrete i (Item.mem_of_trailing hi))
    have stored : x.operand.stored v.settings.style = x.operand := by
      rw [hx, Operand.stored_stored]
    have evaluated := ends_eval_stored (v := v.bindAll bs) (Scopes.Free.bindAll free unnamed) stored
      left (Item.covers_bindings globals apart concrete).concreteOn
    rw [hx] at evaluated
    obtain ⟨gives, fails⟩ :=
      Item.result_waitingAll h globals apart concrete unbounded unitless comes
    refine ⟨_, hleads.ends (bound.ends evaluated), fun isReady => ?_, fails⟩
    rw [value]
    exact gives isReady

omit h free unbounded

/-- A sum or a product of items for which variables stand at first. If all items from the first
variable on are one, and not more than the levels that may be nested, the result is what the items
before them are combined to, or the first item where that has a variable; otherwise the evaluation
fails. -/
theorem deferred_aggregate (settings : Settings) (clock : Int) (steps : List Step)
    (items : List Item) :
    let m := after (Machine.start settings clock) steps
    m.settings.stackLimit = none → m.settings.style.wordBits = 0 → items ≠ [] →
      items.length ≤ maxCount → (∀ i ∈ items, i.value.Concrete) →
      (∀ x ∈ Item.names items, Registry.contains x = false) → (Item.names items).Nodup →
      ∀ op ∈ [Catalogue.sum, Catalogue.product],
        let deferred := Item.combining op items ++
          ((Item.bindings items).flatMap Binding.instructions ++ [.keyword "eval"])
        let leading := (Item.leading items).map Item.bare
        (Item.Ready items → result deferred m = result (Item.combining op leading) m) ∧
          (¬ Item.Ready items → ∃ e, result deferred m = .error e) := by
  intro m unlimited unbounded some few concrete unnamed apart op hop deferred leading
  have rest : m.AtRest := atRest_after settings clock steps
  have free : m.scopes.Free := free_after settings clock steps
  let v : View := ⟨m.settings, m.scopes, m.stack.entries⟩
  have hm : v.Of m := View.of_self (rest.limit.trans unlimited) rest.nesting
  obtain ⟨s, neutral, f, h⟩ : ∃ s neutral f, op.Combines s neutral f := by
    rcases List.mem_cons.mp hop with rfl | hop
    · exact ⟨_, _, _, Catalogue.combines_sum⟩
    · cases List.mem_singleton.mp hop
      exact ⟨_, _, _, Catalogue.combines_product⟩
  have bound : ∀ b ∈ Item.bindings items, Registry.contains b.name = false :=
    fun b hb => unnamed b.name (List.mem_map.mpr ⟨b, hb, rfl⟩)
  obtain ⟨r, evaluated, gives, fails⟩ :=
    ends_deferred h (v := v) free unbounded rest.scopes some few concrete bound apart
  rw [evaluated.result_single hm]
  constructor
  · intro isReady
    have shorter : leading.length ≤ maxCount := by
      have := congrArg List.length (Item.leading_append_trailing items)
      rw [List.length_append] at this
      rw [List.length_map]
      omega
    rw [(ends_combining h (v := v) free unbounded shorter).result_single hm, gives isReady]
    rfl
  · intro notReady
    obtain ⟨e, rfl⟩ := fails notReady
    exact ⟨e, rfl⟩

/-- Of `2 3 X 3 product`, where one is bound to `X`, comes what comes of `2 3 2 product`. -/
theorem deferred_aggregate_one :
    let m := after (Machine.start {} 0) []
    let items : List Item := [⟨.integer 2, none⟩, ⟨.integer 3, none⟩, ⟨.integer 1, some "X"⟩]
    (m.settings.stackLimit = none ∧ m.settings.style.wordBits = 0 ∧ items ≠ [] ∧
      items.length ≤ maxCount ∧ (∀ i ∈ items, i.value.Concrete) ∧
      (∀ x ∈ Item.names items, Registry.contains x = false) ∧ (Item.names items).Nodup) ∧
      result (Item.combining Catalogue.product items ++
        ((Item.bindings items).flatMap Binding.instructions ++ [.keyword "eval"])) m =
      result (Item.combining Catalogue.product [⟨.integer 2, none⟩, ⟨.integer 3, none⟩]) m := by
  intro m items
  have few : items.length ≤ maxCount := by decide
  have concrete : ∀ i ∈ items, i.value.Concrete := by decide
  have unnamed : ∀ x ∈ Item.names items, Registry.contains x = false := by decide +kernel
  have apart : (Item.names items).Nodup := by decide
  have given : items ≠ [] := List.cons_ne_nil _ _
  have outcome := deferred_aggregate {} 0 [] items rfl rfl given few concrete unnamed apart
    Catalogue.product (by simp)
  refine ⟨⟨rfl, rfl, given, few, concrete, unnamed, apart⟩, outcome.1 ⟨by decide, fun i hi => ?_⟩⟩
  cases List.mem_singleton.mp hi
  rfl

/-- Of `X 2 2 sum`, where five is bound to `X`, comes an error and not seven. -/
theorem deferred_sum_fails :
    let m := Machine.start {} 0
    let items : List Item := [⟨.integer 5, some "X"⟩, ⟨.integer 2, none⟩]
    (result (Item.combining Catalogue.sum items ++ ((Item.bindings items).flatMap
      Binding.instructions ++ [.keyword "eval"])) m).toOption.isNone ∧
    (result (Item.combining Catalogue.sum (items.map Item.bare)) m).toOption.map
      (List.map fun o => (o.value.same (.integer 7), o.unit)) = some [(true, .none)] := by
  decide +kernel

end Session

end StackCalc
