import StackCalc.Proofs.Aggregates

/-! # Rules for units

Of every operation with one result but the power, the unit of the result follows from the units of
the operands alone, and is none if they have none. The unit of a power follows from the unit of the
base and the exponent. -/

namespace StackCalc

open Catalogue

/-! ## 1. Rules -/

@[simp]
theorem Operand.unitless_plain {v : Value} : (Operand.plain v).Unitless := rfl

@[simp]
theorem Operand.unitless_truth {b : Bool} : (Operand.truth b).Unitless := rfl

namespace UnitProduct

/-- How the unit of a result follows from those of the operands. Its exponents may overflow. -/
abbrev Rule : Type := List UnitProduct → Except Error UnitProduct

/-- A rule for one operand. -/
def Rule.ofOne (rule : UnitProduct → Except Error UnitProduct) : Rule
  | [u] => rule u
  | _ => .ok .none

/-- A rule for two operands. -/
def Rule.ofTwo (rule : UnitProduct → UnitProduct → Except Error UnitProduct) : Rule
  | [u, v] => rule u v
  | _ => .ok .none

theorem Rule.ofOne_none {rule : UnitProduct → Except Error UnitProduct} (h : rule .none = .ok .none)
    (n : Nat) : ofOne rule (List.replicate n .none) = .ok .none := by
  match n with
  | 1 => exact h
  | 0 | n + 2 => rfl

theorem Rule.ofTwo_none {rule : UnitProduct → UnitProduct → Except Error UnitProduct}
    (h : rule .none .none = .ok .none) (n : Nat) :
    ofTwo rule (List.replicate n .none) = .ok .none := by
  match n with
  | 2 => exact h
  | 0 | 1 | n + 3 => rfl

theorem yields_requireSame {u v : UnitProduct} :
    Yields (fun w => w = u ∧ w = v) (u.requireSame v) := by
  unfold requireSame
  split
  · rename_i same
    exact yields_ok.mpr ⟨rfl, same⟩
  · exact yields_error

theorem yields_requireNone {u : UnitProduct} {op : String} :
    Yields (fun _ => u = .none) (u.requireNone op) := by
  unfold requireNone
  split
  · rename_i dimensionless
    obtain ⟨dims, table, fits⟩ := u
    cases List.isEmpty_iff.mp dimensionless
    exact fun _ _ => rfl
  · exact yields_error

end UnitProduct

/-- A transform whose results have a unit that follows from those of the operands by a rule. No
units give none. -/
structure Signature.Transform.UnitsBy (f : Transform) (rule : UnitProduct.Rule) : Prop where
  unit : ∀ settings os, Yields (fun r => rule (os.map Operand.unit) = .ok r.unit) (f settings os)
  none : ∀ n, rule (List.replicate n .none) = .ok .none

/-- A step that applies a transform with such a rule. -/
def Calc.UnitsBy (x : Calc Unit) (op : String) (arity : Nat) (rule : UnitProduct.Rule) : Prop :=
  ∃ s f, x = applyTop op arity s f ∧ f.UnitsBy rule

namespace Calc

variable {op : String} {s : Signature}

theorem units_unary {f : Settings → Operand → Except Error Operand}
    (rule : UnitProduct → Except Error UnitProduct)
    (h : ∀ s a, Yields (fun r => rule a.unit = .ok r.unit) (f s a))
    (none : rule .none = .ok .none) :
    (unary op s f).UnitsBy op 1 (.ofOne rule) := by
  refine ⟨s, _, rfl, fun settings os => ?_, UnitProduct.Rule.ofOne_none none⟩
  split
  · exact h settings _
  · exact yields_error

theorem units_binary {f : Settings → Operand → Operand → Except Error Operand}
    (rule : UnitProduct → UnitProduct → Except Error UnitProduct)
    (h : ∀ s a b, Yields (fun r => rule a.unit b.unit = .ok r.unit) (f s a b))
    (none : rule .none .none = .ok .none) : (binary op s f).UnitsBy op 2 (.ofTwo rule) := by
  refine ⟨s, _, rfl, fun settings os => ?_, UnitProduct.Rule.ofTwo_none none⟩
  split
  · exact h settings _ _
  · exact yields_error

/-- One operand, whose unit is kept. -/
theorem units_kept {f : Settings → Operand → Except Error Operand}
    (h : ∀ s a, Yields (fun r => r.unit = a.unit) (f s a)) :
    (unary op s f).UnitsBy op 1 (.ofOne .ok) :=
  units_unary .ok (fun s a => (h s a).mono fun _ same => congrArg Except.ok same.symm) rfl

/-- Two operands of one unit, which is kept. -/
theorem units_common {f : Settings → Operand → Operand → Except Error Operand}
    (h : ∀ s a b, Yields (fun r => r.unit = a.unit) (f s a b)) :
    (binary op s f).UnitsBy op 2 (.ofTwo fun u _ => .ok u) :=
  units_binary _ (fun s a b => (h s a b).mono fun _ same => congrArg Except.ok same.symm) rfl

/-- One operand and a result without unit. -/
theorem units_dropped {f : Settings → Operand → Except Error Operand}
    (h : ∀ s a, Yields Operand.Unitless (f s a)) :
    (unary op s f).UnitsBy op 1 (.ofOne fun _ => .ok .none) :=
  units_unary _ (fun s a => (h s a).mono fun _ none => congrArg Except.ok none.symm) rfl

/-- Two operands and a result without unit. -/
theorem units_droppedBoth {f : Settings → Operand → Operand → Except Error Operand}
    (h : ∀ s a b, Yields Operand.Unitless (f s a b)) :
    (binary op s f).UnitsBy op 2 (.ofTwo fun _ _ => .ok .none) :=
  units_binary _ (fun s a b => (h s a b).mono fun _ none => congrArg Except.ok none.symm) rfl

/-- Three operands and a result without unit. -/
theorem units_droppedAll {f : Settings → Operand → Operand → Operand → Except Error Operand}
    (h : ∀ s a b c, Yields Operand.Unitless (f s a b c)) :
    (ternary op s f).UnitsBy op 3 fun _ => .ok .none := by
  refine ⟨s, _, rfl, fun settings os => ?_, fun _ => rfl⟩
  split
  · exact (h settings _ _ _).mono fun _ none => congrArg Except.ok none.symm
  · exact yields_error

end Calc

/-! ## 2. Operands -/

namespace Operand

variable {s : Settings} {a b : Operand}

theorem unit_add : Yields (fun r => r.unit = a.unit) (add s a b) := by
  simp only [add, yields_bind]
  refine UnitProduct.yields_requireSame.mono fun unit h => ?_
  split <;> simp [h.1]

theorem unit_sub : Yields (fun r => r.unit = a.unit) (sub s a b) := by
  simp only [sub, yields_bind]
  refine UnitProduct.yields_requireSame.mono fun unit h => ?_
  split <;> simp [h.1]

theorem unit_mul : Yields (fun r => a.unit.mul b.unit = .ok r.unit) (mul s a b) := by
  simp only [mul, yields_bind]
  intro unit h
  split <;> simp [h]

theorem unit_div : Yields (fun r => a.unit.div b.unit = .ok r.unit) (div s a b) := by
  simp only [div, yields_bind]
  intro unit h
  split <;> simp [h]

theorem unit_neg : Yields (fun r => r.unit = a.unit) (neg s a) := by
  unfold neg
  split <;> simp

theorem unit_inv : Yields (fun r => a.unit.inv = .ok r.unit) (inv s a) := by
  unfold inv
  split
  all_goals
    simp only [yields_bind, yields_pure]
    exact fun _ _ _ h => h

theorem unit_abs : Yields (fun r => r.unit = a.unit) (abs s a) := by
  simp [abs]

/-- The root of a unit, or none if there is no root. -/
def rootUnit (unit : UnitProduct) : Except Error UnitProduct :=
  (unit.root? 2).map fun root => root.getD .none

theorem unit_sqrt : Yields (fun r => rootUnit a.unit = .ok r.unit) (sqrt s a) := by
  simp only [sqrt, yields_bind]
  intro root h
  split
  · exact yields_throw
  · simp [rootUnit, h, Except.map]

theorem unit_modulo : Yields (fun r => r.unit = a.unit) (modulo s a b) := by
  simp only [modulo, yields_bind, yields_pure]
  exact UnitProduct.yields_requireSame.mono fun unit h _ _ => h.1

theorem unit_floorDiv : Yields (fun r => a.unit.div b.unit = .ok r.unit) (floorDiv s a b) := by
  simp only [floorDiv, yields_bind, yields_pure]
  exact fun _ _ _ _ _ _ _ h => h

theorem unit_extreme {wanted : Ordering} :
    Yields (fun r => r.unit = a.unit) (extreme wanted s a b) := by
  simp only [extreme, yields_bind]
  refine UnitProduct.yields_requireSame.mono fun unit h => ?_
  split
  · exact yields_throw
  · exact yields_pure.mpr h.1

theorem unit_joinParts : Yields (fun r => r.unit = a.unit) (joinParts s a b) := by
  simp only [joinParts, yields_bind]
  refine UnitProduct.yields_requireSame.mono fun unit h => ?_
  split
  · exact yields_pure.mpr h.1
  · exact yields_throw

/-- The unit of a power depends on the exponent, unless the base has none. -/
theorem unit_pow : Yields (fun r => unitPower a.unit b.value = .ok r.unit) (pow s a b) := by
  simp only [pow, yields_bind]
  intro _ _ unit h
  split <;> simp [h]

end Operand

/-! ## 3. The operations -/

/-- How the unit of the result of an operation comes about: by a rule, or as that of a power. Or
the operation takes or gives other numbers of entries than most. -/
inductive Operation.UnitRule (op : Operation) : Prop
  | rule {run : Calc Unit} (h : op.action = .primitive run)
      {rule : UnitProduct.Rule} (units : run.UnitsBy op.name op.minArgs rule)
  | power (h : op = Catalogue.pow)
  | varied (counts : op.arity ≤ 0 ∨ op.results ≠ 1 := by decide)

namespace Catalogue

theorem units_testEqual {op : String} {wanted : Bool} :
    (testEqual op wanted).UnitsBy op 2 (.ofTwo fun _ _ => .ok .none) :=
  Calc.units_droppedBoth fun _ _ _ => by simp

theorem units_testOrder {op : String} {test : Ordering → Bool} :
    (testOrder op test).UnitsBy op 2 (.ofTwo fun _ _ => .ok .none) :=
  Calc.units_droppedBoth fun _ _ _ => by simp

theorem units_onInteger {op : String} {f : Settings → Int → Except Error Int} :
    (onInteger op f).UnitsBy op 1 (.ofOne fun _ => .ok .none) :=
  Calc.units_dropped fun _ _ => by simp

theorem units_onIntegers {op : String} {f : Settings → Int → Int → Except Error Int} :
    (onIntegers op f).UnitsBy op 2 (.ofTwo fun _ _ => .ok .none) :=
  Calc.units_droppedBoth fun _ _ _ => by simp

theorem units_exactPart {op : String} {part : Int × Int → Int} :
    (exactPart op part).UnitsBy op 1 (.ofOne fun _ => .ok .none) :=
  Calc.units_dropped fun _ _ => by simp

theorem units_onValue {op : String} {s : Signature} {f : Settings → Value → Except Error Value} :
    (onValue op s f).UnitsBy op 1 (.ofOne .ok) :=
  Calc.units_kept fun _ _ => by simp

theorem units_function {op : String} {real : Settings → MPFloat → Except Error Scalar}
    {complex : Complex → Except Error Complex} :
    (function op real complex).UnitsBy op 1 (.ofOne fun _ => .ok .none) := by
  refine Calc.units_dropped fun _ _ => ?_
  simp only [yields_bind]
  intro _ _
  split <;> simp

theorem units_timeOf {op : String} {absolute : Bool} :
    (timeOf op absolute).UnitsBy op 1 (.ofOne fun _ => .ok .none) :=
  Calc.units_dropped fun _ _ => by simp

theorem unitRule_numeric : ∀ op ∈ numeric, op.UnitRule := by
  simp only [numeric, List.forall_mem_cons]
  exact ⟨.rule rfl (Calc.units_common fun _ _ _ => Operand.unit_add),
    .rule rfl (Calc.units_common fun _ _ _ => Operand.unit_sub),
    .rule rfl (Calc.units_binary UnitProduct.mul (fun _ _ _ => Operand.unit_mul) rfl),
    .rule rfl (Calc.units_binary UnitProduct.div (fun _ _ _ => Operand.unit_div) rfl),
    .rule rfl (Calc.units_kept fun _ _ => Operand.unit_neg),
    .rule rfl (Calc.units_unary UnitProduct.inv (fun _ _ => Operand.unit_inv) rfl),
    .rule rfl (Calc.units_kept fun _ _ => Operand.unit_abs),
    .rule rfl (Calc.units_unary (fun u => u.mul u) (fun _ _ => Operand.unit_mul) rfl),
    .rule rfl (Calc.units_unary Operand.rootUnit (fun _ _ => Operand.unit_sqrt) rfl), .power rfl,
    .rule rfl (Calc.units_common fun _ _ _ => Operand.unit_modulo),
    .rule rfl (Calc.units_binary UnitProduct.div (fun _ _ _ => Operand.unit_floorDiv) rfl),
    .rule rfl (Calc.units_common fun _ _ _ => Operand.unit_extreme),
    .rule rfl (Calc.units_common fun _ _ _ => Operand.unit_extreme),
    .rule rfl units_testEqual, .rule rfl units_testEqual, .rule rfl units_testOrder,
    .rule rfl units_testOrder, .rule rfl units_testOrder, .rule rfl units_testOrder,
    List.forall_mem_nil _⟩

theorem unitRule_integers : ∀ op ∈ integers, op.UnitRule := by
  simp only [integers, List.forall_mem_cons]
  exact ⟨.rule rfl units_onIntegers, .rule rfl units_onIntegers, .rule rfl units_onIntegers,
    .rule rfl (Calc.units_droppedAll fun _ _ _ _ => by simp), .rule rfl units_onInteger,
    .rule rfl units_onIntegers, .rule rfl units_onIntegers, .rule rfl units_exactPart,
    .rule rfl units_exactPart, .rule rfl units_onIntegers, .rule rfl units_onIntegers,
    .rule rfl units_onIntegers, .rule rfl units_onInteger, .rule rfl units_onIntegers,
    .rule rfl units_onIntegers, List.forall_mem_nil _⟩

theorem unitRule_conversions : ∀ op ∈ conversions, op.UnitRule := by
  simp only [conversions, List.forall_mem_cons]
  exact ⟨.rule rfl units_onValue, .rule rfl units_onValue, .rule rfl units_onValue,
    .rule rfl (Calc.units_common fun _ _ _ => Operand.unit_joinParts), .varied,
    .rule rfl units_onValue, .rule rfl units_onValue, .rule rfl units_onValue,
    .rule rfl units_onValue, .rule rfl units_onValue, .rule rfl units_onValue,
    .rule rfl units_onValue, .rule rfl units_onValue,
    .rule rfl (Calc.units_dropped fun _ _ => by simp), List.forall_mem_nil _⟩

theorem unitless_identityOf {a : Operand} : Yields Operand.Unitless (identityOf a) := by
  simp only [identityOf, yields_bind]
  intro _ _ n _
  split <;> simp

theorem unitless_secondsOf {a : Operand} : Yields Operand.Unitless (secondsOf a) := by
  unfold secondsOf
  split <;> simp

theorem unitRule_aggregates : ∀ op ∈ aggregates, op.UnitRule := by
  simp only [aggregates, List.forall_mem_cons]
  exact ⟨.rule rfl (Calc.units_dropped fun _ _ => by simp),
    .rule rfl (Calc.units_kept fun _ _ => by simp),
    .rule rfl (Calc.units_dropped fun _ _ => unitless_identityOf), .varied, .varied, .varied,
    .varied, .rule rfl (Calc.units_dropped fun _ _ => by simp), List.forall_mem_nil _⟩

theorem unitRule_analysis : ∀ op ∈ analysis, op.UnitRule := by
  simp only [analysis, List.forall_mem_cons]
  exact ⟨.rule rfl units_function, .rule rfl units_function, .rule rfl units_function,
    .rule rfl units_function, .rule rfl units_function, .rule rfl units_function, .varied,
    List.forall_mem_nil _⟩

theorem unitRule_instants : ∀ op ∈ instants, op.UnitRule := by
  simp only [instants, List.forall_mem_cons]
  exact ⟨.varied, .rule rfl units_timeOf, .rule rfl units_timeOf,
    .rule rfl (Calc.units_dropped fun _ _ => unitless_secondsOf), List.forall_mem_nil _⟩

/-- The unit of every result follows from the operands by a rule. -/
theorem unitRule_onOperands : ∀ op ∈ onOperands, op.UnitRule := by
  simp only [onOperands, List.forall_mem_append]
  exact ⟨⟨⟨⟨⟨unitRule_numeric, unitRule_integers⟩, unitRule_conversions⟩, unitRule_aggregates⟩,
    unitRule_analysis⟩, unitRule_instants⟩

end Catalogue
end StackCalc
