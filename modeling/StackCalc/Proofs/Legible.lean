import StackCalc.Proofs.Evaluation
import StackCalc.Proofs.Exact
import StackCalc.Proofs.Grammar
import StackCalc.Proofs.Direct

/-! # Legible expressions

A constant fraction is written as a quotient, but never in the parentheses that a quotient would
need. Where no fraction stands in such a place, an expression has the text of the one in which all
fractions are quotients of integers, and the same value. So two such expressions with one text have
one value, whatever the variables stand for. In other places a text is ambiguous. -/

namespace StackCalc

open Calc Evaluator Grammar

/-! ## 1. Fractions as quotients -/

namespace Expr

mutual

/-- The expression with a quotient of integers for every constant fraction. -/
def spelled : Expr → Expr
  | .const (.rational q) =>
    .apply Infix.div.name [.const (.integer q.num), .const (.integer q.den)]
  | .apply name args => .apply name (spelledAll args)
  | e => e

def spelledAll : List Expr → List Expr
  | [] => []
  | e :: es => spelled e :: spelledAll es

end

/-- Whether an expression is a constant fraction. -/
def isFraction : Expr → Bool
  | .const (.rational _) => true
  | _ => false

/-- Expressions with infix operators over variables and reduced exact constants, with fractions in
no places but those where a quotient stands without parentheses. -/
inductive Legible : Expr → Prop
  | var {name : String} (h : IsName name) : (Expr.var name).Legible
  | integer (n : Int) : (Expr.const (.integer n)).Legible
  | fraction {q : Rat} (h : q.den ≠ 1) : (Expr.const (.rational q)).Legible
  | apply (op : Infix) {l r : Expr} (left : l.Legible) (right : r.Legible)
      (leftPlace : l.isFraction → op.leftLevel ≤ Infix.div.level)
      (rightPlace : r.isFraction → op.rightLevel ≤ Infix.div.level) :
      (Expr.apply op.name [l, r]).Legible

theorem spelled_fraction (q : Rat) : (Expr.const (.rational q)).spelled =
    .apply Infix.div.name [.const (.integer q.num), .const (.integer q.den)] := rfl

theorem spelled_binary (op : Infix) (l r : Expr) :
    (Expr.apply op.name [l, r]).spelled = .apply op.name [l.spelled, r.spelled] := rfl

@[simp]
theorem charsAt_const (k : Nat) (v : Value) :
    (Expr.const v).charsAt k = (Expr.const v).text.toList := rfl

/-- The text of a fraction: those of its numerator and its denominator. -/
theorem text_fraction (q : Rat) : (Expr.const (.rational q)).text.toList =
    (Expr.const (.integer q.num)).text.toList ++
      Infix.div.char :: (Expr.const (.integer q.den)).text.toList := by
  have numerator : (Numeral.ofInt q.num).toList = (Expr.const (.integer q.num)).text.toList := by
    rw [text_integer, Numeral.ofInt, Numeral.ofNat, Numeral.render]
    split <;> simp
  have denominator : (Numeral.ofNat q.den).toList = (Expr.const (.integer q.den)).text.toList := by
    rw [text_integer, Numeral.ofNat, Numeral.render, if_neg (by omega)]
    simp
  have quotient : (Expr.const (.rational q)).text =
      Numeral.ofInt q.num ++ "/" ++ Numeral.ofNat q.den := by
    show fractionText q .improper = _
    simp [fractionText]
  rw [quotient, String.toList_append, String.toList_append, numerator, denominator,
    List.append_assoc]
  rfl

/-- A fraction has the text of its quotient. -/
theorem text_spelled_fraction (q : Rat) : (Expr.const (.rational q)).spelled.text.toList =
    (Expr.const (.rational q)).text.toList := by
  rw [spelled_fraction, text_binary, text_fraction, charsAt_const, charsAt_const]

namespace Legible

variable {e : Expr}

theorem integral (h : e.Legible) : e.spelled.Integral := by
  induction h with
  | var h => exact .var h
  | integer n => exact .integer n
  | @fraction q _ => exact .apply .div (.integer q.num) (.integer q.den)
  | apply op _ _ _ _ ihl ihr => exact .apply op ihl ihr

/-- Where it stands, an expression has the text of its spelling. -/
theorem charsAt_spelled (h : e.Legible) (same : e.spelled.text.toList = e.text.toList) {k : Nat}
    (place : e.isFraction → k ≤ Infix.div.level) : e.spelled.charsAt k = e.charsAt k := by
  cases h with
  | var | integer => rfl
  | @fraction q _ =>
    have unparenthesised : ¬ Infix.div.level < k := Nat.not_lt.mpr (place rfl)
    rw [spelled_fraction, charsAt_binary, if_neg unparenthesised]
    exact same
  | apply op =>
    rw [spelled_binary, charsAt_binary, charsAt_binary, ← spelled_binary, same]

theorem text_spelled (h : e.Legible) : e.spelled.text.toList = e.text.toList := by
  induction h with
  | var | integer => rfl
  | @fraction q _ => exact text_spelled_fraction q
  | apply op left right leftPlace rightPlace ihl ihr =>
    rw [spelled_binary, text_binary, text_binary, left.charsAt_spelled ihl leftPlace,
      right.charsAt_spelled ihr rightPlace]

/-- Expressions with one text have one spelling. -/
theorem spelled_eq {d : Expr} (hd : d.Legible) (he : e.Legible) (same : d.text = e.text) :
    d.spelled = e.spelled := by
  refine integral_text_injective hd.integral he.integral (String.toList_inj.mp ?_)
  rw [hd.text_spelled, he.text_spelled, same]

end Legible

end Expr

/-! ## 2. Values -/

namespace Infix

/-- The operation of an operator. -/
def operation : Infix → Operation
  | add => Catalogue.add
  | sub => Catalogue.sub
  | mul => Catalogue.mul
  | div => Catalogue.div
  | pow => Catalogue.pow

theorem operation_spec (op : Infix) :
    op.operation ∈ Catalogue.numeric ∧ op.operation.name = op.name ∧ op.operation.minArgs = 2 := by
  cases op <;> exact ⟨by simp [operation, Catalogue.numeric], by decide, rfl⟩

theorem find_name (op : Infix) : Registry.find? op.name = some op.operation := by
  obtain ⟨listed, named, _⟩ := op.operation_spec
  rw [← named]
  exact Registry.find_name (Registry.mem_of_numeric listed)

end Infix

/-- The quotient of two integers is the fraction of them. -/
theorem outcome_div {settings : Settings} (unbounded : settings.style.wordBits = 0) {q : Rat}
    (h : q.den ≠ 1) : outcome settings Infix.div.name
      [.plain (.integer q.num), .plain (.integer q.den)] = .ok (.plain (.rational q)) := by
  have integer (n : Int) :
      (Operand.plain (.integer n)).stored settings.style = .plain (.ofRat n) := by
    rw [Operand.stored_mk, Entry.store_unbounded unbounded]
    rfl
  have divided : Exact.Computes (Catalogue.divisible.apply "/" (Calc.ofPair "/" Operand.div)
      settings [.plain (.ofRat (q.num : Int)), .plain (.ofRat (q.den : Int))]) (some q) := by
    have quotient : some q = if ((q.den : Int) : Rat) = 0 then none
        else some ((q.num : Rat) / ((q.den : Int) : Rat)) := by
      have nonzero : ((q.den : Int) : Rat) ≠ 0 := by exact_mod_cast q.den_ne_zero
      rw [if_neg nonzero, ← Rat.divInt_eq_div, Rat.num_divInt_den]
    rw [quotient]
    exact Exact.computes_promoting (by simp [Exact.promoting]) fun x y hx hy _ =>
      Exact.computes_div hx hy
  obtain ⟨z, hz, denotes⟩ := divided
  rw [outcome_apply (s := Catalogue.divisible) (f := Calc.ofPair "/" Operand.div)
    Infix.div.find_name rfl rfl, List.map_cons, List.map_singleton, integer, integer]
  show (Except.map _ (Catalogue.divisible.apply "/" _ settings _)) = _
  rw [hz]
  show Except.ok (Operand.stored settings.style ⟨.scalar z, .none⟩) = _
  rw [Operand.stored_mk, Entry.store_unbounded unbounded, denotes.reduce_eq, Value.ofRat, if_neg h]
  rfl

namespace Expr.Legible

theorem formula {e : Expr} (h : e.Legible) : e.IsFormula := by
  induction h with
  | var => exact .var _
  | integer | fraction => exact .const (fun h => nomatch h)
  | @apply op l r _ _ _ _ ihl ihr =>
    obtain ⟨listed, named, count⟩ := op.operation_spec
    have operands : ∀ e ∈ [l, r], e.IsFormula := by simp [ihl, ihr]
    rw [← named]
    exact .numeric op.operation listed count.symm operands

/-- With levels enough an expression has the value of its spelling, or both fail alike. -/
theorem result_spelled {settings : Settings} (unbounded : settings.style.wordBits = 0)
    (ρ : String → Option Operand) {e : Expr} (h : e.Legible) :
    ∀ {j k : Nat}, e.height ≤ j → e.spelled.height ≤ k →
      e.result settings ρ j = e.spelled.result settings ρ k := by
  induction h with
  | var | integer =>
    intro j k hj hk
    obtain ⟨j, rfl⟩ := Nat.exists_eq_add_of_le' hj
    obtain ⟨k, rfl⟩ := Nat.exists_eq_add_of_le' hk
    rfl
  | @fraction q hq =>
    intro j k hj hk
    obtain ⟨j, rfl⟩ : ∃ i, j = i + 1 := Nat.exists_eq_add_of_le' hj
    obtain ⟨k, rfl⟩ : ∃ i, k = i + 2 := Nat.exists_eq_add_of_le' hk
    show Except.ok (Operand.plain (.rational q)) = applied settings Infix.div.name
      [.plain (.integer q.num), .plain (.integer q.den)]
    have concrete (n : Int) : (Operand.plain (.integer n)).Concrete := fun h => nomatch h
    rw [applied_concrete (by simp [concrete]), outcome_div unbounded hq]
  | @apply op l r left right _ _ ihl ihr =>
    intro j k hj hk
    have below {l r : Expr} {n : Nat} (h : (Expr.apply op.name [l, r]).height ≤ n) :
        ∃ i, n = i + 1 ∧ l.height ≤ i ∧ r.height ≤ i := by
      rw [height] at h
      obtain ⟨i, rfl⟩ : ∃ i, n = i + 1 := Nat.exists_eq_add_of_le' (by omega)
      have operands := heightAll_le.mp (Nat.le_of_succ_le_succ h)
      exact ⟨i, rfl, operands l (by simp), operands r (by simp)⟩
    obtain ⟨j, rfl, hlj, hrj⟩ := below hj
    obtain ⟨k, rfl, hlk, hrk⟩ := below hk
    rw [spelled_binary, result_apply, result_apply]
    simp only [List.mapM_cons, List.mapM_nil, ihl hlj hlk, ihr hrj hrk]

end Expr.Legible

/-! ## 3. One text, one value -/

namespace Evaluator

/-- Two legible expressions with one text are evaluated alike without words, whatever values the
variables are bound to: both have the same value, or both fail with the same error. Their nesting
need not be the same, so each is given as many levels as it has, or more. -/
theorem evaluate_eq_of_text_eq (m : Machine) {d e : Expr} (hd : d.Legible) (he : e.Legible)
    (same : d.text = e.text) (unbounded : m.settings.style.wordBits = 0)
    (bound : ∀ name o, m.scopes.operand? name = some o → o.Concrete) {j k : Nat}
    (hj : d.height ≤ j) (hk : e.height ≤ k) :
    (exec (evaluateExpr j d) m).1 = (exec (evaluateExpr k e) m).1 := by
  have value {x : Expr} (hx : x.Legible) {n : Nat} (hn : x.height ≤ n) :
      (exec (evaluateExpr n x) m).1 =
        x.spelled.result m.settings m.scopes.operand? x.spelled.height := by
    obtain ⟨flags, run⟩ := exec_evaluateExpr n (m := m) hx.formula.computable
      fun name _ o ho => bound name o ho
    rw [run]
    exact hx.result_spelled unbounded _ hn (Nat.le_refl _)
  rw [value hd hj, value he hk, hd.spelled_eq he same]

/-- A session in which `X` is 1. -/
def holdingOne : Session := Session.after (Machine.start {} 0)
  [.instruction (.number (.integer 1) .none), .instruction (.symbolic (.var "X")),
    .instruction (.keyword "sto")]

/-- The sum of a variable and a fraction, and of a variable and a quotient. -/
theorem evaluate_eq_of_text_eq_half :
    let half := Expr.const (.rational (1 / 2))
    let d := Expr.apply Infix.add.name [.var "X", half]
    let e := Expr.apply Infix.add.name [.var "X", half.spelled]
    (d.Legible ∧ e.Legible ∧ d.text = e.text ∧ holdingOne.settings.style.wordBits = 0 ∧
        ∀ name o, holdingOne.scopes.operand? name = some o → o.Concrete) ∧
      (exec (evaluateExpr 2 d) holdingOne).1 = (exec (evaluateExpr 3 e) holdingOne).1 := by
  intro half d e
  have name : IsName "X" := ⟨by simp [isWord], by simp [Numeral.isDigit]⟩
  have quotient : half.spelled.Legible :=
    .apply .div (.integer _) (.integer _) (by decide) (by decide)
  have hd : d.Legible :=
    .apply .add (.var name) (.fraction (by decide +kernel)) (by decide) (by decide)
  have he : e.Legible := .apply .add (.var name) quotient (by decide) (by decide)
  have same : d.text = e.text := String.toList_inj.mp hd.text_spelled.symm
  obtain ⟨unbounded, values⟩ : holdingOne.settings.style.wordBits = 0 ∧
      holdingOne.scopes.All fun x => x.value.Concrete := by decide +kernel
  have bound : ∀ name o, holdingOne.scopes.operand? name = some o → o.Concrete := by
    intro name o ho
    obtain ⟨x, hx, rfl⟩ := Option.map_eq_some_iff.mp ho
    exact values.get hx
  exact ⟨⟨hd, he, same, unbounded, bound⟩,
    evaluate_eq_of_text_eq holdingOne hd he same unbounded bound (by decide) (by decide)⟩

end Evaluator

/-! ## 4. Other places -/

namespace Expr

/-- A fraction on the right of a product, a quotient or a power reads as if the numerator alone were
the operand. -/
theorem text_right_fraction (op : Infix) (h : Infix.div.level < op.rightLevel) (l : Expr)
    (q : Rat) : (Expr.apply op.name [l, .const (.rational q)]).text.toList =
      (Expr.apply Infix.div.name
        [.apply op.name [l, .const (.integer q.num)], .const (.integer q.den)]).text.toList := by
  have bare : ¬ op.level < Infix.div.leftLevel := by
    cases op <;> first | decide | exact absurd h (by decide)
  rw [text_binary op, text_binary .div, charsAt_binary, if_neg bare, text_binary op]
  simp [text_fraction]

end Expr

namespace Session

/-- A variable over a fraction, and the expression that its text is read as. -/
def overHalf : Expr := .apply Infix.div.name [.var "X", .const (.rational (1 / 2))]

def halved : Expr :=
  .apply Infix.div.name [.apply Infix.div.name [.var "X", .const (.integer 1)], .const (.integer 2)]

/-- Two expressions have one text, and where `X` is 1 one of them is 2 and the other is a half. -/
theorem text_ambiguous : overHalf.text = halved.text ∧
    ((eval [.symbolic overHalf, .keyword "eval"] Evaluator.holdingOne).1.toOption.map fun vs =>
      vs.map Value.toRat?) = some [some 2] ∧
    ((eval [.symbolic halved, .keyword "eval"] Evaluator.holdingOne).1.toOption.map fun vs =>
      vs.map Value.toRat?) = some [some (1 / 2)] := by
  have read := Expr.text_right_fraction .div (by decide) (.var "X") (1 / 2)
  rw [show (1 / 2 : Rat).num = 1 by decide +kernel, show (1 / 2 : Rat).den = 2 by decide +kernel]
    at read
  exact ⟨String.toList_inj.mp read, by decide +kernel, by decide +kernel⟩

end Session
end StackCalc
