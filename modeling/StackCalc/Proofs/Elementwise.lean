import StackCalc.Proofs.Broadcast
import StackCalc.Proofs.UnitRules

/-! # Results over lists

Over lists, an operation gives exactly what it gives for their elements, and fails as soon as it
fails for some. One unit stands for all results of a list: it is that of the first one. Where a
rule for units decides it, that is the unit of all of them, unless a list in a list is empty. The
unit of a power differs from exponent to exponent. -/

namespace StackCalc

open Catalogue

/-! ## 1. Filled lists -/

mutual

/-- Whether no list is empty, at any depth. -/
def Value.filled : Value → Bool
  | .list _ items => !items.isEmpty && filledItems items
  | _ => true

def filledItems : List Value → Bool
  | [] => true
  | v :: vs => v.filled && filledItems vs

end

theorem filledItems_eq (vs : List Value) : filledItems vs = vs.all Value.filled := by
  induction vs with
  | nil => rfl
  | cons v vs ih => rw [filledItems, ih, List.all_cons]

namespace Operand

variable {i n : Nat} {o : Operand}

theorem filled_element (h : o.value.filled = true) (sized : ∀ k, o.listSize? = some k → k = n)
    (hi : i < n) : (o.element i).value.filled = true := by
  by_cases list : o.kind = .list
  · obtain ⟨kind, items, hv⟩ := Value.list_of_kind list
    have size : items.length = n := sized _ (listSize_eq_some.mpr ⟨kind, items, hv, rfl⟩)
    have inside : i < items.length := by omega
    rw [hv, Value.filled, filledItems_eq, Bool.and_eq_true, List.all_eq_true] at h
    rw [element_of_list hv inside]
    exact h.2 _ (List.getElem_mem inside)
  · rwa [element_of_ne list]

/-- Filled lists have a first element. -/
theorem size_pos (h : o.value.filled = true) {k : Nat} (size : o.listSize? = some k) : 0 < k := by
  obtain ⟨kind, items, hv, rfl⟩ := listSize_eq_some.mp size
  rw [hv, Value.filled, Bool.and_eq_true] at h
  cases items with
  | nil => cases h.1
  | cons v vs => simp

/-- An operand is an element of another one, at some depth, or that itself if it is no list. -/
structure Reaches (o l : Operand) : Prop where
  unit : l.unit = o.unit
  same : o.kind ≠ .list → l = o

theorem Reaches.refl (o : Operand) : o.Reaches o := ⟨rfl, fun _ => rfl⟩

theorem reaches_element (o : Operand) (i : Nat) : o.Reaches (o.element i) :=
  ⟨element_unit, fun h => element_of_ne h⟩

theorem Reaches.trans {o l k : Operand} (h : o.Reaches l) (h' : l.Reaches k) : o.Reaches k where
  unit := h'.unit.trans h.unit
  same other := by
    have first := h.same other
    exact (h'.same (first ▸ other)).trans first

end Operand

/-! ## 2. Units over lists -/

namespace Signature

open Operand

variable {s : Signature} {op : String} {f : Transform} {settings : Settings}

/-- Converted operands keep their units. -/
theorem units_resolve {digits : Nat} {os rs : List Operand} (h : s.resolve op digits os = .ok rs) :
    rs.map Operand.unit = os.map Operand.unit := by
  rcases resolve_eq_ok h with rfl | ⟨c, _, hc⟩
  · rfl
  · unfold tryConversion at hc
    split at hc
    · cases converted : os.mapM fun (o : Operand) =>
          (convert digits o.value c.target).map fun v => (⟨v, o.unit⟩ : Operand) with
      | error e =>
        rw [converted] at hc
        cases hc
      | ok _ =>
        rw [converted] at hc
        cases hc
        refine List.forall₂_eq_eq_eq ▸ ?_
        rw [List.forall₂_map_left_iff, List.forall₂_map_right_iff]
        refine (StackCalc.mapM_eq_ok.mp converted).flip.imp fun r o hr => ?_
        obtain ⟨v, _, rfl⟩ := map_eq_ok.mp hr
        rfl
    · cases hc

/-- Only operands without unit are deferred. -/
theorem unitless_of_defer (os : List Operand) :
    Yields (fun _ => ∀ o ∈ os, o.Unitless) (defer op os) := by
  unfold defer
  simp only [forIn_eq_forM, yields_bind, yields_pure]
  induction os with
  | nil => exact fun _ _ => List.forall_mem_nil _
  | cons o os ih =>
    rw [List.forM_cons, yields_bind]
    refine UnitProduct.yields_requireNone.mono fun _ head => ih.mono fun _ tail => ?_
    exact List.forall_mem_cons.mpr ⟨head, tail⟩

/-- The unit of a result is that of a computation on elements of the operands, unless no operand
has a unit. -/
theorem unit_computed (d : Nat) {os : List Operand} {r : Operand}
    (nested : ∀ o ∈ os, o.value.listDepth ≤ d) (filled : ∀ o ∈ os, o.value.filled = true)
    (h : s.apply op f settings os = .ok r) :
    ((∀ o ∈ os, o.Unitless) ∧ r.Unitless) ∨ ∃ ls rs x, List.Forall₂ Reaches os ls ∧
      s.resolve op settings.style.precision ls = .ok rs ∧ f settings rs = .ok x ∧
        x.unit = r.unit := by
  rcases apply_cases s op f settings os with ⟨_, deferred⟩ | ⟨list, lists⟩ | ⟨_, computed⟩
  · rw [deferred] at h
    exact .inl ⟨unitless_of_defer os r h, unitless_defer r h⟩
  · rw [lists] at h
    obtain ⟨k, items, _, sized, each⟩ := overElements_eq_ok list h
    obtain ⟨o, ho, hk⟩ := list
    obtain ⟨kind, xs, hv⟩ := Value.list_of_kind hk
    have size := listSize_eq_some.mpr ⟨kind, xs, hv, rfl⟩
    have some : 0 < items.length := sized o ho _ size ▸ size_pos (filled o ho) size
    have levels : 0 < d := by
      have deep := nested o ho
      rw [hv, Value.listDepth] at deep
      omega
    obtain ⟨x, _, hx, _, _, unit⟩ := each 0 some
    have nestedFirst : ∀ e ∈ os.map (element 0), e.value.listDepth ≤ d - 1 :=
      List.forall_mem_map.mpr fun o ho =>
        listDepth_element (Nat.le_trans (nested o ho) (by omega)) (sized o ho) some
    have filledFirst : ∀ e ∈ os.map (element 0), e.value.filled = true :=
      List.forall_mem_map.mpr fun o ho => filled_element (filled o ho) (sized o ho) some
    rcases unit_computed (d - 1) nestedFirst filledFirst hx with
      ⟨unitless, result⟩ | ⟨ls, rs, y, reached, hrs, hy, same⟩
    · refine .inl ⟨fun o ho => ?_, ?_⟩
      · exact element_unit.symm.trans (unitless _ (List.mem_map_of_mem ho))
      · exact (unit rfl).symm.trans result
    · refine .inr ⟨ls, rs, y, ?_, hrs, hy, same.trans (unit rfl)⟩
      rw [List.forall₂_map_left_iff] at reached
      exact reached.imp fun o l hl => (reaches_element o 0).trans hl
  · rw [computed] at h
    obtain ⟨rs, hrs, hr⟩ := bind_eq_ok.mp h
    exact .inr ⟨os, rs, r, List.forall₂_same.mpr fun o _ => .refl o, hrs, hr, rfl⟩
termination_by d

/-- The rule that the unit of a result follows. -/
theorem unit_apply {rule : UnitProduct.Rule} (units : f.UnitsBy rule) {os : List Operand}
    (filled : ∀ o ∈ os, o.value.filled = true) {r : Operand}
    (h : s.apply op f settings os = .ok r) : rule (os.map Operand.unit) = .ok r.unit := by
  rcases unit_computed _ (listDepth_le_foldl os 0).2 filled h with
    ⟨unitless, result⟩ | ⟨ls, rs, x, reached, hrs, hx, same⟩
  · have none : os.map Operand.unit = List.replicate os.length .none :=
      List.eq_replicate_iff.mpr ⟨by simp, List.forall_mem_map.mpr unitless⟩
    rw [none, units.none]
    exact congrArg Except.ok result.symm
  · have kept : ls.map Operand.unit = os.map Operand.unit := by
      refine List.forall₂_eq_eq_eq ▸ ?_
      rw [List.forall₂_map_left_iff, List.forall₂_map_right_iff]
      exact reached.flip.imp fun l o h => h.unit
    rw [← same, ← units.unit settings rs x hx, units_resolve hrs, kept]

/-- The unit of a power, if the base has none or the exponent is no list. -/
theorem unit_apply_pow {a b r : Operand} (filled : ∀ o ∈ [a, b], o.value.filled = true)
    (uniform : a.unit = .none ∨ b.kind ≠ .list)
    (h : powers.apply op (Calc.ofPair op Operand.pow) settings [a, b] = .ok r) :
    unitPower a.unit b.value = .ok r.unit := by
  have baseless (v w : Value) : unitPower .none v = unitPower .none w := rfl
  rcases unit_computed _ (listDepth_le_foldl [a, b] 0).2 filled h with
    ⟨unitless, result⟩ | ⟨ls, rs, x, reached, hrs, hx, same⟩
  · have none : a.unit = .none := unitless a (by simp)
    rw [none]
    exact congrArg Except.ok result.symm
  · obtain ⟨c, _, hc, later, rfl⟩ := List.forall₂_cons_left_iff.mp reached
    obtain ⟨d, _, hd, none, rfl⟩ := List.forall₂_cons_left_iff.mp later
    cases List.forall₂_nil_left_iff.mp none
    have whole : rs = [c, d] := by
      rcases resolve_eq_ok hrs with rfl | ⟨conversion, listed, _⟩
      · rfl
      · cases listed
    subst whole
    have result : unitPower c.unit d.value = .ok x.unit := Operand.unit_pow x hx
    rw [← same, ← result, hc.unit]
    rcases uniform with none | other
    · rw [none]
      exact baseless _ _
    · rw [hd.same other]

end Signature

/-! ## 3. Operations over lists -/

namespace Calc

/-- The same step on the same operands computes results of one unit, whatever signature and
transform it is written with. -/
theorem unit_of_applyTop {op : String} {arity : Nat} {s t : Signature} {f g : Signature.Transform}
    (same : applyTop op arity s f = applyTop op arity t g) {settings : Settings}
    {os : List Operand} (count : os.length = arity) {r : Operand}
    (h : s.apply op f settings os = .ok r) :
    ∃ x, t.apply op g settings os = .ok x ∧ x.unit = r.unit := by
  let m : Machine := { Machine.start settings 0 with
    stack := { entries := (os.map fun o => ⟨o.value, o.unit, {}, .clear⟩).reverse } }
  have operands : m.operands op arity = .ok os := by
    have all : m.stack.entries.take arity = m.stack.entries :=
      List.take_of_length_le (by simp [m, count])
    rw [Machine.operands_eq_ok, Machine.topOperands, all]
    exact ⟨by simp [m, Stack.size, count], by simp [m, Function.comp_def]⟩
  have run := congrArg (exec · m) same
  simp only [exec_applyTop, applyPlan, operands, ok_bind] at run
  rw [show s.apply op f m.settings os = .ok r from h] at run
  cases hx : t.apply op g m.settings os with
  | error e =>
    rw [hx] at run
    cases congrArg Prod.fst run
  | ok x =>
    rw [hx] at run
    have entries := congrArg (fun p => p.2.stack.entries.head?.map Entry.unit) run
    exact ⟨x, hx, (Option.some.inj entries).symm⟩

end Calc

/-- An operation with one result that goes over the elements of lists. -/
structure Operation.Broadcasts (op : Operation) (s : Signature) (f : Signature.Transform) :
    Prop where
  listed : op ∈ onOperands
  arity : 0 < op.arity
  results : op.results = 1
  run : op.action = .primitive (Calc.applyTop op.name op.minArgs s f)
  broadcast : s.broadcast = true

/-- No unit is raised to the exponents in a list. -/
def Operation.Uniform (op : Operation) (os : List Operand) : Prop :=
  op.name = Catalogue.pow.name → ∀ base exponent, os = [base, exponent] →
    base.unit = .none ∨ exponent.kind ≠ .list

namespace Operation.Broadcasts

open Operand

variable {op : Operation} {s : Signature} {f : Signature.Transform}

/-- The results for the elements of filled lists have the unit of the result for the lists. -/
theorem unit_element (h : op.Broadcasts s f) {settings : Settings} {os : List Operand}
    (count : os.length = op.minArgs) (filled : ∀ o ∈ os, o.value.filled = true)
    (uniform : op.Uniform os) {n i : Nat} (sized : Sized n os) (hi : i < n) {r x : Operand}
    (hr : s.apply op.name f settings os = .ok r)
    (hx : s.apply op.name f settings (os.map (element i)) = .ok x) : x.unit = r.unit := by
  have countElements : (os.map (element i)).length = op.minArgs := by simpa using count
  have filledElements : ∀ e ∈ os.map (element i), e.value.filled = true :=
    List.forall_mem_map.mpr fun o ho => filled_element (filled o ho) (sized o ho) hi
  cases unitRule_onOperands op h.listed with
  | rule hrun units =>
    obtain ⟨t, g, rfl, units⟩ := units
    have same := Action.primitive.inj (h.run.symm.trans hrun)
    obtain ⟨r', hr', ru⟩ := Calc.unit_of_applyTop same count hr
    obtain ⟨x', hx', xu⟩ := Calc.unit_of_applyTop same countElements hx
    have kept : (os.map (element i)).map Operand.unit = os.map Operand.unit := by
      simp [Function.comp_def, element_unit]
    have outer := Signature.unit_apply units filled hr'
    have inner := Signature.unit_apply units filledElements hx'
    rw [kept] at inner
    rw [← ru, ← xu]
    exact Except.ok.inj (inner.symm.trans outer)
  | power isPower =>
    subst isPower
    have same : Calc.applyTop "^" 2 s f =
        Calc.applyTop "^" 2 powers (Calc.ofPair "^" Operand.pow) :=
      Action.primitive.inj h.run.symm
    obtain ⟨a, b, rfl⟩ := List.length_eq_two.mp count
    obtain ⟨r', hr', ru⟩ := Calc.unit_of_applyTop same count hr
    obtain ⟨x', hx', xu⟩ := Calc.unit_of_applyTop same countElements hx
    have outer := Signature.unit_apply_pow filled (uniform rfl a b rfl) hr'
    have inner : unitPower (a.element i).unit (b.element i).value = .ok x'.unit := by
      refine Signature.unit_apply_pow filledElements ?_ hx'
      rcases uniform rfl a b rfl with none | other
      · exact .inl (element_unit.trans none)
      · exact .inr (by rwa [element_of_ne other])
    have alike : unitPower (a.element i).unit (b.element i).value = unitPower a.unit b.value := by
      rw [element_unit]
      rcases uniform rfl a b rfl with none | other
      · rw [none]
        rfl
      · rw [element_of_ne other]
    rw [← ru, ← xu]
    exact Except.ok.inj (inner.symm.trans (alike.trans outer))
  | varied counts => exact absurd h.results (counts.resolve_left (Int.not_le.mpr h.arity))

/-- Whatever operands, of any units and with lists in any nesting, an operation that goes over
lists is given: if it has a result, that is a list as long as all of the lists, and at each index
the operation has a result for the operands there, which is the element of the list as one of its
kind. The first of these results has the unit of the list, and all have it if no list is empty and
no unit is raised to the exponents in a list. If the lists have one size and the operation fails at
some index, it fails for the lists. -/
theorem elementwise (h : op.Broadcasts s f) (settings : Settings) {os : List Operand}
    (count : os.length = op.minArgs) (concrete : ∀ o ∈ os, o.Concrete)
    (list : ∃ o ∈ os, o.kind = .list) :
    (∀ r, s.apply op.name f settings os = .ok r → ∃ k items, r.value = .list k items ∧
      Sized items.length os ∧ ∀ i (hi : i < items.length), ∃ x w,
        s.apply op.name f settings (os.map (element i)) = .ok x ∧
        x.value.widen settings.style.precision k = .ok w ∧ w.reduce = items[i].reduce ∧
        (i = 0 → x.unit = r.unit) ∧
        ((∀ o ∈ os, o.value.filled = true) → op.Uniform os → x.unit = r.unit)) ∧
    ∀ n i e, Sized n os → i < n → s.apply op.name f settings (os.map (element i)) = .error e →
      ∃ e, s.apply op.name f settings os = .error e := by
  have lists : s.apply op.name f settings os = Signature.overElements op.name
      settings.style.precision (s.apply op.name f settings) os :=
    Signature.apply_lists h.broadcast list concrete
  constructor
  · intro r hr
    obtain ⟨k, items, hv, sized, each⟩ :=
      Signature.overElements_eq_ok list (lists.symm.trans hr)
    refine ⟨k, items, hv, sized, fun i hi => ?_⟩
    obtain ⟨x, w, hx, hw, reduced, first⟩ := each i hi
    exact ⟨x, w, hx, hw, reduced, first, fun filled uniform =>
      h.unit_element count filled uniform sized hi hr hx⟩
  · intro n i e sized hi he
    rw [lists]
    exact Signature.overElements_eq_error sized list hi he

/-- Two lists of metres in a list, and five metres. -/
def nestedMetres : List Operand :=
  [⟨.list .list [.list .integer [.integer 1, .integer 2], .list .integer [.integer 3]],
    .base "m"⟩, ⟨.integer 5, .base "m"⟩]

/-- The sum has two elements. The second one is the sum of the second list and five metres, and has
the unit of the first. -/
theorem elementwise_sum :
    let sum := additive.apply "+" (Calc.ofPair "+" Operand.add) {}
    ∃ r k items x, sum nestedMetres = .ok r ∧ r.value = .list k items ∧ items.length = 2 ∧
      sum (nestedMetres.map (element 1)) = .ok x ∧ x.unit = r.unit := by
  intro sum
  have broadcasts : add.Broadcasts additive (Calc.ofPair "+" Operand.add) :=
    ⟨by simp [onOperands, numeric], by decide, rfl, rfl, rfl⟩
  have run : (sum nestedMetres).isOk = true ∧
      (∀ o ∈ nestedMetres, o.Concrete) ∧ (∃ o ∈ nestedMetres, o.kind = .list) ∧
      ∀ o ∈ nestedMetres, o.value.filled = true := by
    decide +kernel
  obtain ⟨succeeds, concrete, list, filled⟩ := run
  cases hr : sum nestedMetres with
  | error e =>
    rw [hr] at succeeds
    cases succeeds
  | ok r =>
    obtain ⟨k, items, hv, sized, each⟩ :=
      (broadcasts.elementwise {} rfl concrete list).1 r hr
    have two : items.length = 2 := (sized _ List.mem_cons_self 2 rfl).symm
    obtain ⟨x, _, hx, _, _, _, unit⟩ := each 1 (by omega)
    have uniform : add.Uniform nestedMetres := fun named => absurd named (by decide)
    exact ⟨r, k, items, x, rfl, hv, two, hx, unit filled uniform⟩

/-- Two metres to the powers one and two are a list of metres, though the second power is a square
metre. An empty list and one metre in a list are squared to a list of metres, though the square of
one metre is a square metre. -/
theorem elementwise_units_differ :
    (let power := powers.apply "^" (Calc.ofPair "^" Operand.pow) {}
     let os : List Operand := [⟨.integer 2, .base "m"⟩,
       ⟨.list .integer [.integer 1, .integer 2], .none⟩]
     (power os).toOption.map Operand.unit = some (.base "m") ∧
       (power (os.map (element 1))).toOption.map Operand.unit =
         ((UnitProduct.base "m").pow 2).toOption) ∧
    (let squared := scalarOrMatrix.apply "sq" (Calc.ofSingle "sq" Operand.square) {}
     let os : List Operand :=
       [⟨.list .list [.list .integer [], .list .integer [.integer 1]], .base "m"⟩]
     (squared os).toOption.map Operand.unit = some (.base "m") ∧
       (squared (os.map (element 1))).toOption.map Operand.unit =
         ((UnitProduct.base "m").pow 2).toOption) := by
  decide +kernel

end Operation.Broadcasts

end StackCalc
