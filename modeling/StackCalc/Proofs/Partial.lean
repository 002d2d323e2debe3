import StackCalc.Proofs.Evaluation

/-! # Evaluating in parts

An expression may be evaluated while some of its variables stand for nothing, and again when they
are bound. What has been computed meanwhile is put into the rest of the expression as constants, and
constants have no unit. So evaluating in parts comes to the same as evaluating once, as long as no
operand with a unit has to wait for a variable. -/

namespace StackCalc

open Calc Evaluator

instance decidableYields {α : Type} (Q : α → Prop) [DecidablePred Q] :
    ∀ r : Except Error α, Decidable (Yields Q r)
  | .ok a => decidable_of_iff (Q a) yields_ok.symm
  | .error _ => .isTrue yields_error

/-! ## 1. Results that agree -/

/-- Two results are stored alike, or both are failures. -/
def Agree (style : NumberStyle) (r r' : Except Error Operand) : Prop :=
  r.toOption.map (Operand.stored style) = r'.toOption.map (Operand.stored style)

/-- Two lists of results are stored alike, or both are failures. -/
def AgreeAll (style : NumberStyle) (rs rs' : Except Error (List Operand)) : Prop :=
  rs.toOption.map (List.map (Operand.stored style)) =
    rs'.toOption.map (List.map (Operand.stored style))

variable {style : NumberStyle}

theorem agree_error {e : Error} {r : Except Error Operand} :
    Agree style (.error e) r ↔ ∃ e', r = .error e' := by
  cases r <;> simp [Agree, Except.toOption]

theorem agree_ok {o : Operand} {r : Except Error Operand} :
    Agree style (.ok o) r ↔ ∃ o', r = .ok o' ∧ o.stored style = o'.stored style := by
  cases r <;> simp [Agree, Except.toOption]

/-- Results that agree are the same on a stack. -/
theorem Agree.onStack {r r' : Except Error Operand} (h : Agree style r r') (below : List Operand) :
    ((r.map (Operand.stored style)).map (· :: below)).toOption =
      ((r'.map (Operand.stored style)).map (· :: below)).toOption := by
  have kept : ∀ r : Except Error Operand,
      ((r.map (Operand.stored style)).map (· :: below)).toOption =
        (r.toOption.map (Operand.stored style)).map (· :: below) := by
    rintro (e | o) <;> rfl
  rw [kept, kept, show r.toOption.map _ = r'.toOption.map _ from h]

theorem agree_mapM {α β : Type} {f : α → Except Error Operand} {g : β → Except Error Operand}
    {as : List α} {bs : List β} (h : List.Forall₂ (fun a b => Agree style (f a) (g b)) as bs) :
    AgreeAll style (as.mapM f) (bs.mapM g) := by
  induction h with
  | nil => rfl
  | @cons a b as bs hab _ ih =>
    rw [List.mapM_cons, List.mapM_cons]
    cases hf : f a with
    | error e =>
      obtain ⟨e', hg⟩ := agree_error.mp (hf ▸ hab)
      rw [hg]
      rfl
    | ok o =>
      obtain ⟨o', hg, same⟩ := agree_ok.mp (hf ▸ hab)
      rw [hg]
      show AgreeAll style (as.mapM f >>= fun os => pure (o :: os))
        (bs.mapM g >>= fun os => pure (o' :: os))
      revert ih
      cases as.mapM f <;> cases bs.mapM g <;> intro ih
      · rfl
      · cases ih
      · cases ih
      · exact congrArg some (congrArg₂ List.cons same (Option.some.inj ih))

/-- Operands that are stored as ones that are no expressions are none either. -/
theorem AgreeAll.concrete {rs rs' : Except Error (List Operand)} (h : AgreeAll style rs rs')
    (concrete : Yields (fun os => ∀ o ∈ os, o.Concrete) rs') :
    Yields (fun os => ∀ o ∈ os, o.Concrete) rs := by
  rintro os rfl
  cases rs' with
  | error e => cases h
  | ok os' =>
    have same : os.map (Operand.stored style) = os'.map (Operand.stored style) := Option.some.inj h
    have stored : ∀ o ∈ os'.map (Operand.stored style), o.Concrete := by
      simpa using concrete os' rfl
    rw [← same] at stored
    simpa using stored

/-- An operation on arguments that are stored alike. -/
theorem Evaluator.Computes.agree {name : String} {count : Nat} (op : Computes name count)
    {settings : Settings} {rs rs' : Except Error (List Operand)}
    (h : AgreeAll settings.style rs rs')
    (length : Yields (fun os : List Operand => os.length = count) rs')
    (concrete : Yields (fun os => ∀ o ∈ os, o.Concrete) rs') :
    Agree settings.style (rs >>= applied settings name) (rs' >>= applied settings name) := by
  cases rs with
  | error e =>
    cases rs' with
    | error e' => rfl
    | ok os' => cases h
  | ok os =>
    cases rs' with
    | error e' => cases h
    | ok os' =>
      have same : os.map (Operand.stored settings.style) =
          os'.map (Operand.stored settings.style) := Option.some.inj h
      have ready : ∀ o ∈ os, o.Concrete := h.concrete concrete os rfl
      have ready' : ∀ o ∈ os', o.Concrete := concrete os' rfl
      show Agree settings.style (applied settings name os) (applied settings name os')
      rw [applied_concrete ready, applied_concrete ready',
        op.congr settings os' os (length os' rfl) same.symm]
      rfl

/-! ## 2. Evaluating again -/

theorem Expr.ofValue_concrete {v : Value} (h : v.Concrete) : Expr.ofValue v = .const v := by
  cases v with
  | symbolic e => exact absurd rfl h
  | scalar | matrix | list | time => rfl

namespace Operand

/-- A constant is its own result. -/
def result (settings : Settings) (ρ : String → Option Operand) (levels : Nat) (o : Operand) :
    Except Error Operand :=
  match o.value with
  | .symbolic e => e.result settings ρ levels
  | _ => .ok o

variable {settings : Settings} {ρ : String → Option Operand} {levels : Nat} {o : Operand}

theorem result_concrete (h : o.Concrete) : o.result settings ρ levels = .ok o := by
  unfold result
  split
  · rename_i e symbolic
    exact absurd (congrArg Value.kind symbolic) h
  · rfl

theorem result_symbolic {e : Expr} (h : o.value = .symbolic e) :
    o.result settings ρ levels = e.result settings ρ levels := by
  unfold result
  rw [h]

/-- A value is its own result, as it is stored. -/
theorem agree_stored (h : o.Concrete) (style : NumberStyle) :
    Agree style ((o.stored style).result settings ρ levels) (.ok o) := by
  rw [result_concrete ((concrete_stored style o).mpr h)]
  exact agree_ok.mpr ⟨o, rfl, stored_stored style o⟩

theorem symbolic_of_not_concrete (h : ¬ o.Concrete) : ∃ e, o.value = .symbolic e := by
  obtain ⟨v, unit⟩ := o
  cases v with
  | symbolic e => exact ⟨e, rfl⟩
  | scalar x => exact absurd (Value.concrete_scalar x) h
  | matrix | list | time => exact absurd (fun same => by cases same) h

theorem stored_symbolic {e : Expr} (h : o.value = .symbolic e) (style : NumberStyle) :
    (o.stored style).value = .symbolic (Value.reduceExpr e) := by
  obtain ⟨v, unit⟩ := o
  cases h
  rfl

/-- An operand is an expression over some variables that can be evaluated, if it is one at all. -/
def Residual (names : List String) (o : Operand) : Prop :=
  ∀ e, o.value = .symbolic e → e.Computable ∧ ∀ x ∈ e.vars, x ∈ names

theorem Concrete.residual {names : List String} (h : o.Concrete) : o.Residual names :=
  fun _ symbolic => absurd (congrArg Value.kind symbolic) h

theorem Residual.mono {names names' : List String} (h : o.Residual names)
    (within : ∀ x ∈ names, x ∈ names') : o.Residual names' := fun e he =>
  ⟨(h e he).1, fun x hx => within x ((h e he).2 x hx)⟩

theorem Residual.stored {names : List String} (h : o.Residual names) (style : NumberStyle) :
    (o.stored style).Residual names := by
  by_cases concrete : o.Concrete
  · exact ((concrete_stored style o).mpr concrete).residual
  · obtain ⟨e, he⟩ := symbolic_of_not_concrete concrete
    obtain ⟨computable, within⟩ := h e he
    obtain ⟨reduced, vars⟩ := computable.reduce
    intro e' he'
    cases (stored_symbolic he style).symm.trans he'
    exact ⟨reduced, vars ▸ within⟩

theorem Residual.ofValue {names : List String} (h : o.Residual names) :
    (Expr.ofValue o.value).Computable ∧ ∀ x ∈ (Expr.ofValue o.value).vars, x ∈ names := by
  by_cases concrete : o.Concrete
  · rw [Expr.ofValue_concrete concrete]
    exact ⟨.const concrete, List.forall_mem_nil _⟩
  · obtain ⟨e, he⟩ := symbolic_of_not_concrete concrete
    rw [he]
    exact h e he

/-- An operation that waits can be evaluated if its operands can. -/
theorem residual_waiting {names : List String} {name : String} {os : List Operand}
    (some : os ≠ []) (op : Computes name os.length) (h : ∀ o ∈ os, o.Residual names) :
    (waiting name os).Residual names := by
  rintro e ⟨⟩
  have count : (os.map fun o => Expr.ofValue o.value).length = os.length := List.length_map _
  constructor
  · refine .apply (by simpa using some) (count ▸ op) ?_
    simpa using fun o ho => (h o ho).ofValue.1
  · rw [Expr.vars, Expr.varsAll_eq, List.flatMap_map]
    intro x hx
    obtain ⟨o, ho, hx⟩ := List.mem_flatMap.mp hx
    exact (h o ho).ofValue.2 x hx

/-- An operand as the argument of an operation that waits on the stack. -/
def argument (o : Operand) : Expr := Value.reduceExpr (Expr.ofValue o.value)

end Operand

namespace Expr

/-- With some levels left, no operand with a unit waits for a variable: where an operation in the
expression waits, its operands other than expressions have no unit. -/
def Seamless (settings : Settings) (ρ : String → Option Operand) : Nat → Expr → Prop
  | 0, _ => True
  | levels + 1, e =>
    match e with
    | .var _ | .const _ => True
    | .apply _ args =>
      (∀ a ∈ args, Seamless settings ρ levels a) ∧
        Yields (fun os => (∀ o ∈ os, o.Concrete) ∨ ∀ o ∈ os, o.Concrete → o.unit = .none)
          (args.mapM (Expr.result settings ρ levels))

instance decidableSeamless (settings : Settings) (ρ : String → Option Operand) :
    ∀ (levels : Nat) (e : Expr), Decidable (e.Seamless settings ρ levels)
  | 0, _ => .isTrue trivial
  | _ + 1, .var _ | _ + 1, .const _ => .isTrue trivial
  | levels + 1, .apply _ args =>
    have := decidableSeamless settings ρ levels
    inferInstanceAs (Decidable ((∀ a ∈ args, Seamless settings ρ levels a) ∧
      Yields (fun os => (∀ o ∈ os, o.Concrete) ∨ ∀ o ∈ os, o.Concrete → o.unit = .none)
        (args.mapM (Expr.result settings ρ levels))))

variable {settings : Settings} {ρ ρ₁ ρ₂ : String → Option Operand}

/-- What is left of an expression has no other variables, and can be evaluated. -/
theorem residual_result (levels : Nat) : ∀ {e : Expr}, e.Computable → ConcreteOn e.vars ρ →
    Yields (Operand.Residual e.vars) (e.result settings ρ levels) := by
  induction levels with
  | zero => exact fun _ _ => yields_error
  | succ levels ih =>
    intro e he hρ
    cases he with
    | var name =>
      rw [result_var, yields_ok]
      cases bound : ρ name with
      | none =>
        rintro e' ⟨⟩
        exact ⟨.var name, fun _ hx => hx⟩
      | some o => exact Operand.Concrete.residual (hρ name (List.mem_singleton_self name) o bound)
    | @const v h => exact yields_ok.mpr (Operand.Concrete.residual (o := .plain v) h)
    | @apply name args some op h =>
      intro o ho
      obtain ⟨os, hos, ho⟩ := bind_eq_ok.mp ho
      have length : os.length = args.length := (mapM_eq_ok.mp hos).length_eq.symm
      by_cases concrete : ∀ o ∈ os, o.Concrete
      · rw [applied_concrete concrete] at ho
        exact (op.concrete settings os length concrete o ho).residual
      · rw [applied_waiting concrete] at ho
        cases ho
        have count : 0 < os.length := length ▸ List.length_pos_iff.mpr some
        refine Operand.residual_waiting (List.ne_nil_of_length_pos count) (length ▸ op) ?_
        intro o ho
        obtain ⟨a, ha, hao⟩ := (Value.mapM_eq_ok hos).1 o ho
        exact (ih (h a ha) (fun x hx => hρ x (vars_arg ha hx)) o hao).mono
          fun x hx => vars_arg ha hx

/-- An operand that waits in an operation is evaluated again as it is on the stack. -/
theorem agree_waiting {o : Operand} (plain : o.Concrete → o.unit = .none) (levels : Nat) :
    Agree settings.style
      (o.argument.result settings ρ (levels + 1))
      ((o.stored settings.style).result settings ρ (levels + 1)) := by
  by_cases hc : o.Concrete
  · have stored : (o.stored settings.style).Concrete := (Operand.concrete_stored _ o).mpr hc
    rw [Operand.argument, ofValue_concrete hc, Operand.result_concrete stored, Value.reduceExpr,
      result_const]
    refine agree_ok.mpr ⟨_, rfl, ?_⟩
    obtain ⟨v, unit⟩ := o
    cases plain hc
    rw [Operand.stored_stored]
    exact Operand.stored_reduce settings.style v .none
  · obtain ⟨e, he⟩ := Operand.symbolic_of_not_concrete hc
    rw [Operand.result_symbolic (Operand.stored_symbolic he settings.style), Operand.argument, he]
    rfl

/-- An operation that is applied, or waits and is evaluated again, comes to what it does when its
arguments are evaluated again first. -/
theorem agree_applied {name : String} {count : Nat} (op : Computes name count) {os : List Operand}
    (length : os.length = count)
    (plain : (∀ o ∈ os, o.Concrete) ∨ ∀ o ∈ os, o.Concrete → o.unit = .none) {levels : Nat}
    (concrete : Yields (fun os => ∀ o ∈ os, o.Concrete)
      (os.mapM fun o => (o.stored settings.style).result settings ρ (levels + 1))) :
    Agree settings.style
      (applied settings name os >>= fun o =>
        (o.stored settings.style).result settings ρ (levels + 2))
      ((os.mapM fun o => (o.stored settings.style).result settings ρ (levels + 1)) >>=
        applied settings name) := by
  by_cases ready : ∀ o ∈ os, o.Concrete
  · have kept : (os.mapM fun o => (o.stored settings.style).result settings ρ (levels + 1)) =
        .ok (os.map (Operand.stored settings.style)) := by
      refine mapM_eq_ok.mpr (List.forall₂_map_right_iff.mpr (List.forall₂_same.mpr ?_))
      exact fun o ho => Operand.result_concrete
        ((Operand.concrete_stored settings.style o).mpr (ready o ho))
    have restored : ∀ o ∈ os.map (Operand.stored settings.style), o.Concrete := by simpa using ready
    have same : outcome settings name (os.map (Operand.stored settings.style)) =
        outcome settings name os := by
      refine op.congr settings _ os (by rw [List.length_map, length]) ?_
      rw [List.map_map]
      exact List.map_congr_left fun o _ => Operand.stored_stored settings.style o
    rw [kept, applied_concrete ready]
    show Agree _ _ (applied settings name (os.map (Operand.stored settings.style)))
    rw [applied_concrete restored, same]
    cases ho : outcome settings name os with
    | error e => rfl
    | ok o =>
      show Agree _ ((o.stored settings.style).result settings ρ (levels + 2)) _
      rw [op.stored settings os length o ho,
        Operand.result_concrete (op.concrete settings os length ready o ho)]
      rfl
  · have residual : ((Operand.waiting name os).stored settings.style).result settings ρ
        (levels + 2) = (os.mapM fun o => o.argument.result settings ρ (levels + 1)) >>=
          applied settings name := by
      rw [Operand.result_symbolic (Operand.stored_symbolic rfl settings.style), Value.reduceExpr,
        reduceArgs_eq_map, result_apply, List.map_map, List.mapM_map]
      rfl
    rw [applied_waiting ready]
    show Agree _ (((Operand.waiting name os).stored settings.style).result settings ρ
      (levels + 2)) _
    rw [residual]
    refine op.agree (agree_mapM (List.forall₂_same.mpr fun o ho => ?_)) ?_ concrete
    · exact agree_waiting (plain.resolve_left ready o ho) levels
    · exact fun os' hos => (mapM_eq_ok.mp hos).length_eq.symm.trans length

/-- Evaluating with some of the variables and again with all of them agrees with evaluating once. -/
theorem result_again (levels : Nat) : ∀ {e : Expr}, e.Computable → Covers e.vars ρ₂ →
    (∀ x ∈ e.vars, ∀ o, ρ₁ x = some o → ρ₂ x = some o) → e.Seamless settings ρ₁ levels →
    Agree settings.style
      (e.result settings ρ₁ levels >>= fun o =>
        (o.stored settings.style).result settings ρ₂ levels)
      (e.result settings ρ₂ levels) := by
  induction levels with
  | zero => exact fun _ _ _ _ => rfl
  | succ levels ih =>
    intro e he covers kept seamless
    cases he with
    | var name =>
      obtain ⟨o, ho, concrete⟩ := covers name (List.mem_singleton_self name)
      cases bound : ρ₁ name with
      | none =>
        rw [result_var, bound]
        rfl
      | some o' =>
        cases ho.symm.trans (kept name (List.mem_singleton_self name) o' bound)
        rw [result_var, result_var, bound, ho]
        exact Operand.agree_stored concrete settings.style
    | @const v h => exact Operand.agree_stored (o := .plain v) h settings.style
    | @apply name args some op h =>
      -- either way, the operation is applied to its arguments evaluated again
      obtain ⟨inner, plain⟩ := seamless
      let again (o : Operand) := (o.stored settings.style).result settings ρ₂ levels
      have each : ∀ a ∈ args, Agree settings.style (a.result settings ρ₁ levels >>= again)
          (a.result settings ρ₂ levels) := fun a ha =>
        ih (h a ha) (fun x hx => covers x (vars_arg ha hx)) (fun x hx => kept x (vars_arg ha hx))
          (inner a ha)
      rw [result_apply, result_apply]
      cases hos : args.mapM (Expr.result settings ρ₁ levels) with
      | error e =>
        obtain ⟨a, ha, e', he'⟩ := mapM_eq_error.mp ⟨e, hos⟩
        have failed := each a ha
        rw [he'] at failed
        obtain ⟨e'', h''⟩ := mapM_eq_error.mpr ⟨a, ha, agree_error.mp failed⟩
        rw [h'']
        rfl
      | ok os =>
        have matched := mapM_eq_ok.mp hos
        have agreed : AgreeAll settings.style (os.mapM again)
            (args.mapM (Expr.result settings ρ₂ levels)) := by
          refine agree_mapM (List.Forall₂.flip ?_)
          refine ((List.forall₂_and_left _ _).mpr ⟨each, matched⟩).imp fun a o h => ?_
          rw [h.2] at h
          exact h.1
        have length : Yields (fun os : List Operand => os.length = args.length)
            (args.mapM (Expr.result settings ρ₂ levels)) :=
          fun os h => (mapM_eq_ok.mp h).length_eq.symm
        have concrete : Yields (fun os => ∀ o ∈ os, o.Concrete)
            (args.mapM (Expr.result settings ρ₂ levels)) := by
          intro os hos o ho
          obtain ⟨a, ha, hao⟩ := (Value.mapM_eq_ok hos).1 o ho
          exact result_concrete levels (h a ha) (fun x hx => covers x (vars_arg ha hx)) o hao
        -- an argument has been evaluated, so some level was left for it
        obtain ⟨k, rfl⟩ : ∃ k, levels = k + 1 := by
          obtain ⟨a, ha⟩ := List.exists_mem_of_ne_nil args some
          obtain ⟨o, _, hao⟩ := (Value.mapM_eq_ok hos).2 a ha
          cases levels with
          | zero => cases hao
          | succ k => exact ⟨k, rfl⟩
        exact (agree_applied op matched.length_eq.symm (plain os hos)
          (agreed.concrete concrete)).trans (op.agree agreed length concrete)

end Expr

/-! ## 3. Sessions -/

/-- Bindings in two batches for some names. The second batch has names of its own, which stand for
nothing before. -/
structure Batches (s : Scopes) (names : List String) (first second : List Binding) : Prop where
  unnamed : ∀ b ∈ first ++ second, Registry.contains b.name = false
  concrete : ∀ b ∈ first ++ second, b.value.Concrete
  unbound : ∀ b ∈ second, s.get? b.name = none
  apart : ∀ b ∈ second, b.name ∉ first.map Binding.name
  complete : ∀ x ∈ names, x ∈ (first ++ second).map Binding.name

namespace Batches

variable {s : Scopes} {names : List String} {first second : List Binding}

/-- With both batches, every name stands for a value. -/
theorem covers (h : Batches s names first second) (globals : s.locals = []) (style : NumberStyle) :
    Covers names (s.bindAll style (first ++ second)).operand? := by
  intro x hx
  rcases Scopes.get_bindAll globals style (first ++ second) x with
    ⟨b, hb, _, bound⟩ | ⟨missing, _⟩
  · refine ⟨(b.entry style).operand, by rw [Scopes.operand?, bound]; rfl, ?_⟩
    exact (Operand.concrete_stored style ⟨b.value, b.unit⟩).mpr (h.concrete b hb)
  · exact absurd (h.complete x hx) missing

/-- The second batch leaves what names stand for after the first one. -/
theorem kept (h : Batches s names first second) (globals : s.locals = []) (style : NumberStyle) :
    ∀ x ∈ names, ∀ o, (s.bindAll style first).operand? x = some o →
      (s.bindAll style (first ++ second)).operand? x = some o := by
  intro x hx o ho
  rw [Scopes.bindAll_append]
  rcases Scopes.get_bindAll (Scopes.locals_bindAll globals first) style second x with
    ⟨b, hb, rfl, _⟩ | ⟨_, same⟩
  · have before : (s.bindAll style first).get? b.name = none := by
      rcases Scopes.get_bindAll globals style first b.name with
        ⟨c, hc, named, _⟩ | ⟨_, same⟩
      · exact absurd (List.mem_map.mpr ⟨c, hc, named⟩) (h.apart b hb)
      · exact same.trans (h.unbound b hb)
    rw [Scopes.operand?, before] at ho
    cases ho
  · rw [Scopes.operand?, same]
    exact ho

end Batches

namespace Session

variable {v : View}

/-- What is stored on top of the stack is evaluated. -/
theorem ends_eval_stored (free : v.scopes.Free) {x : Entry}
    (stored : x.operand.stored v.settings.style = x.operand)
    {names : List String} (residual : x.operand.Residual names)
    (values : ConcreteOn names v.scopes.operand?) :
    Ends [.keyword "eval"] (v.push x) v
      ((x.operand.result v.settings v.scopes.operand? maxNesting).map fun o =>
        [o.stored v.settings.style]) := by
  by_cases concrete : x.operand.Concrete
  · rw [Operand.result_concrete concrete]
    exact ⟨[x], congrArg (fun o => [o]) stored.symm, leads_eval_concrete free rfl concrete⟩
  · obtain ⟨e, he⟩ := Operand.symbolic_of_not_concrete concrete
    obtain ⟨computable, within⟩ := residual e he
    rw [Operand.result_symbolic he]
    exact ends_eval free he computable fun y hy => values y (within y hy)

/-- An expression is evaluated with the first batch of bindings, and what it has become is evaluated
again with both. -/
theorem ends_eval_parts (free : v.scopes.Free) (globals : v.scopes.locals = []) {e : Expr}
    (he : e.IsFormula) {first second : List Binding}
    (batches : Batches v.scopes e.vars first second) :
    let ρ (bs : List Binding) := (v.scopes.bindAll v.settings.style bs).operand?
    Ends (first.flatMap Binding.instructions ++ ([.symbolic e, .keyword "eval"] ++
        (second.flatMap Binding.instructions ++ [.keyword "eval"]))) v (v.bindAll (first ++ second))
      (((Value.reduceExpr e).result v.settings (ρ first) maxNesting >>= fun o =>
          (o.stored v.settings.style).result v.settings (ρ (first ++ second)) maxNesting).map
        fun o => [o.stored v.settings.style]) := by
  intro ρ
  obtain ⟨reduced, vars⟩ := he.computable.reduce
  obtain ⟨unnamedFirst, unnamedSecond⟩ := List.forall_mem_append.mp batches.unnamed
  have freeFirst : (v.bindAll first).scopes.Free := Scopes.Free.bindAll free unnamedFirst
  have covers : Covers e.vars (ρ (first ++ second)) := batches.covers globals v.settings.style
  have concrete : ConcreteOn e.vars (ρ first) := fun x hx o ho =>
    covers.concreteOn x hx o (batches.kept globals v.settings.style x hx o ho)
  refine (leads_bindAll unnamedFirst free).ends ?_
  have evaluated : Ends [.symbolic e, .keyword "eval"] (v.bindAll first) (v.bindAll first)
      (((Value.reduceExpr e).result v.settings (ρ first) maxNesting).map fun o =>
        [o.stored v.settings.style]) := ends_symbolic_eval freeFirst he.computable concrete
  cases hr : (Value.reduceExpr e).result v.settings (ρ first) maxNesting with
  | error fault =>
    rw [hr] at evaluated
    exact Fails.append evaluated
  | ok o =>
    rw [hr] at evaluated
    obtain ⟨xs, hxs, hleads⟩ := evaluated
    obtain ⟨x, rfl, hx⟩ := List.map_eq_singleton_iff.mp hxs
    have bound : Leads (second.flatMap Binding.instructions) ((v.bindAll first).pushAll [x])
        ((v.bindAll (first ++ second)).push x) := by
      have both : (v.bindAll first).bindAll second = v.bindAll (first ++ second) := by
        rw [View.bindAll, View.bindAll, View.bindAll, Scopes.bindAll_append]
      rw [← both]
      exact leads_bindAll (v := (v.bindAll first).pushAll [x]) unnamedSecond freeFirst
    have residual : x.operand.Residual e.vars := by
      have left := Expr.residual_result maxNesting reduced (vars ▸ concrete) o hr
      rw [hx, ← vars]
      exact left.stored v.settings.style
    have stored : x.operand.stored v.settings.style = x.operand := by
      rw [hx]
      exact Operand.stored_stored v.settings.style o
    have again := ends_eval_stored (v := v.bindAll (first ++ second)) (x := x)
      (Scopes.Free.bindAll free batches.unnamed) stored residual covers.concreteOn
    rw [hx] at again
    exact hleads.ends (bound.ends again)

/-- Evaluating an expression with the first batch of bindings and then again with both comes to the
same as evaluating it once with both, or both ways fail, as long as the first evaluation leaves no
operand with a unit in an operation that waits. -/
theorem eval_in_parts (settings : Settings) (clock : Int) (steps : List Step) (e : Expr)
    (first second : List Binding) :
    let m := after (Machine.start settings clock) steps
    m.settings.stackLimit = none → e.IsFormula → Batches m.scopes e.vars first second →
      (Value.reduceExpr e).Seamless m.settings
        (m.scopes.bindAll m.settings.style first).operand? maxNesting →
      (result (first.flatMap Binding.instructions ++ ([.symbolic e, .keyword "eval"] ++
        (second.flatMap Binding.instructions ++ [.keyword "eval"]))) m).toOption =
      (result ((first ++ second).flatMap Binding.instructions ++
        [.symbolic e, .keyword "eval"]) m).toOption := by
  intro m unlimited formula batches seamless
  have rest : m.AtRest := atRest_after settings clock steps
  have free : m.scopes.Free := free_after settings clock steps
  let v : View := ⟨m.settings, m.scopes, m.stack.entries⟩
  have hm : v.Of m := View.of_self (rest.limit.trans unlimited) rest.nesting
  obtain ⟨reduced, vars⟩ := formula.computable.reduce
  have covers := batches.covers rest.scopes m.settings.style
  have parts := ends_eval_parts (v := v) free rest.scopes formula batches
  have once : Ends ((first ++ second).flatMap Binding.instructions ++
      [.symbolic e, .keyword "eval"]) v (v.bindAll (first ++ second))
      (((Value.reduceExpr e).result m.settings
        (m.scopes.bindAll m.settings.style (first ++ second)).operand? maxNesting).map fun o =>
          [o.stored m.settings.style]) :=
    (leads_bindAll batches.unnamed free).ends
      (ends_symbolic_eval (v := v.bindAll (first ++ second))
        (Scopes.Free.bindAll free batches.unnamed) formula.computable covers.concreteOn)
  have agree := Expr.result_again maxNesting reduced (vars ▸ covers)
    (vars ▸ batches.kept rest.scopes m.settings.style) seamless
  rw [parts.result_single hm, once.result_single hm]
  exact agree.onStack _

/-- Of `(X + 1) * Y`, the sum is computed first, without unit, and the product when `Y` is bound to
two metres. -/
theorem eval_in_parts_product :
    let m := after (Machine.start {} 0) []
    let e := Expr.apply "*" [.apply "+" [.var "X", .const (.integer 1)], .var "Y"]
    let first : List Binding := [⟨"X", .integer 3, .none⟩]
    let second : List Binding := [⟨"Y", .integer 2, .base "m"⟩]
    (m.settings.stackLimit = none ∧ e.IsFormula ∧ Batches m.scopes e.vars first second ∧
      (Value.reduceExpr e).Seamless m.settings
        (m.scopes.bindAll m.settings.style first).operand? maxNesting) ∧
      (result (first.flatMap Binding.instructions ++ ([.symbolic e, .keyword "eval"] ++
        (second.flatMap Binding.instructions ++ [.keyword "eval"]))) m).toOption =
      (result ((first ++ second).flatMap Binding.instructions ++
        [.symbolic e, .keyword "eval"]) m).toOption := by
  intro m e first second
  have sum : (Expr.apply "+" [.var "X", .const (.integer 1)]).IsFormula :=
    .numeric Catalogue.add (by simp [Catalogue.numeric]) rfl
      (by simp [Expr.IsFormula.var, Expr.IsFormula.const (v := .integer 1) (by decide)])
  have formula : e.IsFormula := .numeric Catalogue.mul (by simp [Catalogue.numeric]) rfl
    (by simp [sum, Expr.IsFormula.var])
  have batches : Batches m.scopes e.vars first second :=
    ⟨by decide +kernel, by decide, fun _ _ => rfl, by decide, by decide⟩
  have seamless : (Value.reduceExpr e).Seamless m.settings
      (m.scopes.bindAll m.settings.style first).operand? maxNesting := by
    decide +kernel
  exact ⟨⟨rfl, formula, batches, seamless⟩,
    eval_in_parts {} 0 [] e first second rfl formula batches seamless⟩

/-- Two metres that wait for three more lose their unit, and cannot be added any more. -/
theorem unit_lost :
    let m := Machine.start {} 0
    let e := Expr.apply "+" [.var "X", .var "Y"]
    let first : List Binding := [⟨"X", .integer 2, .base "m"⟩]
    let second : List Binding := [⟨"Y", .integer 3, .base "m"⟩]
    (result (first.flatMap Binding.instructions ++ ([.symbolic e, .keyword "eval"] ++
      (second.flatMap Binding.instructions ++ [.keyword "eval"]))) m).toOption.isNone ∧
    (result ((first ++ second).flatMap Binding.instructions ++
      [.symbolic e, .keyword "eval"]) m).toOption.map
        (List.map fun o => (o.value.same (.integer 5), o.unit)) = some [(true, .base "m")] := by
  decide +kernel

end Session
end StackCalc
