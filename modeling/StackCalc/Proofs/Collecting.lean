import StackCalc.Proofs.Aggregates
import StackCalc.Proofs.CommonKinds
import StackCalc.Proofs.Reduction

/-! # Collecting and exploding lists

Collecting makes a list of the entries below a count, and exploding a list leaves its elements with
their count on top. Values that are exact or of one kind are the elements of their list as they are,
and the elements of a list that declares their kind make that list again. All that is stored on the
way is reduced, and storing it once more changes nothing. So each of the two operations undoes the
other one. -/

namespace StackCalc

open Calc Evaluator

/-! ## 1. Elements that are kept -/

section
variable {k : Kind} {v : Value} {items : List Value}

/-- An element has the declared kind, or is an integer among fractions. -/
theorem ElementsFit.kind_cases (h : ElementsFit k items) (hv : v ∈ items) :
    v.kind = k ∨ k = .rational ∧ v.kind = .integer := by
  by_cases fraction : k = .rational
  · subst fraction
    have exact := h.1 v hv
    simp only [Kind.isExact, Bool.or_eq_true, decide_eq_true_eq] at exact
    exact exact.elim (fun integer => .inr ⟨rfl, integer⟩) .inl
  · refine .inl ?_
    cases k <;> first | exact h v hv | exact absurd rfl fraction

theorem ElementsFit.exists_kind (h : ElementsFit k items) (some : items ≠ []) :
    ∃ v ∈ items, v.kind = k := by
  by_cases fraction : k = .rational
  · subst fraction
    exact h.2
  · obtain ⟨v, hv⟩ := List.exists_mem_of_ne_nil items some
    exact ⟨v, hv, (h.kind_cases hv).resolve_right fun other => fraction other.1⟩

/-- The declared kind is the widest one. -/
theorem ElementsFit.widest (h : ElementsFit k items) (some : items ≠ []) :
    Kind.Widest (items.map Value.kind) k := by
  refine ⟨List.mem_map.mpr (h.exists_kind some), fun j hj => ?_⟩
  obtain ⟨v, hv, rfl⟩ := List.mem_map.mp hj
  rcases h.kind_cases hv with same | ⟨rfl, integer⟩
  · exact same ▸ Kind.widensTo_refl _
  · exact integer ▸ by decide

namespace Value

theorem asElement_of_fit {digits : Nat} (h : ElementsFit k items) (hv : v ∈ items) :
    asElement digits k v = .ok v := by
  unfold asElement
  rcases h.kind_cases hv with same | kept
  · split
    · rfl
    · exact if_pos same
  · exact if_pos kept

/-- Either all elements are expressions, or none is. -/
theorem steady_of_fit (h : ElementsFit k items) : Steady items := by
  by_cases symbolic : k = .symbolic
  · refine .inr ⟨.integer, fun j hj => ?_, nofun⟩
    obtain ⟨mem, other⟩ := List.mem_filter.mp hj
    obtain ⟨v, hv, rfl⟩ := List.mem_map.mp mem
    subst symbolic
    exact absurd (h v hv) (by simpa using other)
  · refine .inl fun mem => ?_
    obtain ⟨v, hv, expression⟩ := List.mem_map.mp mem
    rcases h.kind_cases hv with same | ⟨-, integer⟩
    · exact symbolic (same.symm.trans expression)
    · cases integer.symm.trans expression

/-- A list is made again from its elements. -/
theorem ofItems_of_declares (digits : Nat) (h : Declares k items) :
    ofItems digits items = .ok (list k items) := by
  cases items with
  | nil => rw [h.2 rfl, ofItems]
  | cons v vs =>
    have widest := h.1.widest (List.cons_ne_nil v vs)
    have common := (steady_of_fit h.1).common_iff.mpr ⟨k, widest.common⟩
    have kinds : elementKind v.kind vs = .ok k := elementKind_eq_ok_iff.mpr ⟨widest, common⟩
    have elements : (v :: vs).mapM (asElement digits k) = .ok (v :: vs) := by
      rw [mapM_congr fun x hx => asElement_of_fit h.1 hx]
      exact (List.mapM_pure (f := id)).trans (congrArg Except.ok (List.map_id _))
    exact bind_eq_ok.mpr ⟨k, kinds, bind_eq_ok.mpr ⟨_, elements, rfl⟩⟩

/-- Exact values, or values of one kind. -/
def Uniform (vs : List Value) : Prop :=
  (∀ v ∈ vs, v.kind.isExact) ∨ ∃ k, ∀ v ∈ vs, v.kind = k

theorem declares_of_kind (some : items ≠ []) (h : ∀ v ∈ items, v.kind = k) : Declares k items := by
  refine ⟨?_, fun none => absurd none some⟩
  by_cases fraction : k = .rational
  · subst fraction
    obtain ⟨v, hv⟩ := List.exists_mem_of_ne_nil items some
    exact ⟨fun w hw => by rw [h w hw]; rfl, v, hv, h v hv⟩
  · cases k <;> first | exact h | exact absurd rfl fraction

theorem Uniform.exists_declares (h : Uniform items) : ∃ k, Declares k items := by
  rcases eq_or_ne items [] with rfl | some
  · exact ⟨.integer, nofun, fun _ => rfl⟩
  rcases h with exact | ⟨k, same⟩
  · by_cases fraction : ∃ v ∈ items, v.kind = .rational
    · exact ⟨.rational, ⟨exact, fraction⟩, fun none => absurd none some⟩
    · refine ⟨.integer, declares_of_kind some fun v hv => ?_⟩
      have kinds := exact v hv
      simp only [Kind.isExact, Bool.or_eq_true, decide_eq_true_eq] at kinds
      exact kinds.resolve_right fun rational => fraction ⟨v, hv, rational⟩
  · exact ⟨k, declares_of_kind some same⟩

theorem reduce_of_mem (h : (list k items).reduce = list k items) : ∀ v ∈ items, v.reduce = v := by
  rw [reduce, list.injEq, reduceItems_eq_map] at h
  exact List.map_inj_left.mp (h.2.trans (List.map_id items).symm)

end Value
end

/-! ## 2. The two operations -/

/-- A loop of steps that all succeed and change nothing succeeds. -/
theorem Calc.exec_forIn_ok {α β : Type} {x : α → Calc β} {as : List α} {m : Machine}
    (h : ∀ a ∈ as, ∃ b, exec (x a) m = (.ok b, m)) :
    exec (forIn as PUnit.unit fun a _ => do
      let _ ← x a
      pure (ForInStep.yield PUnit.unit)) m = (.ok ⟨⟩, m) := by
  induction as with
  | nil => rfl
  | cons a as ih =>
    obtain ⟨⟨b, run⟩, rest⟩ := List.forall_mem_cons.mp h
    rw [List.forIn_cons, bind_assoc, exec_bind, run]
    exact ih rest

namespace Catalogue

/-- Counted operands of one unit are replaced by a list of them with the unit. -/
theorem exec_collect {m : Machine} {os : List Operand} {unit : UnitProduct} {list : Value}
    (operands : exec (countedOperands "->list") m = (.ok os, m)) (enough : os.length < m.stack.size)
    (units : ∀ o ∈ os, o.unit = unit) (none : os = [] → unit = .none)
    (made : Value.ofItems m.settings.style.precision (os.map Operand.value) = .ok list) :
    exec collect m = m.commit (.ok (os.length + 1, [⟨list, unit⟩])) := by
  have first : (os.head?.map Operand.unit).getD .none = unit := by
    cases os with
    | nil => exact (none rfl).symm
    | cons o os => exact units o List.mem_cons_self
  have same (o : Operand) (ho : o ∈ os) :
      ∃ u, exec (lift (o.unit.requireSame unit)) m = (.ok u, m) :=
    ⟨o.unit, by rw [exec_lift, UnitProduct.requireSame, if_pos (units o ho)]⟩
  rw [collect, exec_bind, operands]
  dsimp only
  rw [first, exec_bind, exec_forIn_ok same]
  dsimp only
  rw [exec_get_bind, exec_bind, exec_lift, made]
  exact exec_replaceTop _ _ m enough

theorem resolve_lists (op : String) (digits : Nat) {o : Operand} (h : o.kind = .list) :
    lists.resolve op digits [o] = .ok [o] := by
  refine if_pos ?_
  simp [lists, Signature.fits, KindSet.of, h]

/-- A list is replaced by its elements and their number. -/
theorem exec_explode {m : Machine} {k : Kind} {items : List Value} {unit : UnitProduct}
    (enough : 0 < m.stack.size) (operands : m.topOperands 1 = [⟨.list k items, unit⟩]) :
    exec (applyTopMany "list->" 1 lists explode) m =
      m.commit (.ok (1, items.map (⟨·, unit⟩) ++ [.plain (.integer items.length)])) := by
  have taken : m.operands "list->" 1 = .ok [⟨.list k items, unit⟩] :=
    Machine.operands_eq_ok.mpr ⟨enough, operands.symm⟩
  rw [exec_applyTopMany, applyManyPlan, taken, ok_bind, resolve_lists _ _ rfl]
  rfl

end Catalogue

namespace Session

variable {v : View} (free : v.scopes.Free)

include free

/-- Entries of one unit are collected in a list with the unit. -/
theorem leads_collect {xs : List Entry} {count : Entry} {unit : UnitProduct} {list : Value}
    (hcount : count.value = .integer xs.length) (few : xs.length ≤ maxCount)
    (units : ∀ x ∈ xs, x.unit = unit) (none : xs = [] → unit = .none)
    (made : Value.ofItems v.settings.style.precision (xs.map Entry.value) = .ok list) :
    Leads [.keyword "->list"] ((v.pushAll xs).push count)
      (v.push (.store list unit v.settings.style)) := by
  let w : View := (v.pushAll xs).push count
  refine leads_of_exec fun m hm => ?_
  have found : Registry.find? Catalogue.toList.name = some Catalogue.toList :=
    Registry.find_name (Registry.mem_of_aggregates (by simp [Catalogue.aggregates]))
  have operands : exec (countedOperands "->list") m = (.ok (xs.map Entry.operand), m) := by
    obtain ⟨counted, below⟩ : m.counted "->list" = .ok xs.length ∧ _ := hm.counted hcount few
    rw [exec_countedOperands, counted, ok_bind, below]
    rfl
  have enough : (xs.map Entry.operand).length < m.stack.size := by
    rw [Stack.size, hm.entries, View.push, View.pushAll, List.length_cons, List.length_append,
      List.length_reverse, List.length_map]
    omega
  have run : exec Catalogue.collect m =
      m.commit (.ok ((xs.map Entry.operand).length + 1, [⟨list, unit⟩])) := by
    refine Catalogue.exec_collect operands enough (List.forall_mem_map.mpr units)
      (fun empty => none (List.map_eq_nil_iff.mp empty)) ?_
    rw [List.map_map, hm.settings]
    exact made
  rw [hm.commit, List.length_map] at run
  refine ⟨_, (exec_operation (v := w) free found (Nat.le_add_left 1 _) hm).trans run, ?_⟩
  have left := hm.replaced (xs.length + 1) ⟨list, unit⟩
  rwa [View.drop_counted] at left

/-- The elements of a list are pushed with its unit, and their count. -/
theorem leads_explode {x : Entry} {k : Kind} {items : List Value} (hx : x.value = .list k items) :
    Leads [.keyword "list->"] (v.push x)
      ((v.pushAll (items.map fun item => .store item x.unit v.settings.style)).push
        (.store (.integer items.length) .none v.settings.style)) := by
  refine leads_of_exec fun m hm => ?_
  have found : Registry.find? Catalogue.fromList.name = some Catalogue.fromList :=
    Registry.find_name (Registry.mem_of_aggregates (by simp [Catalogue.aggregates]))
  have enough : 0 < m.stack.size := by
    rw [Stack.size, hm.entries]
    exact Nat.succ_pos _
  have operands : m.topOperands 1 = [⟨.list k items, x.unit⟩] := by
    rw [Machine.topOperands, hm.entries, ← hx]
    rfl
  have run := Catalogue.exec_explode enough operands
  rw [hm.commit] at run
  refine ⟨_, (exec_operation (v := v.push x) free found (Nat.le_add_left 1 _) hm).trans run, ?_⟩
  have left := hm.replacedAll 1 (items.map (⟨·, x.unit⟩) ++ [.plain (.integer items.length)])
  rw [List.map_append, List.map_map, ← View.pushAll_pushAll] at left
  exact left

end Session

/-! ## 3. There and back -/

/-- Without words, a reduced value is stored as it is. -/
theorem Entry.operand_store {style : NumberStyle} (unbounded : style.wordBits = 0) {v : Value}
    (reduced : v.reduce = v) (unit : UnitProduct) : (store v unit style).operand = ⟨v, unit⟩ := by
  rw [operand, store_unbounded unbounded, reduced]

namespace Session

variable {v : View} (free : v.scopes.Free) (unbounded : v.settings.style.wordBits = 0)

include free unbounded

/-- Entries that are collected and exploded come back with their count on top. -/
theorem leads_there {xs : List Entry} (few : xs.length ≤ maxCount)
    (units : ∀ x ∈ xs, ∀ y ∈ xs, x.unit = y.unit) (uniform : Value.Uniform (xs.map Entry.value))
    (reduced : ∀ x ∈ xs, x.value.reduce = x.value) :
    ∃ count ys, count.operand = .plain (.integer xs.length) ∧
      ys.map Entry.operand = xs.map Entry.operand ∧
      Leads [.number (.integer xs.length) .none, .keyword "->list", .keyword "list->"]
        (v.pushAll xs) ((v.pushAll ys).push count) := by
  let style := v.settings.style
  let unit := (xs.head?.map Entry.unit).getD .none
  have same : ∀ x ∈ xs, x.unit = unit := by
    cases xs with
    | nil => exact nofun
    | cons y xs => exact fun x hx => units x hx y List.mem_cons_self
  obtain ⟨k, declares⟩ := uniform.exists_declares
  have stored {w : Value} (h : w.reduce = w) (u : UnitProduct) :
      (Entry.store w u style).operand = ⟨w, u⟩ := Entry.operand_store unbounded h u
  have values : ∀ w ∈ xs.map Entry.value, w.reduce = w := List.forall_mem_map.mpr reduced
  let list : Value := .list k (xs.map Entry.value)
  have counted := leads_number (v := v.pushAll xs) (.integer xs.length) .none
  have collected := leads_collect free (congrArg Operand.value (stored rfl .none)) few same
    (fun empty => by subst empty; rfl) (Value.ofItems_of_declares _ declares)
  have exploded := leads_explode free
    (congrArg Operand.value (stored (Value.reduce_list declares.1 values) unit))
  rw [List.length_map] at exploded
  refine ⟨_, _, stored rfl .none, ?_, counted.cons (collected.cons exploded)⟩
  rw [List.map_map, List.map_map]
  refine List.map_congr_left fun x hx => ?_
  show (Entry.store x.value unit style).operand = x.operand
  rw [stored (reduced x hx), ← same x hx]
  rfl

/-- A list that is exploded and collected comes back. -/
theorem leads_back {x : Entry} {k : Kind} {items : List Value} (hx : x.value = .list k items)
    (few : items.length ≤ maxCount) (some : items ≠ [] ∨ x.unit = .none)
    (declares : Declares k items) (reduced : x.value.reduce = x.value) :
    ∃ y : Entry, y.operand = x.operand ∧
      Leads [.keyword "list->", .keyword "->list"] (v.push x) (v.push y) := by
  let style := v.settings.style
  have stored {w : Value} (h : w.reduce = w) (u : UnitProduct) :
      (Entry.store w u style).operand = ⟨w, u⟩ := Entry.operand_store unbounded h u
  rw [hx] at reduced
  let ys : List Entry := items.map fun item => .store item x.unit style
  have values : ys.map Entry.value = items := by
    rw [List.map_map]
    refine (List.map_congr_left fun w hw => ?_).trans (List.map_id items)
    exact congrArg Operand.value (stored (Value.reduce_of_mem reduced w hw) x.unit)
  have count : (Entry.store (.integer items.length) .none style).value = .integer ys.length := by
    rw [List.length_map]
    exact congrArg Operand.value (stored (w := .integer items.length) rfl .none)
  have plain (empty : ys = []) : x.unit = .none :=
    some.resolve_left fun nonempty => nonempty (List.map_eq_nil_iff.mp empty)
  have exploded := leads_explode free hx
  have collected := leads_collect free count (by rwa [List.length_map])
    (List.forall_mem_map.mpr fun _ _ => rfl) plain
    (values ▸ Value.ofItems_of_declares _ declares)
  refine ⟨_, ?_, exploded.cons collected⟩
  rw [values]
  exact (stored reduced x.unit).trans (by rw [Entry.operand, hx])

end Session

/-! ## 4. Sessions -/

/-- All names, and values in which every list declares the kind of its elements. -/
def Vocabulary.declared : Vocabulary where
  names _ := True
  values := Value.Declared
  made := by
    intro v hv
    induction hv with
    | given hv => exact hv
    | scalar x => exact Value.declared_scalar x
    | matrix m => exact Value.declared_matrix m
    | time t => exact Value.declared_time t
    | element _ hv ih => exact (Value.declared_list.mp ih).2 _ hv
    | ofItems _ hv ih => exact Value.declared_ofItems ih _ hv
    | expression _ ih => exact Value.declared_symbolic.mpr ih.ofValue
    | deferred _ _ ih =>
      refine Value.declared_symbolic.mpr (Expr.declared_apply.mpr fun e he => ?_)
      obtain ⟨v, hv, rfl⟩ := List.mem_map.mp he
      exact (ih v hv).ofValue
  reduce := Value.Declared.reduce
  var _ := trivial
  const h := Value.declared_symbolic.mp h
  apply := by
    intro name args
    simp only [Value.declared_symbolic, Expr.declared_apply, true_and]

namespace Session

/-- In a session, all values on the stack are reduced, and their lists declare the kinds of their
elements. -/
theorem stored_after (settings : Settings) (clock : Int) {steps : List Step}
    (hs : ∀ s ∈ steps, s.Constructed) {x : Entry}
    (hx : x ∈ (after (Machine.start settings clock) steps).stack.entries) :
    x.value.reduce = x.value ∧ x.value.Declared := by
  let Stored (e : Entry) : Prop := e.value.reduce = e.value ∧ e.value.Declared
  have held : Machine.Holds .declared Stored (after (Machine.start settings clock) steps) :=
    holds_after (fun e he => he.2)
      (fun v hv unit style => ⟨Entry.reduce_store v unit style,
        Vocabulary.entry_store (V := .declared) hv unit style⟩)
      (fun s h => (hs s h).inside (fun _ => trivial) Value.Constructed.declared)
      (Machine.holds_start _ _ settings clock)
  exact held.stack x hx

/-- Collecting and exploding undo each other, without words and without a limit. Entries of one unit
that are exact or of one kind come back as they were below their count, and a list comes back with
its kind, its elements and its unit, which an empty list cannot hand on. What lies below stays. -/
theorem collect_explode (settings : Settings) (clock : Int) {steps : List Step}
    (hs : ∀ s ∈ steps, s.Constructed) :
    let m := after (Machine.start settings clock) steps
    m.stack.limit = none → m.settings.style.wordBits = 0 →
    (∀ xs below : List Entry, m.stack.entries = xs.reverse ++ below → xs.length ≤ maxCount →
      (∀ x ∈ xs, ∀ y ∈ xs, x.unit = y.unit) → Value.Uniform (xs.map Entry.value) →
      ∃ (n : Session) (count : Entry) (ys : List Entry),
        eval [.number (.integer xs.length) .none, .keyword "->list", .keyword "list->"] m =
          (.ok n.values, n) ∧
        n.stack.entries = count :: (ys.reverse ++ below) ∧
        count.operand = .plain (.integer xs.length) ∧
        ys.map Entry.operand = xs.map Entry.operand) ∧
    ∀ (x : Entry) below k items, m.stack.entries = x :: below → x.value = .list k items →
      items.length ≤ maxCount → items ≠ [] ∨ x.unit = .none →
      ∃ (n : Session) (y : Entry),
        eval [.keyword "list->", .keyword "->list"] m = (.ok n.values, n) ∧
        n.stack.entries = y :: below ∧ y.operand = x.operand := by
  intro m unlimited unbounded
  have idle : m.nesting = 0 := (atRest_after settings clock steps).nesting
  have free : m.scopes.Free := free_after settings clock steps
  have stored {x : Entry} (hx : x ∈ m.stack.entries) := stored_after settings clock hs hx
  constructor
  · intro xs below entries few units uniform
    let v : View := ⟨m.settings, m.scopes, below⟩
    have hm : (v.pushAll xs).Of m := ⟨rfl, rfl, entries, unlimited, idle⟩
    have reduced (x : Entry) (hx : x ∈ xs) : x.value.reduce = x.value :=
      (stored (by rw [entries]; simp [hx])).1
    obtain ⟨count, ys, hcount, same, leads⟩ :=
      leads_there (v := v) free unbounded few units uniform reduced
    obtain ⟨n, run, left⟩ := leads m hm
    exact ⟨n, count, ys, run, left.entries, hcount, same⟩
  · intro x below k items entries hx few some
    let v : View := ⟨m.settings, m.scopes, below⟩
    have hm : (v.push x).Of m := ⟨rfl, rfl, entries, unlimited, idle⟩
    obtain ⟨reduced, declared⟩ := stored (entries ▸ List.mem_cons_self)
    rw [hx, Value.declared_list] at declared
    obtain ⟨y, same, leads⟩ :=
      leads_back (v := v) free unbounded hx few some declared.1 reduced
    obtain ⟨n, run, left⟩ := leads m hm
    exact ⟨n, y, run, left.entries, same⟩

/-- Two and a half as numbers of metres. -/
def twoAndHalf : List Instruction :=
  [.number (.integer 2) (.base "m"), .number (.rational (1 / 2)) (.base "m")]

/-- A list of metres. -/
def metreList : Value := .list .rational [.integer 2, .rational (1 / 2)]

/-- Two numbers come back below their count, and so does a list of them. -/
theorem collect_explode_metres :
    (let m := after (Machine.start {} 0) (twoAndHalf.map .instruction)
     ∃ n : Session,
      eval [.number (.integer 2) .none, .keyword "->list", .keyword "list->"] m =
        (.ok n.values, n) ∧
      n.stack.entries.map Entry.operand =
        [.plain (.integer 2), ⟨.rational (1 / 2), .base "m"⟩, ⟨.integer 2, .base "m"⟩]) ∧
    let m := after (Machine.start {} 0) [.instruction (.number metreList (.base "m"))]
    ∃ n : Session, eval [.keyword "list->", .keyword "->list"] m = (.ok n.values, n) ∧
      n.stack.entries.map Entry.operand = [⟨metreList, .base "m"⟩] := by
  have half : (Value.rational (1 / 2)).reduce = .rational (1 / 2) := by
    have fraction : (1 / 2 : Rat).den ≠ 1 := by decide +kernel
    exact congrArg Value.scalar (if_neg fraction)
  have stored {w : Value} (h : w.reduce = w) :
      (Entry.store w (.base "m") {}).operand = ⟨w, .base "m"⟩ := Entry.operand_store rfl h _
  have start : View.Of ⟨{}, {}, []⟩ (Machine.start {} 0) := ⟨rfl, rfl, rfl, rfl, rfl⟩
  constructor
  · intro m
    let a : Entry := .store (.integer 2) (.base "m") {}
    let b : Entry := .store (.rational (1 / 2)) (.base "m") {}
    have ha : a.operand = ⟨.integer 2, .base "m"⟩ := stored rfl
    have hb : b.operand = ⟨.rational (1 / 2), .base "m"⟩ := stored half
    have hm : View.Of ⟨{}, {}, [b, a]⟩ m := ((leads_number (.integer 2) (.base "m")).cons
      (leads_number (.rational (1 / 2)) (.base "m"))).steps start
    have constructed : ∀ s ∈ twoAndHalf.map Step.instruction, s.Constructed := by
      simp only [twoAndHalf, List.map_cons, List.map_nil, List.forall_mem_cons]
      exact ⟨.number (.scalar _) _, .number (.scalar _) _, nofun⟩
    have metres : ∀ x ∈ [a, b], x.unit = .base "m" :=
      List.forall_mem_cons.mpr ⟨rfl, List.forall_mem_singleton.mpr rfl⟩
    have exact : ∀ v ∈ [a, b].map Entry.value, v.kind.isExact := by
      simp only [List.map_cons, List.map_nil, List.forall_mem_cons]
      exact ⟨congrArg (fun o => o.kind.isExact) ha, congrArg (fun o => o.kind.isExact) hb, nofun⟩
    obtain ⟨n, count, ys, run, left, hcount, same⟩ :=
      (collect_explode {} 0 constructed hm.limit (by rw [hm.settings])).1 [a, b] [] hm.entries
        (by decide) (fun x hx y hy => (metres x hx).trans (metres y hy).symm) (.inl exact)
    refine ⟨n, run, ?_⟩
    rw [left, List.map_cons, List.append_nil, List.map_reverse, hcount, same, List.map_cons,
      List.map_cons, ha, hb]
    rfl
  · intro m
    let x : Entry := .store metreList (.base "m") {}
    have elements : ∀ w ∈ [Value.integer 2, .rational (1 / 2)], w.Constructed ∧ w.reduce = w :=
      List.forall_mem_cons.mpr ⟨⟨.scalar _, rfl⟩, List.forall_mem_singleton.mpr ⟨.scalar _, half⟩⟩
    have fit : ElementsFit .rational [.integer 2, .rational (1 / 2)] := ⟨by decide, by decide⟩
    have made := Value.ofItems_of_declares 0 ⟨fit, nofun⟩
    have list : x.operand = ⟨metreList, .base "m"⟩ :=
      stored (Value.reduce_list fit fun w hw => (elements w hw).2)
    have hm : View.Of ⟨{}, {}, [x]⟩ m := (leads_number metreList (.base "m")).steps start
    have constructed : ∀ s ∈ [Step.instruction (.number metreList (.base "m"))], s.Constructed :=
      List.forall_mem_singleton.mpr (.number (.ofItems (fun w hw => (elements w hw).1) made) _)
    obtain ⟨n, y, run, left, same⟩ :=
      (collect_explode {} 0 constructed hm.limit (by rw [hm.settings])).2 x [] .rational _
        hm.entries (congrArg Operand.value list) (by decide) (.inl (List.cons_ne_nil _ _))
    refine ⟨n, run, ?_⟩
    rw [left, List.map_cons, same, list]
    rfl

end Session
end StackCalc
