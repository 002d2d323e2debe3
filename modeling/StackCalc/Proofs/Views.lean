import StackCalc.Proofs.Bindings
import StackCalc.Proofs.Stored

/-! # Runs of instructions

What instructions do to the entries and the variables of a session without a limit, whatever its
history and its flags are. Runs are composed of those of single instructions. -/

namespace StackCalc

open Calc Evaluator

/-- The operand that an entry holds. -/
def Entry.operand (e : Entry) : Operand := ⟨e.value, e.unit⟩

/-- What instructions go by: settings, variables, and the entries on the stack, the top one
first. -/
structure View where
  settings : Settings
  scopes : Scopes
  entries : List Entry

namespace View

/-- The view with an entry on top. -/
def push (v : View) (e : Entry) : View := { v with entries := e :: v.entries }

/-- The view with some entries on top, the first one lowest. -/
def pushAll (v : View) (xs : List Entry) : View := { v with entries := xs.reverse ++ v.entries }

theorem pushAll_pushAll (v : View) (xs ys : List Entry) :
    (v.pushAll xs).pushAll ys = v.pushAll (xs ++ ys) := by
  simp [pushAll]

/-- A machine looks so, its stack has no limit, and nothing runs in it. -/
structure Of (v : View) (m : Machine) : Prop where
  settings : m.settings = v.settings
  scopes : m.scopes = v.scopes
  entries : m.stack.entries = v.entries
  limit : m.stack.limit = none
  nesting : m.nesting = 0

theorem of_self {m : Machine} (unlimited : m.stack.limit = none) (idle : m.nesting = 0) :
    Of ⟨m.settings, m.scopes, m.stack.entries⟩ m := ⟨rfl, rfl, rfl, unlimited, idle⟩

variable {v w : View} {m : Machine}

theorem Of.room (h : v.Of m) (remove add : Nat) : m.stack.requireRoom remove add = .ok () :=
  Stack.requireRoom_eq_ok.mpr fun n hn => by rw [h.limit] at hn; cases hn

theorem Of.levelsLeft (h : v.Of m) : levelsLeft m = maxNesting := by
  rw [Evaluator.levelsLeft, h.nesting, Nat.sub_zero]

theorem Of.withFlags (h : v.Of m) (flags : Flags) : v.Of { m with flags } :=
  ⟨h.settings, h.scopes, h.entries, h.limit, h.nesting⟩

/-- A plan for operands that are there is carried out. -/
theorem Of.commit (h : v.Of m) {consumed : Nat} {results : List Operand} :
    m.commit (.ok (consumed, results)) = (.ok (), m.replaced consumed results) := by
  simp only [Machine.commit, h.room]

/-- Results take the place of operands. -/
theorem Of.replacedAll (h : v.Of m) (consumed : Nat) (os : List Operand) :
    View.Of ({ v with entries := v.entries.drop consumed }.pushAll
      (os.map fun o : Operand => .store o.value o.unit v.settings.style))
      (m.replaced consumed os) := by
  refine ⟨h.settings, h.scopes, ?_, h.limit, h.nesting⟩
  rw [← h.settings]
  show (os.map m.entryOf).reverse ++ m.stack.entries.drop consumed = _
  rw [h.entries]
  rfl

/-- One result takes the place of operands. -/
theorem Of.replaced (h : v.Of m) (consumed : Nat) (o : Operand) :
    View.Of { v with
      entries := .store o.value o.unit v.settings.style :: v.entries.drop consumed }
      (m.replaced consumed [o]) :=
  h.replacedAll consumed [o]

theorem Of.pushed (h : v.Of m) (e : Entry) : (v.push e).Of (m.pushed e) :=
  ⟨h.settings, h.scopes, congrArg (e :: ·) h.entries, h.limit, h.nesting⟩

end View

namespace Session

/-- The operands on the stack, the top one first, after some instructions, or the first error. -/
def result (is : List Instruction) (m : Session) : Except Error (List Operand) :=
  match eval is m with
  | (.ok _, n) => .ok (n.stack.entries.map Entry.operand)
  | (.error e, _) => .error e

/-- Instructions succeed from one view and lead to another. -/
def Leads (is : List Instruction) (v w : View) : Prop :=
  ∀ m : Session, v.Of m → ∃ n, eval is m = (.ok n.values, n) ∧ w.Of n

/-- Instructions fail. -/
def Fails (is : List Instruction) (v : View) (e : Error) : Prop :=
  ∀ m : Session, v.Of m → ∃ n, eval is m = (.error e, n)

variable {is js : List Instruction} {u v w : View} {i : Instruction} {e : Error}

theorem Leads.result (h : Leads is v w) {m : Session} (hm : v.Of m) :
    result is m = .ok (w.entries.map Entry.operand) := by
  obtain ⟨n, hn, hw⟩ := h m hm
  rw [Session.result, hn, ← hw.entries]

theorem Fails.result (h : Fails is v e) {m : Session} (hm : v.Of m) : result is m = .error e := by
  obtain ⟨n, hn⟩ := h m hm
  rw [Session.result, hn]

theorem eval_append (is js : List Instruction) (m : Session) :
    eval (is ++ js) m = match eval is m with
      | (.ok _, n) => eval js n
      | (.error e, n) => (.error e, n) := by
  induction is generalizing m with
  | nil => rfl
  | cons i is ih =>
    rw [List.cons_append, eval, eval]
    cases runOne i m with
    | mk r n =>
      cases r with
      | error e => rfl
      | ok _ => exact ih n

/-- Instructions that all succeed, as the steps of a session. -/
theorem after_eq_of_eval {is : List Instruction} : ∀ {m n : Session} {vs : List Value},
    eval is m = (.ok vs, n) → m.after (is.map .instruction) = n := by
  induction is with
  | nil => exact fun h => (Prod.mk.inj h).2
  | cons i is ih =>
    intro m n vs h
    rw [eval] at h
    show after (runOne i m).2 (is.map .instruction) = n
    cases hi : runOne i m with
    | mk r k =>
      rw [hi] at h
      cases r with
      | error e => cases h
      | ok _ => exact ih h

theorem Leads.steps (h : Leads is v w) {m : Session} (hm : v.Of m) :
    w.Of (m.after (is.map .instruction)) := by
  obtain ⟨n, hn, hw⟩ := h m hm
  rw [after_eq_of_eval hn]
  exact hw

theorem leads_nil : Leads [] v v := fun m hm => ⟨m, rfl, hm⟩

theorem Leads.append (h : Leads is u v) (h' : Leads js v w) : Leads (is ++ js) u w := by
  intro m hm
  obtain ⟨n, hn, hv⟩ := h m hm
  obtain ⟨k, hk, hw⟩ := h' n hv
  exact ⟨k, by rw [eval_append, hn, ← hk], hw⟩

theorem Leads.cons (h : Leads [i] u v) (h' : Leads js v w) : Leads (i :: js) u w := h.append h'

theorem Leads.fails (h : Leads is u v) (h' : Fails js v e) : Fails (is ++ js) u e := by
  intro m hm
  obtain ⟨n, hn, hv⟩ := h m hm
  obtain ⟨k, hk⟩ := h' n hv
  exact ⟨k, by rw [eval_append, hn, ← hk]⟩

theorem Fails.append (h : Fails is v e) : Fails (is ++ js) v e := by
  intro m hm
  obtain ⟨n, hn⟩ := h m hm
  exact ⟨n, by rw [eval_append, hn]⟩

/-- Instructions end with some operands on top of what `base` has, or fail. -/
def Ends (is : List Instruction) (v base : View) : Except Error (List Operand) → Prop
  | .ok os => ∃ xs : List Entry, xs.map Entry.operand = os ∧ Leads is v (base.pushAll xs)
  | .error e => Fails is v e

theorem Leads.ends (h : Leads is u v) {base : View} {r : Except Error (List Operand)}
    (h' : Ends js v base r) : Ends (is ++ js) u base r := by
  cases r with
  | error e => exact h.fails h'
  | ok os =>
    obtain ⟨xs, hxs, hjs⟩ := h'
    exact ⟨xs, hxs, h.append hjs⟩

/-- Instructions that go on from the operands that others have pushed. -/
theorem Ends.bind {base : View} {r : Except Error (List Operand)}
    {f : List Operand → Except Error (List Operand)} (h : Ends is v v r)
    (h' : ∀ xs : List Entry, r = .ok (xs.map Entry.operand) →
      Ends js (v.pushAll xs) base (f (xs.map Entry.operand))) :
    Ends (is ++ js) v base (r >>= f) := by
  cases r with
  | error e => exact Fails.append h
  | ok os =>
    obtain ⟨xs, rfl, hleads⟩ := h
    exact hleads.ends (h' xs rfl)

/-- What is on top of some entries is on top of what is below them, together with them. -/
theorem Ends.below {base : View} {xs : List Entry} {r : Except Error (List Operand)}
    (h : Ends is v (base.pushAll xs) r) :
    Ends is v base (r.map (xs.map Entry.operand ++ ·)) := by
  cases r with
  | error e => exact h
  | ok os =>
    obtain ⟨ys, rfl, hleads⟩ := h
    refine ⟨xs ++ ys, List.map_append, ?_⟩
    rw [← View.pushAll_pushAll]
    exact hleads

theorem Ends.result {base : View} {r : Except Error (List Operand)} (h : Ends is v base r)
    {m : Session} (hm : v.Of m) :
    Session.result is m = r.map fun os => os.reverse ++ base.entries.map Entry.operand := by
  cases r with
  | error e => exact Fails.result h hm
  | ok os =>
    obtain ⟨xs, rfl, hleads⟩ := h
    rw [hleads.result hm]
    simp [View.pushAll, Except.map]

/-- Where instructions leave one operand, that is on top of what `base` has. -/
theorem Ends.result_single {base : View} {r : Except Error Operand} {g : Operand → Operand}
    (h : Ends is v base (r.map fun o => [g o])) {m : Session} (hm : v.Of m) :
    Session.result is m = (r.map g).map (· :: base.entries.map Entry.operand) := by
  rw [h.result hm]
  cases r <;> rfl

/-! ## 1. Single instructions -/

theorem leads_of_exec (h : ∀ m, v.Of m →
    ∃ n, exec (runInstruction maxNesting i) m = (.ok (), n) ∧ w.Of n) : Leads [i] v w := by
  intro m hm
  obtain ⟨n, hn, hw⟩ := h m hm
  rw [← hm.levelsLeft] at hn
  rcases runOne_cases i m with ⟨k, hk, hrun⟩ | ⟨e, k, hk, _⟩
  · cases hn.symm.trans hk
    refine ⟨(runOne i m).2, by simp only [eval, hrun], ?_⟩
    rw [hrun]
    dsimp only
    split
    · exact ⟨hw.settings, hw.scopes, hw.entries, hw.limit, hw.nesting⟩
    · exact hw
  · cases hn.symm.trans hk

theorem fails_of_exec (h : ∀ m, v.Of m →
    ∃ n, exec (runInstruction maxNesting i) m = (.error e, n)) : Fails [i] v e := by
  intro m hm
  obtain ⟨n, hn⟩ := h m hm
  rw [← hm.levelsLeft] at hn
  rcases runOne_cases i m with ⟨k, hk, _⟩ | ⟨e, k, hk, hrun⟩
  · cases hn.symm.trans hk
  · cases hn.symm.trans hk
    exact ⟨_, by rw [eval, hrun]⟩

/-- An entry is pushed as it is. -/
theorem exec_pushEntry_of {m : Machine} (hm : v.Of m) (x : Entry) :
    exec (pushEntry x) m = (.ok (), m.pushed x) := by
  simp only [pushEntry, exec_bind, exec_get, exec_liftStack, Stack.push, hm.room 0 1]
  rfl

/-- An instruction that stands for an operand stores it on top. -/
theorem leads_operand {o : Operand} (pushes : runInstruction maxNesting i = pushOperand o) :
    Leads [i] v (v.push (.store o.value o.unit v.settings.style)) := by
  refine leads_of_exec fun m hm => ⟨_, ?_, hm.pushed _⟩
  have same : m.entryOf o = .store o.value o.unit v.settings.style := by
    rw [Machine.entryOf, hm.settings]
  rw [pushes]
  show exec (get >>= fun m => pushEntry (m.entryOf o)) m = _
  rw [exec_get_bind, same]
  exact exec_pushEntry_of hm _

/-- A literal is stored on top. -/
theorem leads_number (x : Value) (unit : UnitProduct) :
    Leads [.number x unit] v (v.push (.store x unit v.settings.style)) :=
  leads_operand (o := ⟨x, unit⟩) rfl

/-- An expression is put on top with its constants reduced. -/
theorem leads_symbolic (x : Expr) :
    Leads [.symbolic x] v (v.push (.store (.symbolic x) .none v.settings.style)) :=
  leads_operand (o := .plain (.symbolic x)) rfl

/-- A variable is pushed as it has been bound. -/
theorem leads_variable {name : String} {x : Entry} (bound : v.scopes.get? name = some x) :
    Leads [.keyword name] v (v.push x) := by
  refine leads_of_exec fun m hm => ⟨_, ?_, hm.pushed x⟩
  have resolved : resolveName m.scopes name = .ok (.variable x) := by
    simp [resolveName, hm.scopes, bound]
  unfold runInstruction
  show exec (get >>= _) m = _
  rw [exec_get_bind, resolved, exec_bind, exec_lift]
  exact exec_pushEntry_of hm x

/-- The name of an operation runs it, if there are operands enough. -/
theorem exec_operation {name : String} {op : Operation} (free : v.scopes.Free)
    (found : Registry.find? name = some op) (enough : op.minArgs ≤ v.entries.length) {m : Session}
    (hm : v.Of m) : exec (runInstruction maxNesting (.keyword name)) m =
      exec (runAction (evaluateExpr maxNesting) op.action) m := by
  refine exec_keyword_of_enough maxNesting ?_ found ?_
  · rw [hm.scopes]
    exact free
  · rw [Stack.size, hm.entries]
    exact enough

/-! ## 2. Binding variables -/

/-- The second entry is bound to the name on top. -/
theorem leads_store {name : String} {x y : Entry} {entries : List Entry} (free : v.scopes.Free)
    (hv : v.entries = x :: y :: entries) (hx : x.value = .symbolic (.var name))
    (unnamed : Registry.contains name = false) :
    Leads [.keyword "sto"] v { v with scopes := v.scopes.set name y, entries } := by
  refine leads_of_exec fun m hm => ?_
  have found : Registry.find? Catalogue.store.name = some Catalogue.store :=
    Registry.find_name (Registry.mem_of_references (by simp [Catalogue.references]))
  let n := { m with scopes := m.scopes.set name y }.withStack (m.stack.withEntries entries)
  refine ⟨n, ?_, hm.settings, congrArg (Scopes.set name y) hm.scopes, rfl, hm.limit, hm.nesting⟩
  have enough : Catalogue.store.minArgs ≤ v.entries.length := by
    rw [hv]
    exact Nat.le_add_left 2 entries.length
  show exec (runInstruction maxNesting (.keyword Catalogue.store.name)) m = _
  rw [exec_operation free found enough hm]
  exact exec_assignTop (hm.entries.trans hv) hx unnamed

end Session

/-- A value with a unit for a name. -/
structure Binding where
  name : String
  value : Value
  unit : UnitProduct

namespace Binding

/-- The entry that the name comes to stand for. -/
def entry (b : Binding) (style : NumberStyle) : Entry := .store b.value b.unit style

/-- The instructions that bind the name. -/
def instructions (b : Binding) : List Instruction :=
  [.number b.value b.unit, .symbolic (.var b.name), .keyword "sto"]

end Binding

/-- Names are bound one after the other. -/
def Scopes.bindAll (style : NumberStyle) (bs : List Binding) (s : Scopes) : Scopes :=
  bs.foldl (fun s b => s.set b.name (b.entry style)) s

namespace Scopes

variable {style : NumberStyle} {s : Scopes}

theorem bindAll_append (bs cs : List Binding) :
    s.bindAll style (bs ++ cs) = (s.bindAll style bs).bindAll style cs := List.foldl_append

theorem locals_bindAll (h : s.locals = []) (bs : List Binding) :
    (s.bindAll style bs).locals = [] := by
  induction bs generalizing s with
  | nil => exact h
  | cons b bs ih => exact ih (locals_set h b.name _)

/-- A name stands for what some binding gives it, or for what it stood for if there is none. -/
theorem get_bindAll (h : s.locals = []) (style : NumberStyle) (bs : List Binding) (name : String) :
    (∃ b ∈ bs, b.name = name ∧ (s.bindAll style bs).get? name = some (b.entry style)) ∨
      name ∉ bs.map Binding.name ∧ (s.bindAll style bs).get? name = s.get? name := by
  induction bs generalizing s with
  | nil => exact .inr ⟨List.not_mem_nil, rfl⟩
  | cons b bs ih =>
    rcases ih (locals_set h b.name _) with ⟨c, hc, named, bound⟩ | ⟨unnamed, kept⟩
    · exact .inl ⟨c, List.mem_cons_of_mem b hc, named, bound⟩
    · have last : (s.bindAll style (b :: bs)).get? name =
          if name = b.name then some (b.entry style) else s.get? name :=
        kept.trans (get_set h b.name name _)
      by_cases same : name = b.name
      · exact .inl ⟨b, List.mem_cons_self, same.symm, last.trans (if_pos same)⟩
      · refine .inr ⟨?_, last.trans (if_neg same)⟩
        rw [List.map_cons, List.mem_cons]
        exact not_or.mpr ⟨same, unnamed⟩

theorem Free.bindAll (h : s.Free) {bs : List Binding}
    (unnamed : ∀ b ∈ bs, Registry.contains b.name = false) : (s.bindAll style bs).Free := by
  induction bs generalizing s with
  | nil => exact h
  | cons b bs ih =>
    obtain ⟨hb, hbs⟩ := List.forall_mem_cons.mp unnamed
    exact ih (Each.set h hb) hbs

end Scopes

/-- The view after names are bound. -/
def View.bindAll (v : View) (bs : List Binding) : View :=
  { v with scopes := v.scopes.bindAll v.settings.style bs }

namespace Session

/-- The instructions of bindings, one after the other. -/
theorem leads_bindAll {bs : List Binding} (unnamed : ∀ b ∈ bs, Registry.contains b.name = false) :
    ∀ {v : View}, v.scopes.Free → Leads (bs.flatMap Binding.instructions) v (v.bindAll bs) := by
  induction bs with
  | nil => exact fun _ => leads_nil
  | cons b bs ih =>
    intro v free
    obtain ⟨hb, hbs⟩ := List.forall_mem_cons.mp unnamed
    have first : Leads b.instructions v (v.bindAll [b]) :=
      (leads_number b.value b.unit).cons ((leads_symbolic (.var b.name)).cons
        (leads_store free rfl rfl hb))
    exact first.append (ih hbs (Scopes.Each.set free hb))

end Session
end StackCalc
