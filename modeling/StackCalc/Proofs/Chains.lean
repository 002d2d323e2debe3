import StackCalc.Proofs.Aggregates
import StackCalc.Proofs.Settled

/-! # Aggregates and chains

An aggregate combines as many operands as a count says and stores the result. The operation on two
operands combines the same operands one after the other, and stores what it has after every step.
Without a word, storing changes nothing there. In a word, it takes an integer to one with the same
residue, so that it does not matter how often it is done. -/

namespace StackCalc

open Calc Evaluator

/-! ## 1. Storing after every step -/

/-- If a step that stores takes what is stored for what it has been before, storing after every
step is storing at the end. -/
theorem foldlM_stored {α : Type} {P : α → Prop} {step step' : α → α → Option α} {stored : α → α}
    (keeps : ∀ a x r, P a → P x → step a x = some r → P r)
    (absorbs : ∀ a x, P a → P x → step' (stored a) x = (step a x).map stored)
    {xs : List α} : ∀ {a : α}, P a → (∀ x ∈ xs, P x) →
      xs.foldlM step' (stored a) = (xs.foldlM step a).map stored := by
  induction xs with
  | nil => exact fun _ _ => rfl
  | cons x xs ih =>
    intro a ha hxs
    obtain ⟨hx, hxs⟩ := List.forall_mem_cons.mp hxs
    rw [List.foldlM_cons, List.foldlM_cons, absorbs a x ha hx]
    cases hr : step a x with
    | none => rfl
    | some r => exact ih (keeps a x r ha hx hr) hxs

/-- An operand that holds an integer. -/
def Operand.Integer (o : Operand) : Prop := ∃ n, o.value = .integer n

namespace Operand

variable {o : Operand}

theorem Integer.settled (h : o.Integer) : o.Settled := by
  obtain ⟨v, unit⟩ := o
  obtain ⟨n, rfl⟩ := h
  exact Value.settled_integer n

theorem integer_stored {style : NumberStyle} {n : Int} (unit : UnitProduct) :
    (⟨.integer n, unit⟩ : Operand).stored style =
      ⟨.integer (Word.emulate n style.wordBits style.signed).1, unit⟩ := by
  rw [stored_mk, Entry.store_integer rfl]

end Operand

/-! ## 2. Operations that are repeated -/

/-- On integers, a function computes an integer that depends on their residues only. -/
def Wraps (f : Settings → Operand → Operand → Except Error Operand) : Prop :=
  ∃ (g : Int → Int → Int) (unit : UnitProduct → UnitProduct → Except Error UnitProduct),
    (∀ settings m n u t, f settings ⟨.integer m, u⟩ ⟨.integer n, t⟩ =
      (unit u t).map fun w => ⟨.integer (g m n), w⟩) ∧
    ∀ bits signed m n, (Word.emulate (g (Word.emulate m bits signed).1 n) bits signed).1 =
      (Word.emulate (g m n) bits signed).1

namespace Operand

theorem wraps_add : Wraps add :=
  ⟨(· + ·), UnitProduct.requireSame, fun _ _ _ _ _ => rfl, Word.emulate_add⟩

theorem wraps_mul : Wraps mul :=
  ⟨(· * ·), UnitProduct.mul, fun _ _ _ _ _ => rfl, Word.emulate_mul⟩

end Operand

/-- An aggregate of an operation on two operands. What the operation computes is settled, and on
integers it goes by their residues. -/
structure Operation.Repeats (op sign : Operation) (s : Signature) (neutral : Value)
    (f : Settings → Operand → Operand → Except Error Operand) : Prop where
  combines : op.Combines s neutral f
  found : Registry.find? sign.name = some sign
  pairs : sign.minArgs = 2
  action : sign.action = .primitive (applyTop sign.name sign.minArgs s (ofPair sign.name f))
  settled : ∀ settings a b, Yields Operand.Settled (f settings a b)
  accepted : [.of .integer, .of .integer] ∈ s.accepted
  wraps : Wraps f

namespace Catalogue

theorem repeats_sum : sum.Repeats add additive (.integer 0) Operand.add where
  combines := combines_sum
  found := Registry.find_name (Registry.mem_of_numeric (by simp [numeric]))
  pairs := rfl
  action := rfl
  settled _ _ _ := Operand.settled_add
  accepted := by simp [additive, Signature.pairs]
  wraps := Operand.wraps_add

theorem repeats_product : product.Repeats mul multiplicative (.integer 1) Operand.mul where
  combines := combines_product
  found := Registry.find_name (Registry.mem_of_numeric (by simp [numeric]))
  pairs := rfl
  action := rfl
  settled _ _ _ := Operand.settled_mul
  accepted := by simp [multiplicative, Signature.pairs]
  wraps := Operand.wraps_mul

end Catalogue

/-- What the names of sums and products stand for. -/
theorem repeats_of_paired {name sign : String}
    (paired : (name, sign) ∈ [("sum", "+"), ("product", "*")]) :
    ∃ (op op' : Operation) (s : Signature) (neutral : Value)
      (f : Settings → Operand → Operand → Except Error Operand),
      op.name = name ∧ op'.name = sign ∧ op.Repeats op' s neutral f := by
  rcases List.mem_cons.mp paired with h | h
  · cases h
    exact ⟨_, _, _, _, _, rfl, rfl, Catalogue.repeats_sum⟩
  · cases List.mem_singleton.mp h
    exact ⟨_, _, _, _, _, rfl, rfl, Catalogue.repeats_product⟩

/-- An operand without expressions, and an integer where there is a word. -/
structure Operand.Combinable (style : NumberStyle) (o : Operand) : Prop where
  settled : o.Settled
  integer : 0 < style.wordBits → o.Integer

theorem Operand.Combinable.stored {style : NumberStyle} {o : Operand} (h : o.Combinable style) :
    (o.stored style).Combinable style := by
  rcases Nat.eq_zero_or_pos style.wordBits with unbounded | bounded
  · rwa [h.settled.stored unbounded]
  · obtain ⟨v, unit⟩ := o
    obtain ⟨n, rfl⟩ := h.integer bounded
    rw [integer_stored]
    have integer : Integer ⟨.integer (Word.emulate n style.wordBits style.signed).1, unit⟩ :=
      ⟨_, rfl⟩
    exact ⟨integer.settled, fun _ => integer⟩

namespace Operation.Repeats

variable {op sign : Operation} {s : Signature} {neutral : Value}
  {f : Settings → Operand → Operand → Except Error Operand} (h : op.Repeats sign s neutral f)
  {settings : Settings} {a b r : Operand}

/-- The operation on two operands computes what the aggregate combines. -/
theorem toOption_combine (op sign : Operation) (s : Signature)
    (f : Settings → Operand → Operand → Except Error Operand) (ha : a.Settled) (hb : b.Settled) :
    (sign.combine s f settings a b).toOption = (op.combine s f settings a b).toOption := by
  have free : ∀ o ∈ [a, b], o.SymbolFree := by
    simpa using ⟨ha.symbolFree, hb.symbolFree⟩
  refine Signature.toOption_apply (fun os => ?_) free
  unfold ofPair
  split <;> rfl

include h

theorem settled_combine (ha : a.Settled) (hb : b.Settled) :
    Yields Operand.Settled (op.combine s f settings a b) := by
  have free : ∀ o ∈ [a, b], o.SymbolFree := by
    simpa using ⟨ha.symbolFree, hb.symbolFree⟩
  refine Signature.settled_apply (fun os => ?_) free
  unfold ofPair
  split
  · exact h.settled settings _ _
  · exact yields_error

/-- Integers are combined as they are. -/
theorem combine_integer (ha : a.Integer) (hb : b.Integer) :
    op.combine s f settings a b = f settings a b := by
  have free : ∀ o ∈ [a, b], o.SymbolFree := by
    simpa using ⟨ha.settled.symbolFree, hb.settled.symbolFree⟩
  obtain ⟨v, u⟩ := a
  obtain ⟨w, t⟩ := b
  obtain ⟨m, rfl⟩ := ha
  obtain ⟨n, rfl⟩ := hb
  have taken : s.accepted.any (Signature.fits [⟨.integer m, u⟩, ⟨.integer n, t⟩]) = true :=
    List.any_eq_true.mpr ⟨_, h.accepted, rfl⟩
  have resolved : s.resolve op.name settings.style.precision
      [⟨.integer m, u⟩, ⟨.integer n, t⟩] = .ok [⟨.integer m, u⟩, ⟨.integer n, t⟩] := by
    rw [Signature.resolve, if_pos taken]
  have flat : ¬ (s.broadcast && [(⟨.integer m, u⟩ : Operand), ⟨.integer n, t⟩].any fun o =>
      o.kind = .list) = true := by
    simp [Operand.kind, Value.integer, Value.kind, Scalar.kind]
  unfold Operation.combine Signature.apply
  rw [Signature.applyWithin_symbolFree free, if_neg flat, resolved]
  rfl

/-- Integers are combined to an integer, which is stored as the same one if the first of them is
stored before. -/
theorem combine_stored (ha : a.Integer) (hb : b.Integer) :
    Yields Operand.Integer (op.combine s f settings a b) ∧
      (op.combine s f settings (a.stored settings.style) b).map (Operand.stored settings.style) =
        (op.combine s f settings a b).map (Operand.stored settings.style) := by
  obtain ⟨g, unit, computed, residues⟩ := h.wraps
  obtain ⟨v, u⟩ := a
  obtain ⟨w, t⟩ := b
  obtain ⟨m, rfl⟩ := ha
  obtain ⟨n, rfl⟩ := hb
  rw [Operand.integer_stored, h.combine_integer ⟨m, rfl⟩ ⟨n, rfl⟩, computed,
    h.combine_integer ⟨_, rfl⟩ ⟨n, rfl⟩, computed]
  cases unit u t with
  | error e => exact ⟨yields_error, rfl⟩
  | ok unit =>
    refine ⟨yields_ok.mpr ⟨g m n, rfl⟩, congrArg Except.ok ?_⟩
    rw [Operand.integer_stored, Operand.integer_stored, residues]

theorem combinable_combine (ha : a.Combinable settings.style) (hb : b.Combinable settings.style) :
    Yields (Operand.Combinable settings.style) (op.combine s f settings a b) := fun r hr =>
  ⟨h.settled_combine ha.settled hb.settled r hr, fun bounded =>
    (h.combine_stored (ha.integer bounded) (hb.integer bounded)).1 r hr⟩

/-- It does not matter whether the first operand is stored before. -/
theorem combine_absorbs (ha : a.Combinable settings.style) (hb : b.Combinable settings.style) :
    (op.combine s f settings (a.stored settings.style) b).map (Operand.stored settings.style) =
      (op.combine s f settings a b).map (Operand.stored settings.style) := by
  rcases Nat.eq_zero_or_pos settings.style.wordBits with unbounded | bounded
  · rw [ha.settled.stored unbounded]
  · exact (h.combine_stored (ha.integer bounded) (hb.integer bounded)).2

/-- One step of a chain, on an operand or on what it is stored as. -/
theorem chain_step (ha : a.Combinable settings.style) (hb : b.Combinable settings.style)
    (same : r = a ∨ r = a.stored settings.style) :
    ((sign.combine s f settings r b).map (Operand.stored settings.style)).toOption =
      (op.combine s f settings a b).toOption.map (Operand.stored settings.style) := by
  have settled : r.Settled := by
    rcases same with rfl | rfl
    · exact ha.settled
    · exact ha.stored.settled
  have absorbed : (op.combine s f settings r b).map (Operand.stored settings.style) =
      (op.combine s f settings a b).map (Operand.stored settings.style) := by
    rcases same with rfl | rfl
    · rfl
    · exact h.combine_absorbs ha hb
  rw [toOption_map, toOption_combine op sign s f settled hb.settled, ← toOption_map, absorbed,
    toOption_map]

/-- Combining operands one after the other and storing what there is after every step is combining
them and storing the result, if the first operand is stored already or is not the only one. -/
theorem foldlM_combine {os : List Operand} (ha : a.Combinable settings.style)
    (hos : ∀ o ∈ os, o.Combinable settings.style)
    (first : os = [] → a.stored settings.style = a) :
    (os.foldlM (fun b o => (sign.combine s f settings b o).map (Operand.stored settings.style))
      a).toOption =
    ((os.foldlM (op.combine s f settings) a).map (Operand.stored settings.style)).toOption := by
  let step' (b o : Operand) : Option Operand :=
    ((sign.combine s f settings b o).map (Operand.stored settings.style)).toOption
  have start : os.foldlM step' a = os.foldlM step' (a.stored settings.style) := by
    cases os with
    | nil => rw [first rfl]
    | cons o os =>
      have ho := hos o List.mem_cons_self
      have same : step' a o = step' (a.stored settings.style) o :=
        (h.chain_step ha ho (.inl rfl)).trans (h.chain_step ha ho (.inr rfl)).symm
      rw [List.foldlM_cons, List.foldlM_cons, same]
  rw [toOption_foldlM, toOption_map, toOption_foldlM]
  have keeps (a x r : Operand) (ha : a.Combinable settings.style)
      (hx : x.Combinable settings.style) (hr : (op.combine s f settings a x).toOption = some r) :
      r.Combinable settings.style := h.combinable_combine ha hx r (toOption_eq_some.mp hr)
  have absorbs (a x : Operand) (ha : a.Combinable settings.style)
      (hx : x.Combinable settings.style) : step' (a.stored settings.style) x =
        (op.combine s f settings a x).toOption.map (Operand.stored settings.style) :=
    h.chain_step ha hx (.inr rfl)
  exact start.trans (foldlM_stored keeps absorbs ha hos)

end Operation.Repeats

/-! ## 3. On the stack -/

/-- An entry, and instructions that push it. -/
structure Push where
  instructions : List Instruction
  entry : Entry

namespace Push

/-- With the settings and the variables of a session, the instructions push the entry onto whatever
is on the stack. -/
def Works (p : Push) (m : Session) : Prop :=
  ∀ v : View, v.settings = m.settings → v.scopes = m.scopes →
    Session.Leads p.instructions v (v.push p.entry)

/-- A literal is pushed as it is stored. -/
def literal (v : Value) (unit : UnitProduct) (style : NumberStyle) : Push :=
  ⟨[.number v unit], .store v unit style⟩

theorem works_literal (v : Value) (unit : UnitProduct) (m : Session) :
    (literal v unit m.settings.style).Works m := by
  intro w hw _
  rw [← hw]
  exact Session.leads_number v unit

theorem works_variable {name : String} {x : Entry} {m : Session}
    (bound : m.scopes.get? name = some x) : Works ⟨[.keyword name], x⟩ m :=
  fun _ _ hw => Session.leads_variable (hw ▸ bound)

end Push

namespace Session

/-- The instructions that combine entries by a count of them. -/
def aggregate (name : String) (ps : List Push) : List Instruction :=
  ps.flatMap Push.instructions ++ [.number (.integer ps.length) .none, .keyword name]

/-- The instructions that combine entries one after the other. -/
def chain (sign : String) : List Push → List Instruction
  | [] => []
  | p :: ps => p.instructions ++ ps.flatMap fun q => q.instructions ++ [.keyword sign]

/-- Instructions succeed and leave one operand, on top of what has been there. -/
def Leaves (is : List Instruction) (m : Session) (o : Operand) : Prop :=
  (eval is m).1.isOk ∧ ∃ x, (eval is m).2.stack.entries = x :: m.stack.entries ∧ x.operand = o

/-- One of some instructions fails. -/
def Aborts (is : List Instruction) (m : Session) : Prop := (eval is m).1.isOk = false

/-- Instructions leave the same operand as others, or both fail. -/
def Agree (is js : List Instruction) (m : Session) : Prop :=
  (∃ o, Leaves is m o ∧ Leaves js m o) ∨ Aborts is m ∧ Aborts js m

variable {is js : List Instruction} {m : Session} {v : View}

theorem Ends.leaves {o : Operand} (h : Ends is v v (.ok [o])) (hm : v.Of m) : Leaves is m o := by
  obtain ⟨xs, hxs, leads⟩ := h
  obtain ⟨x, rfl, hx⟩ := List.map_eq_singleton_iff.mp hxs
  obtain ⟨n, run, hn⟩ := leads m hm
  have entries : n.stack.entries = x :: m.stack.entries := by
    rw [hn.entries, hm.entries]
    rfl
  exact ⟨by rw [run]; rfl, x, by rw [run, entries], hx⟩

theorem Fails.aborts {e : Error} (h : Fails is v e) (hm : v.Of m) : Aborts is m := by
  obtain ⟨n, run⟩ := h m hm
  rw [Aborts, run]
  rfl

/-- Instructions with the same results agree. -/
theorem agree_of_ends {r r' : Except Error Operand} (same : r.toOption = r'.toOption)
    (h : Ends is v v (r.map fun o => [o])) (h' : Ends js v v (r'.map fun o => [o]))
    (hm : v.Of m) : Agree is js m := by
  cases r with
  | ok o =>
    cases toOption_eq_some.mp same.symm
    exact .inl ⟨o, Ends.leaves h hm, Ends.leaves h' hm⟩
  | error e =>
    obtain ⟨e', rfl⟩ := toOption_eq_none.mp same.symm
    exact .inr ⟨Fails.aborts h hm, Fails.aborts h' hm⟩

/-- Entries are pushed one after the other. -/
theorem leads_pushes {ps : List Push} (works : ∀ p ∈ ps, p.Works m) :
    ∀ {v : View}, v.settings = m.settings → v.scopes = m.scopes →
      Leads (ps.flatMap Push.instructions) v (v.pushAll (ps.map Push.entry)) := by
  induction ps with
  | nil => exact fun _ _ => leads_nil
  | cons p ps ih =>
    intro v settings scopes
    obtain ⟨hp, hps⟩ := List.forall_mem_cons.mp works
    have rest := ih hps (v := v.push p.entry) settings scopes
    have all : (v.push p.entry).pushAll (ps.map Push.entry) =
        v.pushAll ((p :: ps).map Push.entry) :=
      View.pushAll_pushAll v [p.entry] (ps.map Push.entry)
    rw [← all]
    exact (hp v settings scopes).append rest

section
variable {op sign : Operation} {s : Signature} {neutral : Value}
  {f : Settings → Operand → Operand → Except Error Operand} (h : op.Repeats sign s neutral f)
  {ps : List Push} (free : v.scopes.Free) (works : ∀ p ∈ ps, p.Works m)
  (settings : v.settings = m.settings) (scopes : v.scopes = m.scopes)

include h free works settings scopes

/-- An aggregate leaves what it combines the operands of entries to. -/
theorem ends_aggregated (few : ps.length ≤ maxCount)
    (counted : (Entry.store (.integer ps.length) .none v.settings.style).value =
      .integer ps.length) :
    Ends (aggregate op.name ps) v v
      (((foldLeft (op.combine s f v.settings) neutral (ps.map fun p => p.entry.operand)).map
        (Operand.stored v.settings.style)).map fun o => [o]) := by
  have pushed := (leads_pushes works settings scopes).append
    (leads_number (.integer ps.length) .none)
  have length : (ps.map Push.entry).length = ps.length := List.length_map _
  have combined := ends_counted h.combines free (ps.map Push.entry)
    (by rw [length]; exact counted) (by rwa [length])
  have all := pushed.ends combined
  rw [List.append_assoc, List.map_map] at all
  have single (r : Except Error Operand) : (r.map (Operand.stored v.settings.style)).map
      (fun o => [o]) = r.map fun o => [o.stored v.settings.style] := by
    cases r <;> rfl
  rw [single]
  exact all

/-- The operation leaves what the entry on top and further ones are combined to step by step. -/
theorem ends_chained (b : Entry) :
    Ends (ps.flatMap fun p => p.instructions ++ [.keyword sign.name]) (v.push b) v
      (((ps.map fun p => p.entry.operand).foldlM (fun b o =>
        (sign.combine s f v.settings b o).map (Operand.stored v.settings.style)) b.operand).map
          fun o => [o]) := by
  induction ps generalizing b with
  | nil => exact ⟨[b], rfl, leads_nil⟩
  | cons p ps ih =>
    obtain ⟨hp, hps⟩ := List.forall_mem_cons.mp works
    have step : Ends (p.instructions ++ [.keyword sign.name]) (v.push b) v
        ((sign.combine s f v.settings b.operand p.entry.operand).map fun o =>
          [o.stored v.settings.style]) :=
      (hp (v.push b) settings scopes).ends
        (ends_apply free h.found h.action [b, p.entry] h.pairs.symm)
    rw [List.flatMap_cons, List.map_cons, List.foldlM_cons]
    cases hr : sign.combine s f v.settings b.operand p.entry.operand with
    | error e =>
      rw [hr] at step
      exact Fails.append step
    | ok o =>
      rw [hr] at step
      obtain ⟨xs, hxs, leads⟩ := step
      obtain ⟨y, rfl, hy⟩ := List.map_eq_singleton_iff.mp hxs
      have rest := ih hps y
      rw [hy] at rest
      exact leads.ends rest

/-- The chain leaves what it combines the operands of entries to. -/
theorem ends_chain {p : Push} (hp : p.Works m) :
    Ends (chain sign.name (p :: ps)) v v
      (((ps.map fun p => p.entry.operand).foldlM (fun b o =>
        (sign.combine s f v.settings b o).map (Operand.stored v.settings.style))
          p.entry.operand).map fun o => [o]) :=
  (hp v settings scopes).ends (ends_chained h free works settings scopes p.entry)

end

/-- What is pushed in a session is reduced. -/
theorem reduced_of_works {settings : Settings} {clock : Int} {steps : List Step} {p : Push} :
    let m := after (Machine.start settings clock) steps
    m.stack.limit = none → p.Works m → p.entry.value.reduce = p.entry.value := by
  intro m unlimited works
  let Reduced (e : Entry) : Prop := e.value.reduce = e.value
  have run (steps : List Step) (k : Session) (hk : Machine.Holds .all Reduced k) :
      Machine.Holds .all Reduced (k.after steps) :=
    holds_after (fun e _ => Vocabulary.entry_all e) (fun v _ => Entry.reduce_store v)
      (fun s _ => s.inAll) hk
  have pushed := (works ⟨m.settings, m.scopes, m.stack.entries⟩ rfl rfl).steps
    (View.of_self unlimited (atRest_after settings clock steps).nesting)
  have held := run (p.instructions.map .instruction) m
    (run steps _ (Machine.holds_start _ _ settings clock))
  refine held.stack p.entry ?_
  rw [pushed.entries]
  exact List.mem_cons_self

/-- Combining entries by a count of them agrees with combining them one after the other. -/
theorem aggregate_agrees (settings : Settings) (clock : Int) (steps : List Step)
    {name sign : String} (paired : (name, sign) ∈ [("sum", "+"), ("product", "*")])
    {ps : List Push} (some : ps ≠ []) (few : ps.length ≤ maxCount) :
    let m := after (Machine.start settings clock) steps
    let style := m.settings.style
    m.stack.limit = none → (∀ p ∈ ps, p.Works m) →
      (∀ p ∈ ps, p.entry.value.symbolFree = true) →
      (0 < style.wordBits → (∀ p ∈ ps, p.entry.operand.Integer) ∧
        style.word.inRange ps.length = true ∧
        ∀ p n, ps = [p] → p.entry.value = .integer n → style.word.inRange n = true) →
      Agree (aggregate name ps) (chain sign ps) m := by
  intro m style unlimited works symbolFree worded
  obtain ⟨op, op', s, neutral, f, rfl, rfl, h⟩ := repeats_of_paired paired
  have combinable : ∀ p ∈ ps, p.entry.operand.Combinable style := fun p hp =>
    ⟨⟨reduced_of_works unlimited (works p hp), symbolFree p hp⟩, fun bounded =>
      (worded bounded).1 p hp⟩
  have counted : (Entry.store (.integer ps.length) .none style).value = .integer ps.length :=
    Entry.store_fits (fun bounded => (worded bounded).2.1) .none
  obtain ⟨p, ps, rfl⟩ := List.exists_cons_of_ne_nil some
  let v : View := ⟨m.settings, m.scopes, m.stack.entries⟩
  have hm : v.Of m := View.of_self unlimited (atRest_after settings clock steps).nesting
  have free : v.scopes.Free := free_after settings clock steps
  have hp := combinable p List.mem_cons_self
  have hps (q : Push) (hq : q ∈ ps) : q ∈ p :: ps := List.mem_cons_of_mem p hq
  refine agree_of_ends ?_ (ends_aggregated h free works rfl rfl few counted)
    (ends_chain h free (fun q hq => works q (hps q hq)) rfl rfl (works p List.mem_cons_self)) hm
  refine (h.foldlM_combine hp ?_ fun single => ?_).symm
  · simpa using fun q hq => combinable q (hps q hq)
  · rw [List.map_eq_nil_iff] at single
    subst single
    rcases Nat.eq_zero_or_pos style.wordBits with unbounded | bounded
    · exact hp.settled.stored unbounded
    · obtain ⟨n, hn⟩ := hp.integer bounded
      have fits : style.word.inRange n = true := (worded bounded).2.2 p n rfl hn
      have same : p.entry.operand = ⟨.integer n, p.entry.unit⟩ :=
        congrArg (Operand.mk · p.entry.unit) hn
      rw [same, Operand.stored_mk, Entry.store_fits fun _ => fits]

/-- A count above the largest one is refused. -/
theorem counted_many {op : String} {count : Entry} {n : Nat} {w : View}
    (hw : w.entries.head? = some count) (hcount : count.value = .integer n) (many : maxCount < n)
    (indexed : n < Value.indexBound) {k : Session} (hk : w.Of k) :
    k.counted op = .error (.invalidArgument (.countTooLarge op n maxCount)) := by
  obtain ⟨below, entries⟩ := List.head?_eq_some_iff.mp hw
  rw [← hk.entries] at entries
  have one : k.checkArgs op 1 = .ok () := by
    rw [Machine.checkArgs_eq_ok, Stack.size, entries]
    exact Nat.le_add_left 1 _
  have top : (k.stack.peek 0).mapError Error.stack = .ok count := by
    rw [Stack.peek, entries]
    rfl
  have index : count.value.toIndex "count" = .ok n := Value.toIndex_eq_ok.mpr ⟨hcount, indexed⟩
  unfold Machine.counted
  rw [one, top, ok_bind, ok_bind, index, ok_bind, if_pos many]
  rfl

/-- More entries than can be counted are not combined. -/
theorem aborts_many {op : Operation} {s : Signature} {neutral : Value}
    {f : Settings → Operand → Operand → Except Error Operand} (h : op.Combines s neutral f)
    (free : v.scopes.Free) (hm : v.Of m) {ps : List Push} (works : ∀ p ∈ ps, p.Works m)
    (unbounded : v.settings.style.wordBits = 0) (many : maxCount < ps.length)
    (indexed : ps.length < Value.indexBound) : Aborts (aggregate op.name ps) m := by
  let count : Entry := .store (.integer ps.length) .none v.settings.style
  let w : View := (v.pushAll (ps.map Push.entry)).push count
  have value : count.value = .integer ps.length :=
    Entry.store_fits (fun bounded => by omega) .none
  have pushed : Leads (ps.flatMap Push.instructions ++ [.number (.integer ps.length) .none]) v w :=
    (leads_pushes works hm.settings.symm hm.scopes.symm).append
      (leads_number (.integer ps.length) .none)
  have enough : op.minArgs ≤ w.entries.length := by
    rw [h.counted]
    exact Nat.le_add_left 1 _
  have aborted : Fails [.keyword op.name] w
      (.invalidArgument (.countTooLarge op.name ps.length maxCount)) := by
    refine fails_of_exec fun k hk => ⟨k, ?_⟩
    rw [exec_operation (v := w) free h.found enough hk, h.action]
    show exec (foldCounted op.name s neutral f) k = _
    rw [exec_foldCounted, foldPlan, counted_many rfl value many indexed hk]
    rfl
  have all := pushed.fails aborted
  rw [List.append_assoc] at all
  exact Fails.aborts all hm

/-- Metres as a number, as a list and as a fraction. -/
def mixedMetres : List Push :=
  [.literal (.integer 2) (.base "m") {},
    .literal (.list .rational [.integer 1, .rational (1 / 2)]) (.base "m") {},
    .literal (.rational (3 / 2)) (.base "m") {}]

/-- Words of eight bits without sign. -/
def byteStyle : NumberStyle := { wordBits := 8, signed := false }

def intoBytes : Step := .configure fun s => { s with style := byteStyle }

def bytes : List Push := [200, 100, 7].map fun n => .literal (.integer n) .none byteStyle

/-- Adding up metres agrees, and so does multiplying bytes. -/
theorem aggregate_agrees_mixed :
    (∃ o, Leaves (aggregate "sum" mixedMetres) (Machine.start {} 0) o ∧
      Leaves (chain "+" mixedMetres) (Machine.start {} 0) o) ∧
    ∃ o, Leaves (aggregate "product" bytes) (after (Machine.start {} 0) [intoBytes]) o ∧
      Leaves (chain "*" bytes) (after (Machine.start {} 0) [intoBytes]) o := by
  have run : (eval (aggregate "sum" mixedMetres) (Machine.start {} 0)).1.isOk = true ∧
      (eval (aggregate "product" bytes) (after (Machine.start {} 0) [intoBytes])).1.isOk = true ∧
      (∀ p ∈ mixedMetres ++ bytes, p.entry.value.symbolFree = true) ∧
      (after (Machine.start {} 0) [intoBytes]).stack.limit = none := by
    decide +kernel
  obtain ⟨sums, multiplies, symbolFree, unlimited⟩ := run
  have style : (after (Machine.start {} 0) [intoBytes]).settings.style = byteStyle := rfl
  have mixedWork : ∀ p ∈ mixedMetres, p.Works (Machine.start {} 0) := by
    simp only [mixedMetres, List.forall_mem_cons]
    exact ⟨Push.works_literal _ _ _, Push.works_literal _ _ _, Push.works_literal _ _ _,
      List.forall_mem_nil _⟩
  have bytesWork : ∀ p ∈ bytes, p.Works (after (Machine.start {} 0) [intoBytes]) := by
    simp only [bytes, List.forall_mem_map, ← style]
    exact fun n _ => Push.works_literal _ _ _
  have integers : ∀ p ∈ bytes, p.entry.operand.Integer := by
    simp only [bytes, List.forall_mem_map]
    exact fun n _ => ⟨_, congrArg Operand.value (Operand.integer_stored (n := n) .none)⟩
  constructor
  · rcases aggregate_agrees {} 0 [] List.mem_cons_self (by simp [mixedMetres])
      (by decide) rfl mixedWork (fun p hp => symbolFree p (by simp [hp]))
      (fun bounded => absurd bounded (by decide)) with agreed | ⟨aborted, _⟩
    · exact agreed
    · cases sums.symm.trans aborted
  · rcases aggregate_agrees {} 0 [intoBytes]
      (List.mem_cons_of_mem _ List.mem_cons_self) (by simp [bytes]) (by decide) unlimited
      bytesWork (fun p hp => symbolFree p (by simp [hp]))
      (fun _ => ⟨integers, rfl, fun p n single => by cases single⟩) with agreed | ⟨aborted, _⟩
    · exact agreed
    · cases multiplies.symm.trans aborted

def zeros (n : Nat) : List Push := List.replicate n (.literal (.integer 0) .none {})

theorem works_zeros (n : Nat) : ∀ p ∈ zeros n, p.Works (Machine.start {} 0) := by
  intro p hp
  rw [List.eq_of_mem_replicate hp]
  exact Push.works_literal _ _ _

/-- However many zeros are added up one after the other, zero is left. -/
theorem leaves_zeros (n : Nat) :
    Leaves (chain "+" (zeros (n + 1))) (Machine.start {} 0) (.plain (.integer 0)) := by
  let zero : Operand := .plain (.integer 0)
  let step (b o : Operand) : Except Error Operand :=
    (Catalogue.add.combine Catalogue.additive Operand.add {} b o).map (Operand.stored {})
  have fixed : step zero zero = .ok zero := rfl
  have sum : ((zeros n).map fun p => p.entry.operand).foldlM step zero = .ok zero := by
    rw [zeros, List.map_replicate]
    induction n with
    | zero => rfl
    | succ n ih =>
      rw [List.replicate_succ, List.foldlM_cons]
      show step zero zero >>= _ = _
      rw [fixed]
      exact ih
  let v : View := ⟨{}, {}, []⟩
  have ends : Ends (chain "+" (zeros (n + 1))) v v
      ((((zeros n).map fun p => p.entry.operand).foldlM step zero).map fun o => [o]) :=
    ends_chain Catalogue.repeats_sum (free_after {} 0 []) (works_zeros n) rfl rfl
      (Push.works_literal (.integer 0) .none (Machine.start {} 0))
  rw [sum] at ends
  exact Ends.leaves ends (View.of_self (m := Machine.start {} 0) rfl rfl)

/-- A variable is bound to 300, and then there are words of eight bits. -/
def boundBefore : List Step :=
  [.instruction (.number (.integer 300) .none), .instruction (.symbolic (.var "X")),
    .instruction (.keyword "sto"), intoBytes]

/-- The variable alone is left as it is, but the sum of it alone is wrapped. Zeros are added up one
after the other, but there are too many of them to be counted. -/
theorem aggregate_disagrees :
    (let m := after (Machine.start {} 0) boundBefore
     ∃ x, x.value = .integer 300 ∧ Push.Works ⟨[.keyword "X"], x⟩ m ∧ m.stack.limit = none ∧
       m.settings.style = byteStyle ∧
       Leaves (aggregate "sum" [⟨[.keyword "X"], x⟩]) m (.plain (.integer 44)) ∧
       Leaves (chain "+" [⟨[.keyword "X"], x⟩]) m (.plain (.integer 300))) ∧
    (let m := Machine.start {} 0
     Aborts (aggregate "sum" (zeros (maxCount + 1))) m ∧
       Leaves (chain "+" (zeros (maxCount + 1))) m (.plain (.integer 0))) := by
  constructor
  · intro m
    have run : ((m.scopes.get? "X").map fun x =>
          ((x.value.toIndex "count").toOption, x.unit)) = some (some 300, .none) ∧
        m.stack.limit = none ∧ m.settings.style = byteStyle := by
      decide +kernel
    obtain ⟨bound, unlimited, worded⟩ := run
    obtain ⟨⟨v, unit, style, flags⟩, bound, hx⟩ := Option.map_eq_some_iff.mp bound
    obtain ⟨hv, rfl⟩ := Prod.mk.inj hx
    obtain ⟨rfl, _⟩ := Value.toIndex_eq_ok.mp (toOption_eq_some.mp hv)
    let p : Push := ⟨[.keyword "X"], ⟨.integer 300, .none, style, flags⟩⟩
    have works : p.Works m := Push.works_variable bound
    let w : View := ⟨m.settings, m.scopes, m.stack.entries⟩
    have hm : w.Of m := View.of_self unlimited (atRest_after {} 0 boundBefore).nesting
    have free : w.scopes.Free := free_after {} 0 boundBefore
    have wrapped : (Word.emulate 300 8 false).1 = 44 := by decide
    have few : [p].length ≤ maxCount := Nat.succ_pos _
    have fits : w.settings.style.word.inRange ([p].length : Nat) = true := by
      show m.settings.style.word.inRange _ = true
      rw [worded]
      rfl
    have once : Ends (aggregate "sum" [p]) w w (.ok [p.entry.operand.stored w.settings.style]) :=
      ends_aggregated Catalogue.repeats_sum free (List.forall_mem_singleton.mpr works) rfl rfl
        few (Entry.store_fits (fun _ => fits) .none)
    have never : Ends (chain "+" [p]) w w (.ok [p.entry.operand]) :=
      ends_chain Catalogue.repeats_sum free (List.forall_mem_nil _) rfl rfl works
    have stored : p.entry.operand.stored w.settings.style = .plain (.integer 44) := by
      show (⟨.integer 300, .none⟩ : Operand).stored m.settings.style = _
      rw [worded]
      rw [Operand.integer_stored]
      exact congrArg (fun n => Operand.plain (.integer n)) wrapped
    exact ⟨_, rfl, works, unlimited, worded, stored ▸ Ends.leaves once hm, Ends.leaves never hm⟩
  · intro m
    have hm : View.Of ⟨m.settings, m.scopes, m.stack.entries⟩ m := View.of_self rfl rfl
    have length : (zeros (maxCount + 1)).length = maxCount + 1 := List.length_replicate
    refine ⟨aborts_many Catalogue.combines_sum (free_after {} 0 []) hm (works_zeros _) rfl ?_ ?_,
      leaves_zeros maxCount⟩
    · omega
    · rw [length]
      decide

end Session
end StackCalc
