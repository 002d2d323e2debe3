import StackCalc.Proofs.Lockstep
import StackCalc.Proofs.Rational

/-! # Exact arithmetic

Without words, arithmetic on integers and fractions never loses anything: a session is in lock step
with a machine whose stack holds rational numbers. -/

namespace StackCalc.Exact

open Session

/-! ## 1. The reference machine -/

/-- The operations of exact arithmetic and of rearranging the stack. -/
inductive Op where
  | add | sub | mul | div | neg | inv | abs | square | modulo | floorDiv | least | greatest
  | equal | unequal | less | lessOrEqual | greater | greaterOrEqual
  | duplicate | dropTop | swapTop | copySecond | rotateThree
deriving DecidableEq

def Op.keyword : Op → String
  | .add => "+"
  | .sub => "-"
  | .mul => "*"
  | .div => "/"
  | .neg => "neg"
  | .inv => "inv"
  | .abs => "abs"
  | .square => "sq"
  | .modulo => "mod"
  | .floorDiv => "idiv"
  | .least => "min"
  | .greatest => "max"
  | .equal => "=="
  | .unequal => "!="
  | .less => "<"
  | .lessOrEqual => "<="
  | .greater => ">"
  | .greaterOrEqual => ">="
  | .duplicate => "dup"
  | .dropTop => "drop"
  | .swapTop => "swap"
  | .copySecond => "over"
  | .rotateThree => "rot"

/-- Numbers are pushed and operations called by name. -/
inductive Command where
  | integer (n : Int)
  | rational (q : Rat)
  | call (op : Op)

def Command.instruction : Command → Instruction
  | .integer n => .number (.integer n) .none
  | .rational q => .number (.rational q) .none
  | .call op => .keyword op.keyword

/-- A function of the top number. -/
def unary (f : Rat → Option Rat) : List Rat → Option (List Rat)
  | a :: s => (f a).map (· :: s)
  | [] => none

/-- A function of the top two numbers, the lower one first. -/
def binary (f : Rat → Rat → Option Rat) : List Rat → Option (List Rat)
  | b :: a :: s => (f a b).map (· :: s)
  | _ => none

/-- A test of the top two numbers. -/
def test (p : Rat → Rat → Bool) : List Rat → Option (List Rat) :=
  binary fun a b => some (if p a b then 1 else 0)

/-- What an operation does to a stack of numbers, the top one first, if it is defined there. -/
def Op.step : Op → List Rat → Option (List Rat)
  | .add => binary fun a b => some (a + b)
  | .sub => binary fun a b => some (a - b)
  | .mul => binary fun a b => some (a * b)
  | .div => binary fun a b => if b = 0 then none else some (a / b)
  | .neg => unary fun a => some (-a)
  | .inv => unary fun a => if a = 0 then none else some a⁻¹
  | .abs => unary fun a => some a.abs
  | .square => unary fun a => some (a * a)
  | .modulo => binary fun a b => if b = 0 then none else some (a - b * (a / b).floor)
  | .floorDiv => binary fun a b =>
    if b = 0 ∨ a.den ≠ 1 ∨ b.den ≠ 1 then none else some (a / b).floor
  | .least => binary fun a b => some (min a b)
  | .greatest => binary fun a b => some (max a b)
  | .equal => test fun a b => a = b
  | .unequal => test fun a b => a ≠ b
  | .less => test fun a b => a < b
  | .lessOrEqual => test fun a b => a ≤ b
  | .greater => test fun a b => a > b
  | .greaterOrEqual => test fun a b => a ≥ b
  | .duplicate => fun
    | a :: s => some (a :: a :: s)
    | _ => none
  | .dropTop => fun
    | _ :: s => some s
    | _ => none
  | .swapTop => fun
    | b :: a :: s => some (a :: b :: s)
    | _ => none
  | .copySecond => fun
    | b :: a :: s => some (a :: b :: a :: s)
    | _ => none
  | .rotateThree => fun
    | c :: b :: a :: s => some (a :: c :: b :: s)
    | _ => none

def Command.step : Command → List Rat → Option (List Rat)
  | .integer n, s => some (n :: s)
  | .rational q, s => some (q :: s)
  | .call op, s => op.step s

/-- The stack after some commands. Where one is not defined, nothing happens. -/
def run (commands : List Command) : List Rat :=
  commands.foldl (fun s c => (c.step s).getD s) []

/-! ## 2. Functions of scalars -/

/-- A result that stands for a number, or a failure where there is none. -/
def Computes (r : Except Error Operand) : Option Rat → Prop := Gives Value.scalar Scalar.Denotes r

variable {s : Signature} {op : String} {settings : Settings} {x y : Scalar} {a b : Rat}

theorem kind_isScalar (x : Scalar) : (Operand.plain (.scalar x)).kind.isScalar := by
  cases x <;> rfl

/-- On scalars a signature does nothing but convert. -/
theorem apply_scalars {f : Signature.Transform} {os : List Operand}
    (h : ∀ o ∈ os, o.kind.isScalar) :
    s.apply op f settings os = s.resolve op settings.style.precision os >>= f settings := by
  have symbolic : (os.any fun o => o.kind = .symbolic) = false := by
    simp only [List.any_eq_false, decide_eq_true_eq]
    intro o ho hk
    have := h o ho
    rw [hk] at this
    cases this
  have list : (os.any fun o => o.kind = .list) = false := by
    simp only [List.any_eq_false, decide_eq_true_eq]
    intro o ho hk
    have := h o ho
    rw [hk] at this
    cases this
  unfold Signature.apply Signature.applyWithin
  simp only [symbolic, list, Bool.and_false, Bool.false_eq_true, if_false]

/-- Signatures that take two scalars of one kind and promote others. -/
def promoting : List Signature :=
  [Catalogue.additive, Catalogue.multiplicative, Catalogue.divisible, .binaryReal,
    Catalogue.ordered]

theorem resolve_promoting (hs : s ∈ promoting) (digits : Nat) (hx : x.Denotes a)
    (hy : y.Denotes b) : ∃ x' y' : Scalar,
      s.resolve op digits [.plain (.scalar x), .plain (.scalar y)] =
        .ok [.plain (.scalar x'), .plain (.scalar y')] ∧
      x'.Denotes a ∧ y'.Denotes b ∧ x'.kind = y'.kind := by
  simp only [promoting, List.mem_cons, List.not_mem_nil, or_false] at hs
  rcases hs with rfl | rfl | rfl | rfl | rfl <;> cases hx <;> cases hy
  all_goals exact ⟨_, _, rfl, by constructor, by constructor, rfl⟩

/-- A function of two scalars of one kind, applied to any two exact ones. -/
theorem computes_promoting (hs : s ∈ promoting)
    {f : Settings → Operand → Operand → Except Error Operand} {expected : Option Rat}
    (hf : ∀ x y : Scalar, x.Denotes a → y.Denotes b → x.kind = y.kind →
      Computes (f settings (.plain (.scalar x)) (.plain (.scalar y))) expected) :
    Computes (s.apply op (Calc.ofPair op f) settings [.plain (.ofRat a), .plain (.ofRat b)])
      expected := by
  obtain ⟨x, hxv, hx⟩ := Scalar.denotes_ofRat a
  obtain ⟨y, hyv, hy⟩ := Scalar.denotes_ofRat b
  obtain ⟨x', y', hr, hx', hy', hk⟩ := resolve_promoting hs settings.style.precision hx hy
  rw [hxv, hyv, apply_scalars (by simp [kind_isScalar]), hr]
  exact hf x' y' hx' hy' hk

/-- Signatures that take a scalar as it is. -/
def taking : List Signature :=
  [Catalogue.negatable, Catalogue.scalarOrMatrix, .unaryScalar]

theorem computes_taking (hs : s ∈ taking) {f : Settings → Operand → Except Error Operand}
    {expected : Option Rat}
    (hf : ∀ x : Scalar, x.Denotes a → Computes (f settings (.plain (.scalar x))) expected) :
    Computes (s.apply op (Calc.ofSingle op f) settings [.plain (.ofRat a)]) expected := by
  obtain ⟨x, hxv, hx⟩ := Scalar.denotes_ofRat a
  have taken : s.resolve op settings.style.precision [.plain (.scalar x)] =
      .ok [.plain (.scalar x)] := by
    simp only [taking, List.mem_cons, List.not_mem_nil, or_false] at hs
    rcases hs with rfl | rfl | rfl <;> cases x <;> rfl
  rw [hxv, apply_scalars (by simp [kind_isScalar]), taken]
  exact hf x hx

theorem computes_comparable {f : Settings → Operand → Operand → Except Error Operand}
    {expected : Option Rat}
    (hf : ∀ x y : Scalar, x.Denotes a → y.Denotes b →
      Computes (f settings (.plain (.scalar x)) (.plain (.scalar y))) expected) :
    Computes (Catalogue.comparable.apply op (Calc.ofPair op f) settings
      [.plain (.ofRat a), .plain (.ofRat b)]) expected := by
  obtain ⟨x, hxv, hx⟩ := Scalar.denotes_ofRat a
  obtain ⟨y, hyv, hy⟩ := Scalar.denotes_ofRat b
  rw [hxv, hyv, apply_scalars (by simp [kind_isScalar])]
  exact hf x y hx hy

theorem computes_scalar {r : Except Error Scalar} {q : Rat}
    (h : ∃ z, r = .ok z ∧ z.Denotes q) :
    Computes (r.map Value.scalar >>= fun v => .ok (.plain v)) (some q) := by
  obtain ⟨z, rfl, hz⟩ := h
  exact ⟨z, rfl, hz⟩

theorem computes_truth (p : Bool) :
    Computes (.ok (Operand.truth p)) (some (if p then 1 else 0)) := by
  cases p
  · exact ⟨_, rfl, .integer 0⟩
  · exact ⟨_, rfl, .integer 1⟩

/-! ## 3. Arithmetic -/

theorem computes_add (hx : x.Denotes a) (hy : y.Denotes b) :
    Computes (Operand.add settings (.plain (.scalar x)) (.plain (.scalar y))) (some (a + b)) :=
  computes_scalar (hx.add (d := Operand.digits settings) hy)

theorem computes_sub (hx : x.Denotes a) (hy : y.Denotes b) :
    Computes (Operand.sub settings (.plain (.scalar x)) (.plain (.scalar y))) (some (a - b)) :=
  computes_scalar (hx.sub (d := Operand.digits settings) hy)

theorem computes_mul (hx : x.Denotes a) (hy : y.Denotes b) :
    Computes (Operand.mul settings (.plain (.scalar x)) (.plain (.scalar y))) (some (a * b)) :=
  computes_scalar (hx.mul (d := Operand.digits settings) hy)

theorem computes_div (hx : x.Denotes a) (hy : y.Denotes b) :
    Computes (Operand.div settings (.plain (.scalar x)) (.plain (.scalar y)))
      (if b = 0 then none else some (a / b)) := by
  split
  · rename_i hb
    subst hb
    refine ⟨.divisionByZero, ?_⟩
    show Except.map Value.scalar (Scalar.div (Operand.digits settings) x y) >>= _ = _
    rw [hx.div_zero hy]
    rfl
  · rename_i hb
    exact computes_scalar (hx.div (d := Operand.digits settings) hy hb)

theorem computes_neg (hx : x.Denotes a) :
    Computes (Operand.neg settings (.plain (.scalar x))) (some (-a)) :=
  ⟨x.neg, rfl, hx.neg⟩

theorem computes_inv (hx : x.Denotes a) :
    Computes (Operand.inv settings (.plain (.scalar x))) (if a = 0 then none else some a⁻¹) := by
  have quotient : (if a = 0 then none else some (((1 : Int) : Rat) / a)) =
      if a = 0 then none else some a⁻¹ := by
    rw [Rat.div_def, Rat.intCast_one, Rat.one_mul]
  rw [← quotient]
  exact computes_div (.integer 1) hx

theorem computes_abs (hx : x.Denotes a) :
    Computes (Operand.abs settings (.plain (.scalar x))) (some a.abs) :=
  computes_scalar hx.abs

theorem computes_modulo (hx : x.Denotes a) (hy : y.Denotes b) :
    Computes (Operand.modulo settings (.plain (.scalar x)) (.plain (.scalar y)))
      (if b = 0 then none else some (a - b * (a / b).floor)) := by
  split
  · rename_i hb
    refine ⟨.divisionByZero, ?_⟩
    show Value.modulo (Operand.digits settings) (.scalar x) (.scalar y) >>= _ = _
    rw [Value.modulo, if_pos (by simpa [Value.isZero, hy.isZero] using hb)]
    rfl
  · rename_i hb
    obtain ⟨z, hz, hd⟩ := hx.modulo (d := Operand.digits settings) hy hb
    refine ⟨z, ?_, hd⟩
    show Value.modulo (Operand.digits settings) (.scalar x) (.scalar y) >>= _ = _
    rw [Value.modulo, if_neg (by simpa [Value.isZero, hy.isZero] using hb)]
    show Except.map Value.scalar (Scalar.modulo (Operand.digits settings) x y) >>= _ = _
    rw [hz]
    rfl

theorem convert_fraction (h : a.den ≠ 1) (digits : Nat) :
    Signature.convert digits (.rational a) .integer =
      .error (.typeMismatch "convert" (Kind.rational.name ++ " is not an exact " ++
        Kind.integer.name)) := by
  have narrowed : (Value.rational a).narrow? .integer = none := by
    show Option.map Value.scalar (if a.den = 1 then some (.integer a.num) else none) = none
    rw [if_neg h]
    rfl
  simp only [Signature.convert, narrowed]
  rfl

theorem tryConversion_eq_none {digits : Nat} {os : List Operand} {c : Conversion} {o : Operand}
    {e : Error} (ho : o ∈ os) (h : Signature.convert digits o.value c.target = .error e) :
    Signature.tryConversion digits os c = none := by
  unfold Signature.tryConversion
  split
  · cases hm : os.mapM fun (o : Operand) =>
        (Signature.convert digits o.value c.target).map fun v => (⟨v, o.unit⟩ : Operand) with
    | error _ => rfl
    | ok rs =>
      obtain ⟨r, _, hr⟩ := (Value.mapM_eq_ok hm).2 o ho
      rw [h] at hr
      cases hr
  · rfl

/-- A fraction is never taken for an integer. -/
theorem resolve_fraction (op : String) (digits : Nat) (h : a.den ≠ 1 ∨ b.den ≠ 1) :
    ∃ e, Signature.binaryInteger.resolve op digits [.plain (.ofRat a), .plain (.ofRat b)] =
      .error e := by
  have convert : ∀ q : Rat, q.den ≠ 1 →
      ∃ e, Signature.convert digits (Value.ofRat q) .integer = .error e := fun q hq => by
    rw [Value.ofRat, if_neg hq]
    exact ⟨_, convert_fraction hq digits⟩
  have kind : ∀ q : Rat, (Value.ofRat q).kind = .integer ↔ q.den = 1 := fun q => by
    by_cases hq : q.den = 1
    · simp [Value.ofRat, hq, Value.kind, Scalar.kind, Value.integer]
    · simp [Value.ofRat, hq, Value.kind, Scalar.kind, Value.rational]
  have misfit : Signature.binaryInteger.accepted.any
      (Signature.fits [.plain (.ofRat a), .plain (.ofRat b)]) = false := by
    simp [Signature.binaryInteger, Signature.pairs, Signature.fits, KindSet.of, Operand.kind,
      Operand.plain, kind]
    omega
  have failed : Signature.tryConversion digits [.plain (.ofRat a), .plain (.ofRat b)]
      ⟨.exact, .integer⟩ = none := by
    rcases h with h | h
    · obtain ⟨e, he⟩ := convert a h
      exact tryConversion_eq_none (List.mem_cons_self) he
    · obtain ⟨e, he⟩ := convert b h
      exact tryConversion_eq_none (List.mem_cons_of_mem _ List.mem_cons_self) he
  refine ⟨.typeMismatch op (Operand.kindsText [.plain (.ofRat a), .plain (.ofRat b)]), ?_⟩
  rw [Signature.resolve, misfit]
  simp [Signature.binaryInteger, failed]

/-- Whole numbers are divided, and any other operand is refused. -/
theorem computes_floorDiv (a b : Rat) :
    Computes (Signature.binaryInteger.apply op (Calc.ofPair op Operand.floorDiv) settings
        [.plain (.ofRat a), .plain (.ofRat b)])
      (if b = 0 ∨ a.den ≠ 1 ∨ b.den ≠ 1 then none else some (a / b).floor) := by
  have scalars : ∀ o ∈ [Operand.plain (.ofRat a), .plain (.ofRat b)], o.kind.isScalar := by
    obtain ⟨x, hx, _⟩ := Scalar.denotes_ofRat a
    obtain ⟨y, hy, _⟩ := Scalar.denotes_ofRat b
    simp [hx, hy, kind_isScalar]
  rw [apply_scalars scalars]
  by_cases fraction : a.den ≠ 1 ∨ b.den ≠ 1
  · obtain ⟨e, he⟩ := resolve_fraction op settings.style.precision fraction
    rw [he, if_pos (.inr fraction)]
    exact ⟨e, rfl⟩
  · obtain ⟨ha, hb⟩ : a.den = 1 ∧ b.den = 1 := by simpa using fraction
    have divided : Signature.binaryInteger.resolve op settings.style.precision
        [.plain (.ofRat a), .plain (.ofRat b)] >>= Calc.ofPair op Operand.floorDiv settings =
        (Scalar.floorDiv a.num b.num).map fun q => .plain (.integer q) := by
      rw [Value.ofRat, if_pos ha, Value.ofRat, if_pos hb]
      show Scalar.floorDiv a.num b.num >>= _ = _
      cases Scalar.floorDiv a.num b.num <;> rfl
    have whole : a / b = (a.num : Rat) / (b.num : Rat) := by
      rw [show (a.num : Rat) = a from Rat.ext rfl ha.symm,
        show (b.num : Rat) = b from Rat.ext rfl hb.symm]
    rw [divided, Scalar.floorDiv]
    by_cases zero : b = 0
    · rw [if_pos (Rat.num_eq_zero.mpr zero), if_pos (.inl zero)]
      exact ⟨_, rfl⟩
    · rw [if_neg (mt Rat.num_eq_zero.mp zero), if_neg (by simp [zero, ha, hb]), whole,
        floor_div_eq_fdiv]
      exact ⟨_, rfl, .integer _⟩

/-! ## 4. Comparisons -/

theorem order_scalars (hx : x.Denotes a) (hy : y.Denotes b) (hk : x.kind = y.kind) :
    (Value.scalar x).order? (.scalar y) = some (Scalar.orderOf a b) :=
  hx.compareSame hy hk

/-- The lesser or the greater of two numbers is the first of them unless that is out of order. -/
theorem computes_extreme (wanted : Ordering) (hx : x.Denotes a) (hy : y.Denotes b)
    (hk : x.kind = y.kind) :
    Computes (Operand.extreme wanted settings (.plain (.scalar x)) (.plain (.scalar y)))
      (some (if Scalar.orderOf a b = wanted ∨ Scalar.orderOf a b = .eq then a else b)) := by
  have chosen : Operand.extreme wanted settings (.plain (.scalar x)) (.plain (.scalar y)) =
      .ok (.plain (if Scalar.orderOf a b = wanted ∨ Scalar.orderOf a b = .eq then .scalar x
        else .scalar y)) := by
    unfold Operand.extreme Operand.plain
    rw [order_scalars hx hy hk]
    rfl
  rw [chosen]
  split
  · exact ⟨x, rfl, hx⟩
  · exact ⟨y, rfl, hy⟩

theorem computes_least (hx : x.Denotes a) (hy : y.Denotes b) (hk : x.kind = y.kind) :
    Computes (Operand.extreme .lt settings (.plain (.scalar x)) (.plain (.scalar y)))
      (some (min a b)) := by
  have least : min a b =
      if Scalar.orderOf a b = .lt ∨ Scalar.orderOf a b = .eq then a else b := by
    rw [Rat.min_def]
    rcases Scalar.orderOf_cases a b with ⟨h, ho⟩ | ⟨h, ho⟩ | ⟨h, ho⟩
    · simp [ho, Rat.le_of_lt h]
    · simp [h]
    · simp [ho, Rat.not_le.mpr h]
  exact least ▸ computes_extreme .lt hx hy hk

theorem computes_greatest (hx : x.Denotes a) (hy : y.Denotes b) (hk : x.kind = y.kind) :
    Computes (Operand.extreme .gt settings (.plain (.scalar x)) (.plain (.scalar y)))
      (some (max a b)) := by
  have greatest : max a b =
      if Scalar.orderOf a b = .gt ∨ Scalar.orderOf a b = .eq then a else b := by
    rw [Rat.max_def]
    rcases Scalar.orderOf_cases a b with ⟨h, ho⟩ | ⟨h, ho⟩ | ⟨h, ho⟩
    · simp [ho, Rat.le_of_lt h]
    · simp [h]
    · simp [ho, Rat.not_le.mpr h]
  exact greatest ▸ computes_extreme .gt hx hy hk

theorem computes_testOrder (test : Ordering → Bool) (hx : x.Denotes a) (hy : y.Denotes b)
    (hk : x.kind = y.kind) :
    Computes (Operand.order op (.plain (.scalar x)) (.plain (.scalar y)) >>=
        fun o => pure (Operand.truth (test o)))
      (some (if test (Scalar.orderOf a b) then 1 else 0)) := by
  have order : Operand.order op (.plain (.scalar x)) (.plain (.scalar y)) =
      .ok (Scalar.orderOf a b) := by
    unfold Operand.order Operand.plain
    rw [order_scalars hx hy hk]
    rfl
  rw [order]
  exact computes_truth _

theorem computes_testEqual (settings : Settings) {wanted p : Bool} (hx : x.Denotes a)
    (hy : y.Denotes b) (hp : decide (decide (a = b) = wanted) = p) :
    Computes (Operand.equals settings (.plain (.scalar x)) (.plain (.scalar y)) >>=
        fun e => pure (Operand.truth (e = wanted)))
      (some (if p then 1 else 0)) := by
  have equals : Operand.equals settings (.plain (.scalar x)) (.plain (.scalar y)) =
      .ok (decide (a = b)) := hx.equals hy
  rw [equals, ← hp]
  exact computes_truth _

/-! ## 5. Lock step -/

/-- A session that shows a stack of numbers. -/
def Fits (style : NumberStyle) (stack : List Rat) (m : Session) : Prop :=
  m.Shows style (stack.map .ofRat)

section
variable {m : Session} {style : NumberStyle} {stack : List Rat}
  (hm : m.Shows style (stack.map .ofRat)) (hw : style.wordBits = 0)

include hw

theorem fits_of_stores {i : Instruction} {q : Rat} {rest : List Rat} (hx : x.Denotes q)
    (h : Stores i m style (.scalar x) (rest.map .ofRat)) :
    Fits style (q :: rest) (runOne i m).2 := by
  have stored : (Entry.store (.scalar x) .none style).value = .ofRat q := by
    rw [Entry.store_unbounded hw]
    exact hx.reduce_eq
  rw [Fits, List.map_cons, ← stored]
  exact h.shown

include hm

theorem follows_unary (op : Operation) {name : String}
    {f : Settings → Operand → Except Error Operand} {g : Rat → Option Rat}
    (hop : op ∈ Registry.operations) (hrun : op.action = .primitive (Calc.unary name s f))
    (hargs : op.minArgs = 1)
    (hc : ∀ a, Computes (s.apply name (Calc.ofSingle name f) m.settings [.plain (.ofRat a)])
      (g a)) : Follows (Fits style) (.keyword op.name) m (unary g stack) := by
  match stack with
  | [] => exact refuses_few 1 hop hrun hargs hm (by simp)
  | a :: rest =>
    have enough : 1 ≤ ((a :: rest).map Value.ofRat).length := by simp
    exact follows_applied 1 hop hrun hargs hm enough (hc a) fun _ _ => fits_of_stores hw

theorem follows_binary (op : Operation) {name : String}
    {f : Settings → Operand → Operand → Except Error Operand} {g : Rat → Rat → Option Rat}
    (hop : op ∈ Registry.operations) (hrun : op.action = .primitive (Calc.binary name s f))
    (hargs : op.minArgs = 2)
    (hc : ∀ a b, Computes (s.apply name (Calc.ofPair name f) m.settings
      [.plain (.ofRat a), .plain (.ofRat b)]) (g a b)) :
    Follows (Fits style) (.keyword op.name) m (binary g stack) := by
  match stack with
  | [] => exact refuses_few 2 hop hrun hargs hm (by simp)
  | [_] => exact refuses_few 2 hop hrun hargs hm (by simp)
  | b :: a :: rest =>
    have enough : 2 ≤ ((b :: a :: rest).map Value.ofRat).length := by simp
    exact follows_applied 2 hop hrun hargs hm enough (hc a b) fun _ _ => fits_of_stores hw

omit hw

/-- An operation that rearranges enough entries shows them in their new order. -/
theorem follows_rearranged (op : Operation) {f : Stack → Except StackFault Stack}
    {next : List Rat} (entries : List Entry) (hop : op ∈ Registry.operations)
    (hrun : op.action = .primitive (Calc.rearrange f)) (enough : op.minArgs ≤ stack.length)
    (hf : f m.stack = .ok (m.stack.withEntries entries))
    (shown : entries.map (fun e => (⟨e.value, e.unit⟩ : Operand)) =
      (next.map Value.ofRat).map .plain) :
    Follows (Fits style) (.keyword op.name) m (some next) := by
  have rearranged : (Calc.rearrange f).exec m =
      (.ok (), m.withStack (m.stack.withEntries entries)) := by
    rw [Calc.exec_rearrange, hf]
  obtain ⟨history, h⟩ := runOne_done
    ((exec_keyword_enough hop hrun hm (by simpa using enough) _).trans rearranged)
  exact ⟨by rw [h], by rw [h]; exact ⟨shown, hm.style, hm.limit, hm.scopes⟩⟩

theorem follows_duplicate : Follows (Fits style) (.keyword "dup") m (Op.step .duplicate stack) := by
  have hop : Catalogue.duplicate ∈ Registry.operations :=
    Registry.mem_of_rearrangements (by simp [Catalogue.rearrangements])
  have few (h : stack.length < 1) : Refuses (.keyword Catalogue.duplicate.name) m :=
    refuses_few 1 hop rfl rfl hm (by simpa using h)
  match stack with
  | [] => exact few (by simp)
  | a :: rest =>
    obtain ⟨e, es, he, ha, hes⟩ := List.map_eq_cons_iff.mp hm.operands
    refine follows_rearranged hm Catalogue.duplicate (e :: e :: es) hop rfl (Nat.le_add_left 1 _)
      ?_ ?_
    · simp only [Stack.dup, he, Stack.push, hm.room 0 1, ok_bind]
      rfl
    · rw [List.map_cons, List.map_cons, ha, hes]
      rfl

theorem follows_dropTop : Follows (Fits style) (.keyword "drop") m (Op.step .dropTop stack) := by
  have hop : Catalogue.dropTop ∈ Registry.operations :=
    Registry.mem_of_rearrangements (by simp [Catalogue.rearrangements])
  have few (h : stack.length < 1) : Refuses (.keyword Catalogue.dropTop.name) m :=
    refuses_few 1 hop rfl rfl hm (by simpa using h)
  match stack with
  | [] => exact few (by simp)
  | a :: rest =>
    obtain ⟨e, es, he, ha, hes⟩ := List.map_eq_cons_iff.mp hm.operands
    refine follows_rearranged hm Catalogue.dropTop es hop rfl (Nat.le_add_left 1 _) ?_ hes
    simp only [Stack.drop, he]

theorem follows_swapTop : Follows (Fits style) (.keyword "swap") m (Op.step .swapTop stack) := by
  have hop : Catalogue.swapTop ∈ Registry.operations :=
    Registry.mem_of_rearrangements (by simp [Catalogue.rearrangements])
  have few (h : stack.length < 2) : Refuses (.keyword Catalogue.swapTop.name) m :=
    refuses_few 2 hop rfl rfl hm (by simpa using h)
  match stack with
  | [] => exact few (by simp)
  | [_] => exact few (by simp)
  | b :: a :: rest =>
    obtain ⟨e, es, he, hb, hes⟩ := List.map_eq_cons_iff.mp hm.operands
    obtain ⟨d, ds, rfl, ha, hds⟩ := List.map_eq_cons_iff.mp hes
    refine follows_rearranged hm Catalogue.swapTop (d :: e :: ds) hop rfl (Nat.le_add_left 2 _)
      ?_ ?_
    · simp only [Stack.swap, he]
    · rw [List.map_cons, List.map_cons, ha, hb, hds]
      rfl

theorem follows_copySecond :
    Follows (Fits style) (.keyword "over") m (Op.step .copySecond stack) := by
  have hop : Catalogue.copySecond ∈ Registry.operations :=
    Registry.mem_of_rearrangements (by simp [Catalogue.rearrangements])
  have few (h : stack.length < 2) : Refuses (.keyword Catalogue.copySecond.name) m :=
    refuses_few 2 hop rfl rfl hm (by simpa using h)
  match stack with
  | [] => exact few (by simp)
  | [_] => exact few (by simp)
  | b :: a :: rest =>
    obtain ⟨e, es, he, hb, hes⟩ := List.map_eq_cons_iff.mp hm.operands
    obtain ⟨d, ds, rfl, ha, hds⟩ := List.map_eq_cons_iff.mp hes
    refine follows_rearranged hm Catalogue.copySecond (d :: e :: d :: ds) hop rfl
      (Nat.le_add_left 2 _) ?_ ?_
    · simp only [Stack.copySecond, he, Stack.push, hm.room 0 1, ok_bind]
      rfl
    · rw [List.map_cons, List.map_cons, List.map_cons, ha, hb, hds]
      rfl

theorem follows_rotateThree :
    Follows (Fits style) (.keyword "rot") m (Op.step .rotateThree stack) := by
  have hop : Catalogue.rotateThree ∈ Registry.operations :=
    Registry.mem_of_rearrangements (by simp [Catalogue.rearrangements])
  have few (h : stack.length < 3) : Refuses (.keyword Catalogue.rotateThree.name) m :=
    refuses_few 3 hop rfl rfl hm (by simpa using h)
  match stack with
  | [] => exact few (by simp)
  | [_] => exact few (by simp)
  | [_, _] => exact few (by simp)
  | c :: b :: a :: rest =>
    obtain ⟨e, es, he, hc, hes⟩ := List.map_eq_cons_iff.mp hm.operands
    obtain ⟨d, ds, rfl, hb, hds⟩ := List.map_eq_cons_iff.mp hes
    obtain ⟨x, xs, rfl, ha, hxs⟩ := List.map_eq_cons_iff.mp hds
    refine follows_rearranged hm Catalogue.rotateThree (x :: e :: d :: xs) hop rfl
      (Nat.le_add_left 3 _) ?_ ?_
    · simp only [Stack.rot, he]
    · rw [List.map_cons, List.map_cons, List.map_cons, ha, hb, hc, hxs]
      rfl

include hw

theorem follows_promoting (op : Operation) {name : String}
    {f : Settings → Operand → Operand → Except Error Operand} {g : Rat → Rat → Option Rat}
    (hop : op ∈ Catalogue.numeric) (hrun : op.action = .primitive (Calc.binary name s f))
    (hargs : op.minArgs = 2) (hs : s ∈ promoting)
    (hc : ∀ a b (x y : Scalar), x.Denotes a → y.Denotes b → x.kind = y.kind →
      Computes (f m.settings (.plain (.scalar x)) (.plain (.scalar y))) (g a b)) :
    Follows (Fits style) (.keyword op.name) m (binary g stack) :=
  follows_binary hm hw op (Registry.mem_of_numeric hop) hrun hargs
    fun a b => computes_promoting hs (hc a b)

theorem follows_taking (op : Operation) {name : String}
    {f : Settings → Operand → Except Error Operand} {g : Rat → Option Rat}
    (hop : op ∈ Catalogue.numeric) (hrun : op.action = .primitive (Calc.unary name s f))
    (hargs : op.minArgs = 1) (hs : s ∈ taking)
    (hc : ∀ a (x : Scalar), x.Denotes a → Computes (f m.settings (.plain (.scalar x))) (g a)) :
    Follows (Fits style) (.keyword op.name) m (unary g stack) :=
  follows_unary hm hw op (Registry.mem_of_numeric hop) hrun hargs
    fun a => computes_taking hs (hc a)

/-- A test of the order compares the numbers. -/
theorem follows_testOrder (op : Operation) {name : String} {test : Ordering → Bool}
    {p : Rat → Rat → Bool} (hop : op ∈ Catalogue.numeric)
    (hrun : op.action = .primitive (Catalogue.testOrder name test)) (hargs : op.minArgs = 2)
    (hp : ∀ a b, test (Scalar.orderOf a b) = p a b) :
    Follows (Fits style) (.keyword op.name) m (Exact.test p stack) :=
  follows_promoting hm hw op hop hrun hargs (by simp [promoting])
    fun a b x y hx hy hk => hp a b ▸ computes_testOrder test hx hy hk

theorem follows_testEqual (op : Operation) {name : String} {wanted : Bool} {p : Rat → Rat → Bool}
    (hop : op ∈ Catalogue.numeric)
    (hrun : op.action = .primitive (Catalogue.testEqual name wanted)) (hargs : op.minArgs = 2)
    (hp : ∀ a b, decide (decide (a = b) = wanted) = p a b) :
    Follows (Fits style) (.keyword op.name) m (Exact.test p stack) :=
  follows_binary hm hw op (Registry.mem_of_numeric hop) hrun hargs fun a b =>
    computes_comparable fun _ _ hx hy => computes_testEqual m.settings hx hy (hp a b)

theorem follows_call (op : Op) : Follows (Fits style) (.keyword op.keyword) m (op.step stack) := by
  cases op with
  | add =>
    exact follows_promoting hm hw Catalogue.add (by simp [Catalogue.numeric]) rfl rfl
      (by simp [promoting]) fun _ _ _ _ hx hy _ => computes_add hx hy
  | sub =>
    exact follows_promoting hm hw Catalogue.sub (by simp [Catalogue.numeric]) rfl rfl
      (by simp [promoting]) fun _ _ _ _ hx hy _ => computes_sub hx hy
  | mul =>
    exact follows_promoting hm hw Catalogue.mul (by simp [Catalogue.numeric]) rfl rfl
      (by simp [promoting]) fun _ _ _ _ hx hy _ => computes_mul hx hy
  | div =>
    exact follows_promoting hm hw Catalogue.div (by simp [Catalogue.numeric]) rfl rfl
      (by simp [promoting]) fun _ _ _ _ hx hy _ => computes_div hx hy
  | neg =>
    exact follows_taking hm hw Catalogue.neg (by simp [Catalogue.numeric]) rfl rfl
      (by simp [taking]) fun _ _ hx => computes_neg hx
  | inv =>
    exact follows_taking hm hw Catalogue.inv (by simp [Catalogue.numeric]) rfl rfl
      (by simp [taking]) fun _ _ hx => computes_inv hx
  | abs =>
    exact follows_taking hm hw Catalogue.abs (by simp [Catalogue.numeric]) rfl rfl
      (by simp [taking]) fun _ _ hx => computes_abs hx
  | square =>
    exact follows_taking hm hw Catalogue.square (by simp [Catalogue.numeric]) rfl rfl
      (by simp [taking]) fun _ _ hx => computes_mul hx hx
  | modulo =>
    exact follows_promoting hm hw Catalogue.modulo (by simp [Catalogue.numeric]) rfl rfl
      (by simp [promoting]) fun _ _ _ _ hx hy _ => computes_modulo hx hy
  | floorDiv =>
    exact follows_binary hm hw Catalogue.floorDiv
      (Registry.mem_of_numeric (by simp [Catalogue.numeric])) rfl rfl computes_floorDiv
  | least =>
    exact follows_promoting hm hw Catalogue.least (by simp [Catalogue.numeric]) rfl rfl
      (by simp [promoting]) fun _ _ _ _ hx hy hk => computes_least hx hy hk
  | greatest =>
    exact follows_promoting hm hw Catalogue.greatest (by simp [Catalogue.numeric]) rfl rfl
      (by simp [promoting]) fun _ _ _ _ hx hy hk => computes_greatest hx hy hk
  | equal =>
    exact follows_testEqual hm hw Catalogue.equal (by simp [Catalogue.numeric]) rfl rfl
      fun a b => by simp
  | unequal =>
    exact follows_testEqual hm hw Catalogue.unequal (by simp [Catalogue.numeric]) rfl rfl
      fun a b => by simp
  | less =>
    exact follows_testOrder hm hw Catalogue.less (by simp [Catalogue.numeric]) rfl rfl
      Scalar.isLT_orderOf
  | lessOrEqual =>
    exact follows_testOrder hm hw Catalogue.lessOrEqual (by simp [Catalogue.numeric]) rfl rfl
      Scalar.isLE_orderOf
  | greater =>
    exact follows_testOrder hm hw Catalogue.greater (by simp [Catalogue.numeric]) rfl rfl
      Scalar.isGT_orderOf
  | greaterOrEqual =>
    exact follows_testOrder hm hw Catalogue.greaterOrEqual (by simp [Catalogue.numeric]) rfl rfl
      Scalar.isGE_orderOf
  | duplicate => exact follows_duplicate hm
  | dropTop => exact follows_dropTop hm
  | swapTop => exact follows_swapTop hm
  | copySecond => exact follows_copySecond hm
  | rotateThree => exact follows_rotateThree hm

theorem follows_command (c : Command) : Follows (Fits style) c.instruction m (c.step stack) := by
  cases c with
  | integer n =>
    have stores := stores_number hm (.integer n)
    exact ⟨stores.ok, fits_of_stores hw (.integer n) stores⟩
  | rational q =>
    have stores := stores_number hm (.rational q)
    exact ⟨stores.ok, fits_of_stores hw (.rational q) stores⟩
  | call op => exact follows_call hm hw op

/-- One command keeps a session in step, whether it succeeds or not. -/
theorem shows_runOne (c : Command) :
    (runOne c.instruction m).2.Shows style (((c.step stack).getD stack).map .ofRat) := by
  have followed := follows_command hm hw c
  cases hs : c.step stack with
  | none =>
    rw [hs] at followed
    rw [followed.unchanged]
    exact hm
  | some t =>
    rw [hs] at followed
    exact followed.2

end

/-- Exact arithmetic is in lock step with the rational numbers: after any commands the session holds
the values of the reference stack, integers where they are whole and fractions in lowest terms
elsewhere, and any further command succeeds just where its reference step is defined. -/
theorem lockstep_rational (settings : Settings) (clock : Int) (hw : settings.style.wordBits = 0)
    (hl : settings.stackLimit = none) (commands : List Command) (next : Command) :
    let m := (Session.run (commands.map Command.instruction) (Machine.start settings clock)).2
    m.stack.entries.map Entry.value = (run commands).map .ofRat ∧
      (∀ e ∈ m.stack.entries, e.unit = .none) ∧
      ((runOne next.instruction m).1 = .ok () ↔ (next.step (run commands)).isSome) := by
  have shown := shows_run (fun c _ _ hm => shows_runOne hm hw c) commands _ []
    (Machine.shows_start settings clock hl)
  exact ⟨shown.values_eq, shown.units_eq, (follows_command shown hw next).succeeds_iff⟩

/-- A third and two thirds make one. What is divided by zero stays, and a fraction comes on top. -/
def thirds : List Command :=
  [.integer 1, .integer 3, .call .div, .rational (2 / 3), .call .add, .integer 0, .call .div,
    .call .dropTop, .rational (7 / 2)]

/-- The fraction has no whole quotient, but it has a remainder. -/
theorem lockstep_rational_thirds :
    let m := (Session.run (thirds.map Command.instruction) (Machine.start {} 0)).2
    m.stack.entries.map Entry.value = [.ofRat (7 / 2), .ofRat 1] ∧
      (runOne (Command.call .floorDiv).instruction m).1 ≠ .ok () ∧
      (runOne (Command.call .modulo).instruction m).1 = .ok () := by
  have values : run thirds = [7 / 2, 1] := by decide +kernel
  have divided := lockstep_rational {} 0 rfl rfl thirds (.call .floorDiv)
  have remainder := lockstep_rational {} 0 rfl rfl thirds (.call .modulo)
  rw [values] at divided remainder
  exact ⟨divided.1, fun h => absurd (divided.2.2.mp h) (by decide +kernel),
    remainder.2.2.mpr (by decide +kernel)⟩

end StackCalc.Exact
