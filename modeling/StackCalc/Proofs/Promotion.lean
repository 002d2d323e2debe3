import StackCalc.Proofs.Exact
import StackCalc.Proofs.Settled

/-! # Promotion

The order of promotion is written down twice: as the join of two kinds, to which `widen` brings
both values, and as the table of conversions that a signature tries one after the other. For every
pair of operands both find the same values, or none. -/

namespace StackCalc

/-! ## 1. The lattice -/

namespace Value

/-- Two values widened to the join of their kinds, if that is a scalar kind. -/
def joined (digits : Nat) (v w : Value) : Option (Value × Value) :=
  ((v.kind.join w.kind).filter Kind.isScalar).bind fun k =>
    (v.widen digits k).toOption.bind fun v' => (w.widen digits k).toOption.map fun w' => (v', w')

theorem scalar_of_kind {v : Value} (h : v.kind.isScalar) : ∃ x, v = .scalar x := by
  cases v with
  | scalar x => exact ⟨x, rfl⟩
  | matrix | list | time | symbolic => cases h

theorem widen_float {x : Scalar} (h : x.kind ≠ .complex) (digits : Nat) :
    (scalar x).widen digits .float = (x.toFloat digits).map float := by
  cases x with
  | integer | rational | float => rfl
  | complex => exact absurd rfl h

theorem widen_complex (x : Scalar) (digits : Nat) :
    (scalar x).widen digits .complex = (x.toComplex digits).map complex := by
  cases x with
  | integer | float | complex => rfl
  | rational q =>
    show (MPFloat.ofRat q digits).map _ = ((MPFloat.ofRat q digits).map _).map _
    cases MPFloat.ofRat q digits <;> rfl

end Value

namespace Scalar

variable {x y : Scalar}

theorem toComplex_real (h : x.kind ≠ .complex) (digits : Nat) :
    x.toComplex digits = (x.toFloat digits).map Complex.ofReal := by
  cases x with
  | integer | rational | float => rfl
  | complex => exact absurd rfl h

/-- Two scalars have a common kind. If it is not complex, neither of them is. -/
theorem exists_join (x y : Scalar) : ∃ k, x.kind.join y.kind = some k ∧ k.isScalar ∧
    (k ≠ .complex → x.kind ≠ .complex ∧ y.kind ≠ .complex) := by
  cases x <;> cases y <;> exact ⟨_, rfl, rfl, by simp [Scalar.kind]⟩

theorem promote_float (h : x.kind.join y.kind = some .float) (digits : Nat) :
    promote digits x y = do return .floats (← x.toFloat digits) (← y.toFloat digits) := by
  cases x <;> cases y <;> first | rfl | cases h

theorem promote_complex (h : x.kind.join y.kind = some .complex) (digits : Nat) :
    promote digits x y = do return .complexes (← x.toComplex digits) (← y.toComplex digits) := by
  cases x <;> cases y <;> first | rfl | cases h

theorem joined_of_join {digits : Nat} {k : Kind} (join : x.kind.join y.kind = some k)
    (scalar : k.isScalar) :
    Value.joined digits (.scalar x) (.scalar y) =
      ((Value.scalar x).widen digits k).toOption.bind fun v =>
        ((Value.scalar y).widen digits k).toOption.map fun w => (v, w) := by
  unfold Value.joined
  simp only [Value.kind, join, Option.filter_some, if_pos scalar]
  rfl

theorem joined_same (h : x.kind = y.kind) {digits : Nat} :
    Value.joined digits (.scalar x) (.scalar y) = some (.scalar x, .scalar y) := by
  cases x <;> cases y <;> first | rfl | cases h

/-- Promotion is widening to the join of the kinds. -/
theorem joined_eq (digits : Nat) (x y : Scalar) :
    Value.joined digits (.scalar x) (.scalar y) =
      (promote digits x y).toOption.map fun p => (.scalar p.first, .scalar p.second) := by
  obtain ⟨k, join, scalar, real⟩ := exists_join x y
  rw [joined_of_join join scalar]
  cases k with
  | integer => cases x <;> cases y <;> first | rfl | cases join
  | rational => cases x <;> cases y <;> first | rfl | cases join
  | float =>
    obtain ⟨hx, hy⟩ := real (by decide)
    rw [Value.widen_float hx, Value.widen_float hy, promote_float join]
    cases x.toFloat digits <;> cases y.toFloat digits <;> rfl
  | complex =>
    rw [Value.widen_complex, Value.widen_complex, promote_complex join]
    cases x.toComplex digits <;> cases y.toComplex digits <;> rfl
  | matrix | list | time | symbolic => cases scalar

end Scalar

/-! ## 2. The table -/

namespace Signature

theorem tryConversion_pair (digits : Nat) (a b : Operand) (c : Conversion) :
    tryConversion digits [a, b] c =
      if c.source.contains a.kind && c.source.contains b.kind then
        (convert digits a.value c.target).toOption.bind fun v =>
          (convert digits b.value c.target).toOption.map fun w => [⟨v, a.unit⟩, ⟨w, b.unit⟩]
      else none := by
  unfold tryConversion
  simp only [List.all_cons, List.all_nil, Bool.and_true]
  congr 1
  cases ha : convert digits a.value c.target <;> cases hb : convert digits b.value c.target <;>
    simp [List.mapM_cons, ha, hb] <;> rfl

/-- Two operands have one of some kinds in common. -/
theorem any_pairs (ks : List Kind) (a b : Operand) :
    (pairs ks).any (fits [a, b]) = decide (a.kind ∈ ks ∧ b.kind = a.kind) := by
  have fits (k : Kind) : fits [a, b] [.of k, .of k] = decide (k = a.kind ∧ b.kind = a.kind) := by
    show (true && (decide (a.kind = k) && (decide (b.kind = k) && true))) = _
    by_cases hk : a.kind = k
    · simp [hk]
    · simp [hk, Ne.symm hk]
  rw [pairs, List.any_map]
  by_cases same : b.kind = a.kind
  · simp only [Function.comp_def, fits, same, and_true]
    rw [Bool.eq_iff_iff]
    simp
  · simp [Function.comp_def, fits, same]

theorem convert_float {x : Scalar} (h : x.kind ≠ .complex) (digits : Nat) :
    convert digits (.scalar x) .float = (x.toFloat digits).map Value.float := by
  rw [← Value.widen_float h]
  cases x with
  | integer | rational | float => rfl
  | complex => exact absurd rfl h

theorem convert_complex (x : Scalar) (digits : Nat) :
    convert digits (.scalar x) .complex = (x.toComplex digits).map Value.complex := by
  rw [← Value.widen_complex]
  cases x <;> rfl

/-- What promotions start from has two scalar kinds if it has their join. -/
theorem contains_join {x y : Scalar} {k : Kind} (join : x.kind.join y.kind = some k)
    {ks : KindSet} (hks : ks ∈ [KindSet.exact, .real, .scalar]) :
    (ks.contains x.kind && ks.contains y.kind) = ks.contains k := by
  simp only [List.mem_cons, List.not_mem_nil, or_false] at hks
  rcases hks with rfl | rfl | rfl <;> cases x <;> cases y <;> cases join <;> rfl

/-- The first promotion that works for two scalars of different kinds is the one to their join. -/
theorem findSome_promotions (digits : Nat) {x y : Scalar} (differ : x.kind ≠ y.kind)
    (u v : UnitProduct) :
    promotions.findSome? (tryConversion digits [⟨.scalar x, u⟩, ⟨.scalar y, v⟩]) =
      (Value.joined digits (.scalar x) (.scalar y)).map fun p => [⟨p.1, u⟩, ⟨p.2, v⟩] := by
  obtain ⟨k, join, scalar, real⟩ := Scalar.exists_join x y
  rw [Scalar.joined_of_join join scalar]
  simp only [promotions, List.findSome?_cons, List.findSome?_nil, tryConversion_pair, Operand.kind,
    Value.kind]
  rw [contains_join join (by simp), contains_join join (by simp), contains_join join (by simp)]
  cases k with
  | integer => cases x <;> cases y <;> first | exact absurd rfl differ | cases join
  | rational => cases x <;> cases y <;> first | rfl | exact absurd rfl differ | cases join
  | float =>
    obtain ⟨hx, hy⟩ := real (by decide)
    rw [convert_float hx, convert_float hy, convert_complex, convert_complex,
      Scalar.toComplex_real hx, Scalar.toComplex_real hy, Value.widen_float hx,
      Value.widen_float hy]
    -- Where a float cannot be made, neither can a complex number.
    cases x.toFloat digits <;> cases y.toFloat digits <;> rfl
  | complex =>
    rw [convert_complex, convert_complex, Value.widen_complex, Value.widen_complex]
    cases x.toComplex digits <;> cases y.toComplex digits <;> rfl
  | matrix | list | time | symbolic => cases scalar

/-! ## 3. Resolving two operands -/

/-- The operands that are found, or the refusal of those that are given. -/
def orRefused (op : String) (given : List Operand) :
    Option (List Operand) → Except Error (List Operand)
  | some found => .ok found
  | none => .error (.typeMismatch op (Operand.kindsText given))

/-- The operands that resolving finds. -/
def resolved (s : Signature) (digits : Nat) (os : List Operand) : Option (List Operand) :=
  if s.accepted.any (fits os) then some os
  else if s.limited.all fun limited => os.all fun o => limited.contains o.kind then
    s.conversions.findSome? (tryConversion digits os)
  else none

theorem resolve_eq (s : Signature) (op : String) (digits : Nat) (os : List Operand) :
    s.resolve op digits os = orRefused op os (s.resolved digits os) := by
  unfold resolve resolved
  by_cases fit : s.accepted.any (fits os) = true
  · rw [if_pos fit, if_pos fit]
    rfl
  · rw [if_neg fit, if_neg fit]
    rfl

theorem toOption_resolve_eq (s : Signature) (op : String) (digits : Nat) (os : List Operand) :
    (s.resolve op digits os).toOption = s.resolved digits os := by
  rw [resolve_eq]
  cases s.resolved digits os <;> rfl

/-- A signature that takes two scalars of one kind and promotes others. -/
structure Promotes (s : Signature) : Prop where
  accepts : ∀ (x y : Scalar) (u v : UnitProduct),
    s.accepted.any (fits [⟨.scalar x, u⟩, ⟨.scalar y, v⟩]) = decide (y.kind = x.kind)
  unlimited : s.limited = none
  conversions : s.conversions = promotions

theorem Promotes.resolved {s : Signature} (h : s.Promotes) (digits : Nat) (x y : Scalar)
    (u v : UnitProduct) : s.resolved digits [⟨.scalar x, u⟩, ⟨.scalar y, v⟩] =
      (Value.joined digits (.scalar x) (.scalar y)).map fun p => [⟨p.1, u⟩, ⟨p.2, v⟩] := by
  unfold Signature.resolved
  rw [h.accepts, h.unlimited, h.conversions]
  by_cases same : y.kind = x.kind
  · rw [if_pos (decide_eq_true same), Scalar.joined_same same.symm]
    rfl
  · rw [if_neg (by simpa using same), Option.all_none, if_pos rfl]
    exact findSome_promotions digits (Ne.symm same) u v

/-- The signature of two scalars, and those of arithmetic that take matrices and times as well. -/
theorem promotes_of_mem {s : Signature} (hs : s ∈ [binaryScalar, Catalogue.additive,
    Catalogue.multiplicative, Catalogue.divisible]) : s.Promotes := by
  simp only [List.mem_cons, List.not_mem_nil, or_false] at hs
  rcases hs with rfl | rfl | rfl | rfl
  all_goals exact ⟨fun x y _ _ => by cases x <;> cases y <;> rfl, rfl, rfl⟩

/-- Only scalars are promoted. -/
theorem promoted_scalar {c : Conversion} (hc : c ∈ promotions) {k : Kind}
    (hk : c.source.contains k = true) : k.isScalar = true := by
  simp only [promotions, List.mem_cons, List.not_mem_nil, or_false] at hc
  rcases hc with rfl | rfl | rfl <;> cases k <;> first | rfl | cases hk

/-- Without two scalars there is nothing to promote. -/
theorem resolved_without_scalars {digits : Nat} {a b : Operand}
    (h : (a.kind.isScalar && b.kind.isScalar) = false) :
    binaryScalar.resolved digits [a, b] = none := by
  have misfit : binaryScalar.accepted.any (fits [a, b]) = false := by
    rw [binaryScalar, any_pairs, decide_eq_false_iff_not]
    rintro ⟨hk, same⟩
    rw [same] at h
    generalize a.kind = k at h hk
    cases k <;> simp_all [Kind.isScalar, Kind.scalarRank]
  have blocked : ∀ c ∈ promotions,
      (c.source.contains a.kind && c.source.contains b.kind) = false := by
    intro c hc
    rw [Bool.eq_false_iff, ne_eq, Bool.and_eq_true]
    intro both
    rw [promoted_scalar hc both.1, promoted_scalar hc both.2] at h
    cases h
  unfold resolved
  rw [if_neg (by simp [misfit])]
  refine (if_pos rfl).trans (List.findSome?_eq_none_iff.mpr fun c hc => ?_)
  rw [tryConversion_pair, blocked c hc]
  rfl

/-- Whether two operands are both ordered scalars. -/
def areReal (a b : Operand) : Bool := KindSet.real.contains a.kind && KindSet.real.contains b.kind

theorem resolved_binaryReal (digits : Nat) (a b : Operand) :
    binaryReal.resolved digits [a, b] =
      if areReal a b then binaryScalar.resolved digits [a, b] else none := by
  have accepts : binaryReal.accepted.any (fits [a, b]) =
      (areReal a b && binaryScalar.accepted.any (fits [a, b])) := by
    rw [binaryReal, binaryScalar, any_pairs, any_pairs, areReal]
    generalize a.kind = j
    generalize b.kind = k
    cases j <;> cases k <;> rfl
  have limited :
      (binaryReal.limited.all fun limited => [a, b].all fun o => limited.contains o.kind) =
        areReal a b := by
    show (_ && (_ && true)) = _
    rw [Bool.and_true]
    rfl
  unfold resolved
  rw [accepts, limited]
  cases areReal a b <;> rfl

end Signature

namespace Value

/-- The integer that an exact value is. -/
def whole? : Value → Option Int
  | integer n => some n
  | rational q => if q.den = 1 then some q.num else none
  | _ => none

theorem toOption_convert_integer {v : Value} (h : v.kind.isExact) (digits : Nat) :
    (Signature.convert digits v .integer).toOption = v.whole?.map .integer := by
  cases v with
  | scalar x =>
    cases x with
    | integer n => rfl
    | rational q =>
      have found : whole? (scalar (.rational q)) = if q.den = 1 then some q.num else none := rfl
      by_cases whole : q.den = 1
      · have narrowed : (scalar (.rational q)).narrow? .integer = some (integer q.num) := by
          show Option.map scalar (if q.den = 1 then some (.integer q.num) else none) = _
          rw [if_pos whole]
          rfl
        rw [found, if_pos whole]
        unfold Signature.convert
        rw [narrowed]
        rfl
      · rw [found, if_neg whole]
        exact congrArg Except.toOption (Exact.convert_fraction whole digits)
    | float | complex => cases h
  | matrix | list | time | symbolic => cases h

theorem whole_eq_none {v : Value} (h : v.kind.isExact = false) : v.whole? = none := by
  cases v with
  | scalar x =>
    cases x with
    | integer | rational => cases h
    | float | complex => rfl
  | matrix | list | time | symbolic => rfl

end Value

namespace Signature

theorem resolved_binaryInteger (digits : Nat) (a b : Operand) :
    binaryInteger.resolved digits [a, b] =
      a.value.whole?.bind fun m =>
        b.value.whole?.map fun n => [⟨.integer m, a.unit⟩, ⟨.integer n, b.unit⟩] := by
  have accepts : binaryInteger.accepted.any (fits [a, b]) =
      decide (a.kind = .integer ∧ b.kind = .integer) := by
    rw [binaryInteger, any_pairs]
    generalize a.kind = j
    generalize b.kind = k
    cases j <;> cases k <;> rfl
  unfold resolved
  rw [accepts]
  by_cases integers : a.kind = .integer ∧ b.kind = .integer
  · obtain ⟨m, hm⟩ := Value.integer_of_kind integers.1
    obtain ⟨n, hn⟩ := Value.integer_of_kind integers.2
    rw [if_pos (decide_eq_true integers), hm, hn]
    obtain ⟨v, u⟩ := a
    obtain ⟨w, t⟩ := b
    cases hm
    cases hn
    rfl
  · rw [if_neg (by simpa using integers)]
    show (if (a.kind.isExact && (b.kind.isExact && true)) = true then
      [⟨KindSet.exact, Kind.integer⟩].findSome? (tryConversion digits [a, b]) else none) = _
    rw [Bool.and_true, List.findSome?_singleton, tryConversion_pair]
    cases ha : a.kind.isExact with
    | false =>
      rw [Value.whole_eq_none ha]
      rfl
    | true =>
      cases hb : b.kind.isExact with
      | false =>
        rw [Value.whole_eq_none hb]
        cases a.value.whole? <;> rfl
      | true =>
        have source : (KindSet.exact.contains a.kind && KindSet.exact.contains b.kind) = true := by
          show (a.kind.isExact && b.kind.isExact) = true
          rw [ha, hb]
          rfl
        rw [Bool.and_self, if_pos rfl, if_pos source, Value.toOption_convert_integer ha,
          Value.toOption_convert_integer hb]
        cases a.value.whole? <;> cases b.value.whole? <;> rfl

end Signature

/-! ## 4. Arithmetic -/

/-- Two operands with their values promoted. -/
def Operand.promoted (op : String) (digits : Nat) (a b : Operand) : Option (List Operand) :=
  (Value.promotePair op digits a.value b.value).toOption.map fun p =>
    [⟨.scalar p.first, a.unit⟩, ⟨.scalar p.second, b.unit⟩]

theorem Operand.promoted_scalars (op : String) (digits : Nat) (x y : Scalar) (u v : UnitProduct) :
    promoted op digits ⟨.scalar x, u⟩ ⟨.scalar y, v⟩ =
      (Value.joined digits (.scalar x) (.scalar y)).map fun p => [⟨p.1, u⟩, ⟨p.2, v⟩] := by
  rw [Scalar.joined_eq, Option.map_map]
  rfl

/-- Values are promoted if both are scalars. -/
theorem Value.toOption_promotePair {v w : Value} (h : (v.kind.isScalar && w.kind.isScalar) = false)
    (op : String) (digits : Nat) : (promotePair op digits v w).toOption = none := by
  cases v with
  | scalar x =>
    cases w with
    | scalar y => cases x <;> cases y <;> cases h
    | matrix | list | time | symbolic => rfl
  | matrix | list | time | symbolic => rfl

theorem Signature.resolved_binaryScalar (op : String) (digits : Nat) (a b : Operand) :
    binaryScalar.resolved digits [a, b] = a.promoted op digits b := by
  cases scalars : a.kind.isScalar && b.kind.isScalar with
  | true =>
    obtain ⟨ha, hb⟩ := Bool.and_eq_true_iff.mp scalars
    obtain ⟨v, u⟩ := a
    obtain ⟨w, t⟩ := b
    obtain ⟨x, rfl⟩ := Value.scalar_of_kind ha
    obtain ⟨y, rfl⟩ := Value.scalar_of_kind hb
    rw [(promotes_of_mem (by simp)).resolved, Operand.promoted_scalars]
  | false =>
    rw [resolved_without_scalars scalars, Operand.promoted, Value.toOption_promotePair scalars]
    rfl

theorem toOption_bind_ok {α β : Type} (r : Except Error α) (g : α → β) :
    (r >>= fun a => .ok (g a)).toOption = r.toOption.map g := by
  cases r <;> rfl

/-- The four operations of arithmetic. -/
inductive FieldOp where
  | add | sub | mul | div

namespace FieldOp

def operation : FieldOp → Operation
  | add => Catalogue.add
  | sub => Catalogue.sub
  | mul => Catalogue.mul
  | div => Catalogue.div

def signature : FieldOp → Signature
  | add | sub => Catalogue.additive
  | mul => Catalogue.multiplicative
  | div => Catalogue.divisible

/-- What is computed once the operands are resolved. -/
def transform : FieldOp → Settings → Operand → Operand → Except Error Operand
  | add => Operand.add
  | sub => Operand.sub
  | mul => Operand.mul
  | div => Operand.div

/-- The function of two values, of whatever scalar kinds they are. -/
def value : FieldOp → Nat → Value → Value → Except Error Value
  | add => Value.add
  | sub => Value.sub
  | mul => Value.mul
  | div => Value.div

def unit : FieldOp → UnitProduct → UnitProduct → Except Error UnitProduct
  | add | sub => UnitProduct.requireSame
  | mul => UnitProduct.mul
  | div => UnitProduct.div

variable (f : FieldOp)

theorem promotes : f.signature.Promotes :=
  Signature.promotes_of_mem (by cases f <;> simp [signature])

/-- Scalars are computed with, and the units apart from them. -/
theorem toOption_transform (settings : Settings) (x y : Scalar) (u v : UnitProduct) :
    (f.transform settings ⟨.scalar x, u⟩ ⟨.scalar y, v⟩).toOption =
      (f.unit u v).toOption.bind fun unit =>
        (f.value settings.style.precision (.scalar x) (.scalar y)).toOption.map (⟨·, unit⟩) := by
  cases f
  all_goals
    refine toOption_bind.trans (congrArg _ (funext fun unit => ?_))
    exact toOption_bind_ok _ fun value => (⟨value, unit⟩ : Operand)

/-- Promotion leaves a promoted pair as it is. -/
theorem onScalars_promoted {op : String} {digits : Nat} {g : ScalarPair → Except Error Scalar}
    {f : Scalar → Scalar → Except Error Scalar}
    (hf : ∀ x y, f x y = Scalar.promote digits x y >>= g) (x y : Scalar) :
    (Value.onScalars op f (.scalar x) (.scalar y)).toOption =
      (Value.joined digits (.scalar x) (.scalar y)).bind fun p =>
        (Value.onScalars op f p.1 p.2).toOption := by
  have again : ∀ p : ScalarPair, Scalar.promote digits p.first p.second = .ok p := fun p => by
    cases p <;> rfl
  rw [Scalar.joined_eq]
  show ((f x y).map Value.scalar).toOption = _
  rw [hf]
  cases Scalar.promote digits x y with
  | error e => rfl
  | ok p =>
    show ((g p).map Value.scalar).toOption = ((f p.first p.second).map Value.scalar).toOption
    rw [hf, again]
    rfl

/-- Scalars that are promoted before are not changed by the promotion inside of a function. -/
theorem value_promoted (digits : Nat) (x y : Scalar) :
    (f.value digits (.scalar x) (.scalar y)).toOption =
      (Value.joined digits (.scalar x) (.scalar y)).bind fun p =>
        (f.value digits p.1 p.2).toOption := by
  cases f <;> exact onScalars_promoted (fun _ _ => rfl) x y

theorem toOption_apply (settings : Settings) (x y : Scalar) (u v : UnitProduct) :
    (f.signature.apply f.operation.name (Calc.ofPair f.operation.name f.transform) settings
      [⟨.scalar x, u⟩, ⟨.scalar y, v⟩]).toOption =
    (f.unit u v).toOption.bind fun unit =>
      (f.value settings.style.precision (.scalar x) (.scalar y)).toOption.map (⟨·, unit⟩) := by
  have scalars : ∀ o ∈ [(⟨.scalar x, u⟩ : Operand), ⟨.scalar y, v⟩], o.kind.isScalar := by
    simp only [List.forall_mem_cons]
    exact ⟨Exact.kind_isScalar x, Exact.kind_isScalar y, List.forall_mem_nil _⟩
  rw [Exact.apply_scalars scalars, toOption_bind, Signature.toOption_resolve_eq,
    f.promotes.resolved, f.value_promoted, Scalar.joined_eq]
  cases Scalar.promote settings.style.precision x y with
  | error e => cases f.unit u v <;> rfl
  | ok p => exact f.toOption_transform settings p.first p.second u v

end FieldOp

/-- Two operands of any kinds with any units are resolved as the lattice promotes them: for scalar
functions always, for real ones if both are real, and for integer ones if both are whole. Otherwise
they are refused. So arithmetic on two scalars is that of the lattice on them as they are. -/
theorem Signature.resolve_promoted (op : String) (digits : Nat) (a b : Operand) :
    binaryScalar.resolve op digits [a, b] = orRefused op [a, b] (a.promoted op digits b) ∧
    binaryReal.resolve op digits [a, b] =
      orRefused op [a, b] (if areReal a b then a.promoted op digits b else none) ∧
    binaryInteger.resolve op digits [a, b] =
      orRefused op [a, b] (a.value.whole?.bind fun m =>
        b.value.whole?.map fun n => [⟨.integer m, a.unit⟩, ⟨.integer n, b.unit⟩]) ∧
    ∀ (f : FieldOp) (settings : Settings) (x y : Scalar) (u v : UnitProduct),
      f.operation.action =
        .primitive (Calc.binary f.operation.name f.signature f.transform) ∧
      (f.signature.apply f.operation.name (Calc.ofPair f.operation.name f.transform) settings
        [⟨.scalar x, u⟩, ⟨.scalar y, v⟩]).toOption =
      (f.unit u v).toOption.bind fun unit =>
        (f.value settings.style.precision (.scalar x) (.scalar y)).toOption.map (⟨·, unit⟩) := by
  refine ⟨?_, ?_, ?_, fun f settings x y u v => ⟨?_, f.toOption_apply settings x y u v⟩⟩
  · rw [resolve_eq, resolved_binaryScalar op]
  · rw [resolve_eq, resolved_binaryReal, resolved_binaryScalar op]
  · rw [resolve_eq, resolved_binaryInteger]
  · cases f <;> rfl

end StackCalc
