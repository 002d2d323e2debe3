import StackCalc.Proofs.Broadcast
import StackCalc.Proofs.Survival

/-! # Common kinds

A list is made from values of several kinds by widening all of them to the widest one, whatever
their order is. Only fractions that are beyond the range of floats cannot be widened. Whether a list
is made does depend on the order where the values before the first expression have no common
kind. -/

namespace StackCalc

/-! ## 1. Fractions as floats -/

namespace ExtDyadic

/-- A number that is not too small for a float is not zero. -/
theorem inRange_ne_zero {negative : Bool} {m : Nat} {e : Int} (nonzero : m ≠ 0)
    (top : -maxExponent ≤ (m.log2 : Int) + 1 + e) : inRange negative m e ≠ finite 0 := by
  rw [inRange]
  split
  · intro infinite
    cases infinite
  rw [if_neg (Int.not_lt.mpr top)]
  intro zero
  have value := congrArg Dyadic.toRat (finite.inj zero)
  have power : (2 : Rat) ^ e ≠ 0 := by positivity
  rw [toRat_scaled] at value
  cases negative <;> simp [nonzero, power] at value

/-- No integer is too small for a float. -/
theorem ofInt_ne_zero {w : Nat} {n : Int} (hw : 0 < w) (hn : n ≠ 0) : ofInt w n ≠ finite 0 := by
  have pos : 0 < n.natAbs := Int.natAbs_pos.mpr hn
  obtain ⟨m, rounded, low, _, near⟩ := nearest_bits (decide (n < 0)) 0 hw pos one_pos
  have nonzero : m ≠ 0 := by
    have share : (2 : Rat) ^ (-w : Int) < 1 := zpow_lt_one_of_neg₀ one_lt_two (by omega)
    have := near.pos (by positivity) share
    exact_mod_cast this.ne'
  have place : 0 ≤ Rounding.floorLog2 n.natAbs 1 := by
    have high := (Rounding.floorLog2_spec pos one_pos).2
    have one : (1 : Rat) ≤ (n.natAbs : Rat) / (1 : Nat) := by
      rw [Nat.cast_one, div_one]
      exact_mod_cast pos
    have := (one_lt_zpow_iff_right₀ (one_lt_two (α := Rat))).mp (one.trans_lt high)
    omega
  rw [ofInt, nearestInt, rounded]
  exact inRange_ne_zero nonzero (by unfold maxExponent; omega)

/-- A quotient by a number that is not zero fails only for two infinities. -/
theorem div_isSome_iff {w : Nat} {x y : ExtDyadic} (hy : y ≠ finite 0) :
    (div w x y).isSome ↔ x.isFinite ∨ y.isFinite := by
  cases x with
  | infinite s => cases y <;> simp [div, isFinite]
  | finite x =>
    cases y with
    | infinite t => simp [div, isFinite]
    | finite y =>
      have nonzero : numerator y ≠ 0 := by
        cases y with
        | zero => exact absurd rfl hy
        | ofOdd n k odd =>
          rintro rfl
          cases odd
      simp [div, isFinite, nonzero]

end ExtDyadic

namespace MPFloat

/-- A fraction has a float unless both its parts are beyond the range of floats. -/
theorem ofRat_isOk_iff {digits : Nat} {q : Rat} : (ofRat q digits).isOk ↔
    (ofInt q.num digits).isFinite ∨ (ofInt q.den digits).isFinite := by
  have den : (ofInt q.den digits).value ≠ .finite 0 :=
    ExtDyadic.ofInt_ne_zero (width_pos digits) (by exact_mod_cast q.den_nz)
  have divides : (ofInt q.den digits).isZero = false := by
    simpa [isZero, ExtDyadic.isZero] using den
  have quotient : ofRat q digits = checked (max digits digits)
      (ExtDyadic.div (width (max digits digits)) (ofInt q.num digits).value
        (ofInt q.den digits).value) := by
    rw [ofRat, div, divides]
    rfl
  rw [quotient, isFinite, isFinite, ← ExtDyadic.div_isSome_iff den]
  cases ExtDyadic.div _ _ _ <;> simp [checked, Except.isOk, Except.toBool]

end MPFloat

namespace Value

/-- A fraction both of whose parts are beyond the range of floats. -/
def OutOfRange (digits : Nat) (v : Value) : Prop :=
  ∃ q, v = rational q ∧ (MPFloat.ofInt q.num digits).isFinite = false ∧
    (MPFloat.ofInt q.den digits).isFinite = false

theorem outOfRange_rational {digits : Nat} {q : Rat} : (rational q).OutOfRange digits ↔
    (MPFloat.ofInt q.num digits).isFinite = false ∧
      (MPFloat.ofInt q.den digits).isFinite = false := by
  simp [OutOfRange, rational]

theorem isOk_iff_exists {α : Type} {x : Except Error α} : x.isOk ↔ ∃ a, x = .ok a := by
  cases x <;> simp [Except.isOk, Except.toBool]

theorem isOk_map {α β : Type} (f : α → β) (x : Except Error α) : (x.map f).isOk = x.isOk := by
  cases x <;> rfl

/-- A value is widened to the kinds that its kind widens to, except for fractions that have no
float. -/
theorem widen_isOk_iff {digits : Nat} {v : Value} {k : Kind} : (v.widen digits k).isOk ↔
    v.kind.WidensTo k ∧ (k = .float ∨ k = .complex → ¬ v.OutOfRange digits) := by
  by_cases inexact : v.kind = .rational ∧ (k = .float ∨ k = .complex)
  · obtain ⟨fraction, inexact⟩ := inexact
    obtain ⟨q, rfl⟩ : ∃ q, v = rational q := by
      cases v with
      | scalar x =>
        cases x with
        | rational q => exact ⟨q, rfl⟩
        | integer | float | complex => cases fraction
      | matrix | list | time | symbolic => cases fraction
    have run : ((rational q).widen digits k).isOk = (MPFloat.ofRat q digits).isOk := by
      rcases inexact with rfl | rfl <;> exact isOk_map _ _
    have widens : Kind.rational.WidensTo k := by
      rcases inexact with rfl | rfl <;> decide
    rw [run, MPFloat.ofRat_isOk_iff, outOfRange_rational, not_and_or]
    simp [fraction, widens, inexact]
  · have run : (v.widen digits k).isOk = decide (v.kind.WidensTo k) := by
      cases v with
      | scalar x =>
        cases x with
        | rational q => cases k <;> first | rfl | exact absurd ⟨rfl, by decide⟩ inexact
        | integer | float | complex => cases k <;> rfl
      | matrix | list | time | symbolic => cases k <;> rfl
    rw [run, decide_eq_true_iff]
    refine (and_iff_left ?_).symm
    rintro target ⟨q, rfl, -⟩
    exact inexact ⟨rfl, target⟩

end Value

/-! ## 2. Lists of the widest kind -/

namespace Value

variable {digits : Nat} {v : Value} {vs ws : List Value} {k : Kind}

/-- What widening a value to the element kind of a list takes. -/
theorem asElement_isOk_iff : (asElement digits k v).isOk ↔
    v.kind.WidensTo k ∧ (k = .float ∨ k = .complex → ¬ v.OutOfRange digits) := by
  unfold asElement
  split
  · rename_i kept
    obtain ⟨rfl, integer⟩ := kept
    exact iff_of_true rfl ⟨integer ▸ by decide, nofun⟩
  · exact widen_isOk_iff

/-- A value as an element of a list, or itself if it cannot be one. -/
def element (digits : Nat) (k : Kind) (v : Value) : Value :=
  (asElement digits k v).toOption.getD v

theorem asElement_eq (h : (asElement digits k v).isOk) :
    asElement digits k v = .ok (element digits k v) := by
  obtain ⟨w, run⟩ := isOk_iff_exists.mp h
  rw [element, run]
  rfl

theorem mapM_asElement (h : ∀ x ∈ vs, (asElement digits k x).isOk) :
    vs.mapM (asElement digits k) = .ok (vs.map (element digits k)) :=
  (mapM_congr fun x hx => asElement_eq (h x hx)).trans List.mapM_pure

/-- A list is made exactly if the values before the first expression have a common kind, and if no
fraction is out of range in a list of floats or complex numbers. All values are then brought to the
widest kind. -/
theorem ofItems_cons_eq_ok_iff {w : Value} : ofItems digits (v :: vs) = .ok w ↔
    ∃ k, Kind.Widest ((v :: vs).map kind) k ∧
      (∃ j, Kind.Common (Kind.leading ((v :: vs).map kind)) j) ∧
      (k = .float ∨ k = .complex → ∀ x ∈ v :: vs, ¬ x.OutOfRange digits) ∧
      w = list k ((v :: vs).map (element digits k)) := by
  constructor
  · intro h
    obtain ⟨k, hk, h⟩ := bind_eq_ok.mp h
    obtain ⟨items, hitems, h⟩ := bind_eq_ok.mp h
    cases h
    obtain ⟨widest, common⟩ := elementKind_eq_ok_iff.mp hk
    have each (x : Value) (hx : x ∈ v :: vs) : (asElement digits k x).isOk := by
      obtain ⟨y, _, run⟩ := (mapM_eq_ok hitems).2 x hx
      exact congrArg Except.isOk run
    refine ⟨k, widest, common, fun inexact x hx => ?_, ?_⟩
    · exact (asElement_isOk_iff.mp (each x hx)).2 inexact
    cases hitems.symm.trans (mapM_asElement each)
    rfl
  · rintro ⟨k, widest, common, range, rfl⟩
    have each (x : Value) (hx : x ∈ v :: vs) : (asElement digits k x).isOk :=
      asElement_isOk_iff.mpr
        ⟨widest.2 _ (List.mem_map_of_mem hx), fun inexact => range inexact x hx⟩
    exact bind_eq_ok.mpr ⟨k, elementKind_eq_ok_iff.mpr ⟨widest, common⟩,
      bind_eq_ok.mpr ⟨_, mapM_asElement each, rfl⟩⟩

/-- Some values among which the widest kind is one of floats or complex numbers, and a fraction is
out of their range. -/
def Overflows (digits : Nat) (vs : List Value) : Prop :=
  ∃ k, Kind.Widest (vs.map kind) k ∧ (k = .float ∨ k = .complex) ∧ ∃ v ∈ vs, v.OutOfRange digits

/-- A list is made exactly if the values before the first expression have a common kind and no
fraction overflows. -/
theorem ofItems_isOk_iff : (ofItems digits vs).isOk ↔
    (∃ j, Kind.Common (Kind.leading (vs.map kind)) j) ∧ ¬ Overflows digits vs := by
  cases vs with
  | nil =>
    refine iff_of_true rfl ⟨⟨.integer, nofun, nofun⟩, ?_⟩
    rintro ⟨k, widest, _⟩
    cases widest.1
  | cons v vs =>
    constructor
    · intro h
      obtain ⟨w, run⟩ := isOk_iff_exists.mp h
      obtain ⟨k, widest, common, range, -⟩ := ofItems_cons_eq_ok_iff.mp run
      refine ⟨common, ?_⟩
      rintro ⟨j, other, inexact, x, hx, out⟩
      cases widest.unique other
      exact range inexact x hx out
    · rintro ⟨common, range⟩
      obtain ⟨k, hk⟩ := exists_elementKind common
      obtain ⟨widest, _⟩ := elementKind_eq_ok_iff.mp hk
      have run := ofItems_cons_eq_ok_iff.mpr ⟨k, widest, common,
        fun inexact x hx out => range ⟨k, widest, inexact, x, hx, out⟩, rfl⟩
      exact congrArg Except.isOk run

/-! ## 3. The order of the values -/

/-- Values without an expression, or of which those that are none have a common kind. -/
def Steady (vs : List Value) : Prop :=
  .symbolic ∉ vs.map kind ∨ ∃ k, Kind.Common ((vs.map kind).filter (· ≠ .symbolic)) k

theorem Overflows.perm (h : Overflows digits vs) (perm : vs.Perm ws) : Overflows digits ws := by
  obtain ⟨k, widest, inexact, v, hv, out⟩ := h
  exact ⟨k, widest.perm (perm.map kind), inexact, v, perm.mem_iff.mp hv, out⟩

theorem Steady.perm (h : Steady vs) (perm : vs.Perm ws) : Steady ws := by
  have kinds := perm.map kind
  exact h.imp (fun none mem => none (kinds.mem_iff.mpr mem))
    fun ⟨k, common⟩ => ⟨k, common.perm (kinds.filter _)⟩

/-- For steady values it does not matter where the first expression stands. -/
theorem Steady.common_iff (h : Steady vs) :
    (∃ k, Kind.Common (Kind.leading (vs.map kind)) k) ↔ ∃ k, Kind.Common (vs.map kind) k := by
  by_cases symbolic : .symbolic ∈ vs.map kind
  · obtain ⟨k, widens, expression⟩ := h.resolve_left fun none => none symbolic
    have other : k ≠ .symbolic := fun hk => by simpa using List.of_mem_filter (expression hk)
    have before : ∃ k, Kind.Common (Kind.leading (vs.map kind)) k := by
      refine Kind.exists_common_leading_iff.mpr ⟨k, other, fun j hj => widens j ?_⟩
      exact List.mem_filter.mpr ⟨Kind.leading_subset hj, Kind.ne_of_mem_leading hj⟩
    exact iff_of_true before ⟨.symbolic, fun j _ => Kind.widensTo_symbolic j, fun _ => symbolic⟩
  · have all : Kind.leading (vs.map kind) = vs.map kind := by
      refine List.takeWhile_eq_self_iff.mpr fun k hk => ?_
      simpa using fun expression : k = .symbolic => symbolic (expression ▸ hk)
    rw [all]

/-- Two orders of some values give lists of one kind. -/
theorem ofItems_eq_of_perm {w : Value} (perm : vs.Perm ws) (hv : ofItems digits vs = .ok v)
    (hw : ofItems digits ws = .ok w) :
    ∃ k element, v = list k (vs.map element) ∧ w = list k (ws.map element) := by
  cases vs with
  | nil =>
    cases List.nil_perm.mp perm
    cases hv
    cases hw
    exact ⟨.integer, id, rfl, rfl⟩
  | cons x xs =>
    cases ws with
    | nil => cases List.perm_nil.mp perm
    | cons y ys =>
      obtain ⟨k, widest, _, _, rfl⟩ := ofItems_cons_eq_ok_iff.mp hv
      obtain ⟨j, other, _, _, rfl⟩ := ofItems_cons_eq_ok_iff.mp hw
      cases (widest.perm (perm.map kind)).unique other
      exact ⟨k, element digits k, rfl, rfl⟩

/-- The order of some values does not matter for the list that is made from them: if a list is made
for two orders, both lists have one kind, and every value becomes the same element. A list is made
if the values before the first expression have a common kind, unless a fraction has no float. For
steady values that is whether all of them have a common kind, whatever their order is. -/
theorem ofItems_perm (digits : Nat) {vs ws : List Value} (perm : vs.Perm ws) :
    ((ofItems digits vs).isOk → (ofItems digits ws).isOk → ∃ k element,
      ofItems digits vs = .ok (list k (vs.map element)) ∧
        ofItems digits ws = .ok (list k (ws.map element))) ∧
    ((ofItems digits vs).isOk ↔
      (∃ k, Kind.Common (Kind.leading (vs.map kind)) k) ∧ ¬ Overflows digits vs) ∧
    (Steady vs → ((ofItems digits vs).isOk ↔ (ofItems digits ws).isOk) ∧
      ((ofItems digits vs).isOk ↔ (∃ k, Kind.Common (vs.map kind) k) ∧ ¬ Overflows digits vs)) := by
  refine ⟨fun hv hw => ?_, ofItems_isOk_iff, fun steady => ?_⟩
  · obtain ⟨v, run⟩ := isOk_iff_exists.mp hv
    obtain ⟨w, other⟩ := isOk_iff_exists.mp hw
    obtain ⟨k, element, rfl, rfl⟩ := ofItems_eq_of_perm perm run other
    exact ⟨k, element, run, other⟩
  · have made : (ofItems digits vs).isOk ↔ _ :=
      ofItems_isOk_iff.trans (and_congr_left' steady.common_iff)
    have other : (ofItems digits ws).isOk ↔ _ :=
      ofItems_isOk_iff.trans (and_congr_left' (steady.perm perm).common_iff)
    have common : (∃ k, Kind.Common (vs.map kind) k) ↔ ∃ k, Kind.Common (ws.map kind) k :=
      exists_congr fun k => ⟨fun h => h.perm (perm.map kind), fun h => h.perm (perm.map kind).symm⟩
    have overflows : Overflows digits vs ↔ Overflows digits ws :=
      ⟨fun h => h.perm perm, fun h => h.perm perm.symm⟩
    exact ⟨by rw [made, other, common, overflows], made⟩

/-- An integer, a fraction and a variable. The numbers have a common kind, so any order will do. -/
def mixed : List Value := [integer 1, rational (1 / 2), var "X"]

theorem ofItems_perm_mixed : mixed.Perm mixed.reverse ∧ Steady mixed ∧
    ∃ k element, ofItems 10 mixed = .ok (list k (mixed.map element)) ∧
      ofItems 10 mixed.reverse = .ok (list k (mixed.reverse.map element)) := by
  have perm : mixed.Perm mixed.reverse := (List.reverse_perm mixed).symm
  have steady : Steady mixed := .inr ⟨.rational, by decide, nofun⟩
  obtain ⟨same, made, any⟩ := ofItems_perm 10 perm
  have first : (ofItems 10 mixed).isOk := rfl
  exact ⟨perm, steady, same first ((any steady).1.mp first)⟩

/-! ## 4. Where the order matters -/

/-- An integer, a list and a variable. The first two have no common kind. -/
def unsteady : List Value := [integer 1, list .integer [integer 2], var "X"]

/-- Expressions are a common kind of them all, and the other way round a list is made, but not as
they stand. -/
theorem ofItems_order : unsteady.Perm unsteady.reverse ∧
    Kind.Common (unsteady.map kind) .symbolic ∧
    ofItems 10 unsteady = .error (Scalar.mismatch "list" .integer .list) ∧
    ¬ ((ofItems 10 unsteady).isOk ↔ (ofItems 10 unsteady.reverse).isOk) :=
  ⟨(List.reverse_perm unsteady).symm, ⟨by decide, by decide⟩, rfl, by decide⟩

end Value
end StackCalc
