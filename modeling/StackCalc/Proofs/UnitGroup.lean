import Mathlib.Algebra.Ring.Int.Defs
import StackCalc.Proofs.Execution

/-! # The group of units

A unit is known from the exponents of its base units. The operations on units are those on their
exponents, name by name, and they overflow exactly where a word does not hold one of these. So units
form a commutative group as far as their exponents are in range, and a unit has at most one root of
each degree. -/

namespace StackCalc

theorem IsUnitTable.tail {d : String × Int} {dims : List (String × Int)}
    (h : IsUnitTable (d :: dims)) : IsUnitTable dims :=
  ⟨h.1.of_cons, fun c hc => h.2 c (List.mem_cons_of_mem d hc)⟩

namespace UnitProduct

variable {dims : List (String × Int)} {d : String × Int} {name : String}

/-! ## 1. Tables -/

/-- The exponent that a table gives to a name. -/
def exponentIn (name : String) (dims : List (String × Int)) : Int :=
  ((dims.find? fun d => d.1 = name).map Prod.snd).getD 0

@[simp] theorem exponentIn_nil (name : String) : exponentIn name [] = 0 := rfl

theorem exponentIn_cons (name : String) (d : String × Int) (dims : List (String × Int)) :
    exponentIn name (d :: dims) = if d.1 = name then d.2 else exponentIn name dims := by
  unfold exponentIn
  rw [List.find?_cons]
  by_cases same : d.1 = name <;> simp [same]

theorem exponentIn_eq_zero (h : ∀ d ∈ dims, d.1 ≠ name) : exponentIn name dims = 0 := by
  induction dims with
  | nil => rfl
  | cons d dims ih =>
    obtain ⟨hd, hdims⟩ := List.forall_mem_cons.mp h
    rw [exponentIn_cons, if_neg hd, ih hdims]

/-- The names behind the first one of a table are other names. -/
theorem exponentIn_tail (h : IsUnitTable (d :: dims)) : exponentIn d.1 dims = 0 :=
  exponentIn_eq_zero fun _ hc same =>
    String.lt_irrefl d.1 (same ▸ (List.pairwise_cons.mp h.1).1 _ hc)

/-- A name is in a table exactly with its exponent. -/
theorem mem_table_iff (h : IsUnitTable dims) : d ∈ dims ↔ d.2 ≠ 0 ∧ exponentIn d.1 dims = d.2 := by
  induction dims with
  | nil => simpa using fun nonzero zero => nonzero zero.symm
  | cons c dims ih =>
    rw [List.mem_cons, ih h.tail, exponentIn_cons]
    have tail := exponentIn_tail h
    have nonzero := h.2 c List.mem_cons_self
    constructor
    · rintro (rfl | ⟨hd, found⟩)
      · exact ⟨nonzero, if_pos rfl⟩
      · refine ⟨hd, (if_neg fun same => ?_).trans found⟩
        rw [← same, tail] at found
        exact hd found.symm
    · rintro ⟨hd, found⟩
      by_cases same : c.1 = d.1
      · rw [if_pos same] at found
        exact .inl (Prod.ext same.symm found.symm)
      · rw [if_neg same] at found
        exact .inr ⟨hd, found⟩

/-- Adding to the exponent of a name adds to what is found under it, and leaves the others. -/
theorem exponentIn_bump (h : IsUnitTable dims) (name other : String) (k : Int) :
    exponentIn other (bump name k dims) =
      exponentIn other dims + if name = other then k else 0 := by
  induction dims with
  | nil =>
    unfold bump
    split
    · simp_all
    · rw [exponentIn_cons]
      simp
  | cons d dims ih =>
    obtain ⟨first, e⟩ := d
    have tail : exponentIn first dims = 0 := exponentIn_tail h
    have below : name < first → exponentIn name ((first, e) :: dims) = 0 := fun before =>
      exponentIn_eq_zero fun c hc same => by
        rcases List.mem_cons.mp hc with rfl | hc
        · exact String.lt_irrefl name (same ▸ before)
        · exact String.lt_irrefl name
            (String.lt_trans before (same ▸ (List.pairwise_cons.mp h.1).1 c hc))
    unfold bump
    split
    · rename_i before
      split
      · simp_all
      · rw [exponentIn_cons]
        by_cases same : name = other
        · subst same
          simp [below before]
        · simp [same]
    · split
      · rename_i _ same
        subst same
        split
        · rename_i cancelled
          by_cases hit : name = other
          · subst hit
            simp [exponentIn_cons, tail, cancelled]
          · simp [exponentIn_cons, hit]
        · by_cases hit : name = other <;> simp [exponentIn_cons, hit]
      · rename_i _ different
        rw [exponentIn_cons, exponentIn_cons, ih h.tail]
        by_cases hit : first = other
        · subst hit
          simp [different]
        · simp [hit]

/-- Exponents are mapped one by one if a missing one stays missing. -/
theorem exponentIn_map {f : Int → Int} (zero : f 0 = 0) (name : String)
    (dims : List (String × Int)) :
    exponentIn name (dims.map fun d => (d.1, f d.2)) = f (exponentIn name dims) := by
  induction dims with
  | nil => exact zero.symm
  | cons d dims ih =>
    rw [List.map_cons, exponentIn_cons, exponentIn_cons, ih]
    exact (apply_ite f _ _ _).symm

/-! ## 2. Exponents -/

variable {u v : UnitProduct}

theorem exponent_injective : Function.Injective exponent := by
  intro u v same
  have members (d : String × Int) : d ∈ u.dims ↔ d ∈ v.dims := by
    have found : exponentIn d.1 u.dims = exponentIn d.1 v.dims := congrFun same d.1
    rw [mem_table_iff u.table, mem_table_iff v.table, found]
  have nodup (w : UnitProduct) : w.dims.Nodup := by
    refine w.table.1.imp fun {a b} before => ?_
    rintro rfl
    exact String.lt_irrefl _ before
  have perm := (List.perm_ext_iff_of_nodup (nodup u) (nodup v)).mpr members
  have sorted := perm.eq_of_pairwise (fun a b _ _ before after =>
    absurd (String.lt_trans before after) (String.lt_irrefl _)) u.table.1 v.table.1
  cases u
  cases v
  cases sorted
  rfl

/-- A unit is known from the exponents of its base units. -/
theorem eq_iff_exponent : u = v ↔ ∀ name, u.exponent name = v.exponent name :=
  ⟨fun same _ => same ▸ rfl, fun same => exponent_injective (funext same)⟩

@[simp] theorem exponent_none (name : String) : none.exponent name = 0 := rfl

theorem inRange_exponent (u : UnitProduct) (name : String) :
    Word.int32.inRange (u.exponent name) = true := by
  by_cases missing : u.exponent name = 0
  · rw [missing]
    rfl
  · exact u.fits (name, u.exponent name) ((mem_table_iff u.table).mpr ⟨missing, rfl⟩)

/-- What divides all that is stored divides every exponent. -/
theorem dvd_exponent_iff {n : Int} :
    (∀ d ∈ u.dims, n ∣ d.2) ↔ ∀ name, n ∣ u.exponent name := by
  constructor
  · intro h name
    by_cases missing : u.exponent name = 0
    · rw [missing]
      exact Int.dvd_zero n
    · exact h (name, u.exponent name) ((mem_table_iff u.table).mpr ⟨missing, rfl⟩)
  · intro h d hd
    have found : u.exponent d.1 = d.2 := ((mem_table_iff u.table).mp hd).2
    exact found ▸ h d.1

/-! ## 3. Operations -/

/-- The result of an operation is the unit with the given exponents, or an overflow because a word
does not hold one of them. -/
structure Gives (r : Except Error UnitProduct) (e : String → Int) : Prop where
  exponents : ∀ {w : UnitProduct}, r = .ok w → ∀ name, w.exponent name = e name
  overflow : ∀ {fault : Error}, r = .error fault →
    fault = .overflow ∧ ∃ name, Word.int32.inRange (e name) = false

namespace Gives

variable {r s : Except Error UnitProduct} {e f : String → Int} {w : UnitProduct}

theorem congr (h : Gives r e) (same : ∀ name, e name = f name) : Gives r f :=
  (funext same : e = f) ▸ h

theorem eq_ok_iff (h : Gives r e) : r = .ok w ↔ ∀ name, w.exponent name = e name := by
  refine ⟨h.exponents, fun same => ?_⟩
  cases r with
  | ok x => exact congrArg _ (eq_iff_exponent.mpr fun name =>
      (h.exponents rfl name).trans (same name).symm)
  | error fault =>
    obtain ⟨_, name, out⟩ := h.overflow rfl
    rw [← same, inRange_exponent] at out
    cases out

/-- Two results with the same exponents are one, and both overflow if one does. -/
theorem unique (h : Gives r e) (h' : Gives s e) : r = s := by
  cases r with
  | ok x => exact (h'.eq_ok_iff.mpr (h.exponents rfl)).symm
  | error fault =>
    cases s with
    | ok x => exact h.eq_ok_iff.mpr (h'.exponents rfl)
    | error fault' => rw [(h.overflow rfl).1, (h'.overflow rfl).1]

end Gives

theorem gives_ofTable (table : IsUnitTable dims) :
    Gives (ofTable dims table) fun name => exponentIn name dims := by
  unfold ofTable
  split
  · refine ⟨?_, nofun⟩
    rintro w ⟨⟩ name
    rfl
  · rename_i out
    obtain ⟨d, hd⟩ := Classical.not_forall.mp out
    obtain ⟨hd, out⟩ := Classical.not_imp.mp hd
    refine ⟨nofun, ?_⟩
    rintro fault ⟨⟩
    rw [← ((mem_table_iff table).mp hd).2, Bool.not_eq_true] at out
    exact ⟨rfl, d.1, out⟩

theorem gives_raise (u : UnitProduct) (name : String) (k : Int) :
    Gives (u.raise name k) fun other => u.exponent other + if name = other then k else 0 :=
  (gives_ofTable _).congr fun other => exponentIn_bump u.table name other k

/-- A table is multiplied by name after name. An exponent that is out of range on the way stays so,
since no name comes twice. -/
theorem gives_raiseAll (table : IsUnitTable dims) (u : UnitProduct) :
    Gives (dims.foldlM (fun u d => u.raise d.1 d.2) u) fun name =>
      u.exponent name + exponentIn name dims := by
  induction dims generalizing u with
  | nil => exact ⟨by rintro w ⟨⟩ name; exact (add_zero _).symm, nofun⟩
  | cons d dims ih =>
    have step := gives_raise u d.1 d.2
    have tail := exponentIn_tail table
    rw [List.foldlM_cons]
    cases raised : u.raise d.1 d.2 with
    | ok x =>
      refine (ih table.tail x).congr fun name => ?_
      rw [step.exponents raised name, exponentIn_cons]
      by_cases same : d.1 = name
      · subst same
        simp [tail]
      · simp [same]
    | error fault =>
      obtain ⟨rfl, name, out⟩ := step.overflow raised
      refine ⟨nofun, ?_⟩
      rintro fault ⟨⟩
      refine ⟨rfl, name, ?_⟩
      rw [exponentIn_cons]
      by_cases same : d.1 = name
      · rwa [if_pos same] at out ⊢
      · rw [if_neg same, add_zero, inRange_exponent] at out
        cases out

theorem gives_mul (u v : UnitProduct) :
    Gives (u.mul v) fun name => u.exponent name + v.exponent name :=
  gives_raiseAll v.table u

theorem gives_inv (u : UnitProduct) : Gives u.inv fun name => -u.exponent name :=
  (gives_ofTable _).congr fun name => exponentIn_map (f := fun e => -e) neg_zero name u.dims

theorem gives_pow (u : UnitProduct) (n : Int) :
    Gives (u.pow n) fun name => u.exponent name * n := by
  unfold pow
  split
  · rename_i zero
    refine ⟨?_, nofun⟩
    rintro w ⟨⟩ name
    rw [zero, mul_zero, exponent_none]
  · exact (gives_ofTable _).congr fun name =>
      exponentIn_map (f := fun e => e * n) (zero_mul n) name u.dims

/-- A quotient is a product with the inverse, if there is one. -/
theorem div_eq {x : UnitProduct} (h : v.inv = .ok x) : u.div v = u.mul x := by
  rw [div, h]
  rfl

/-- A unit is the product of what it stores. -/
theorem ofDims_dims (u : UnitProduct) : ofDims u.dims = .ok u :=
  (gives_raiseAll u.table none).eq_ok_iff.mpr fun _ => (zero_add _).symm

/-- Of a degree other than zero a unit has the one root that has it as its power, if there is
one. -/
theorem root?_eq_some_iff {n : Int} (hn : n ≠ 0) :
    u.root? n = .ok (some v) ↔ v.pow n = .ok u := by
  have power := gives_pow v n
  rw [power.eq_ok_iff]
  unfold root?
  split
  · rename_i divides
    have rooted := (gives_ofTable (map_table (f := fun e => e / n) u.table
      (fun d hd hz => u.table.2 d hd (Int.eq_zero_of_ediv_eq_zero (divides.2 d hd) hz)))).congr
      fun name => exponentIn_map (f := fun e => e / n) (Int.zero_ediv n) name u.dims
    have multiple := dvd_exponent_iff.mp divides.2
    constructor
    · intro h name
      obtain ⟨x, hx, hv⟩ := map_eq_ok.mp h
      cases hv
      rw [rooted.exponents hx name]
      exact (Int.ediv_mul_cancel (multiple name)).symm
    · intro h
      refine map_eq_ok.mpr ⟨v, rooted.eq_ok_iff.mpr fun name => ?_, rfl⟩
      show v.exponent name = u.exponent name / n
      rw [h name, Int.mul_ediv_cancel _ hn]
  · rename_i indivisible
    refine ⟨nofun, fun h => absurd ⟨hn, dvd_exponent_iff.mpr fun name => ?_⟩ indivisible⟩
    rw [h name]
    exact Int.dvd_mul_left _ n

theorem root?_eq_none_iff {n : Int} (hn : n ≠ 0) :
    u.root? n = .ok Option.none ↔ ∃ name, ¬ n ∣ u.exponent name := by
  rw [← not_forall, ← dvd_exponent_iff]
  unfold root?
  split
  · rename_i divides
    refine ⟨fun h => ?_, fun h => absurd divides.2 h⟩
    obtain ⟨x, _, hx⟩ := map_eq_ok.mp h
    cases hx
  · rename_i indivisible
    exact ⟨fun _ divides => indivisible ⟨hn, divides⟩, fun _ => rfl⟩

/-! ## 4. The group -/

/-- Units are the products of what they store and are known from their exponents. Each operation
gives the unit with the exponents that it has to have, if words hold them. As far as they do, units
form an abelian group with consistent powers and roots. -/
theorem group_laws (u v w : UnitProduct) (a b : Int) :
    (ofDims u.dims = .ok u ∧ (∀ d ∈ u.dims, d.2 ≠ 0) ∧
      (u = v ↔ ∀ name, u.exponent name = v.exponent name)) ∧
    (Gives (u.mul v) (fun name => u.exponent name + v.exponent name) ∧
      Gives u.inv (fun name => -u.exponent name) ∧
      Gives (u.pow a) fun name => u.exponent name * a) ∧
    ((∀ x y, u.mul v = .ok x → v.mul w = .ok y → x.mul w = u.mul y) ∧ u.mul v = v.mul u ∧
      u.mul none = .ok u ∧
      ∀ x, v.inv = .ok x → v.div v = .ok none ∧ u.div v = u.mul x ∧ x.inv = .ok v) ∧
    ((∀ x y, u.pow a = .ok x → u.pow b = .ok y → u.pow (a + b) = x.mul y) ∧
      (∀ x, u.pow a = .ok x → x.pow b = u.pow (a * b)) ∧
      ∀ x y z, u.mul v = .ok x → u.pow a = .ok y → v.pow a = .ok z → x.pow a = y.mul z) ∧
    (a ≠ 0 → (∀ r, u.root? a = .ok (some r) ↔ r.pow a = .ok u) ∧
      (u.root? a = .ok Option.none ↔ ∃ name, ¬ a ∣ u.exponent name)) := by
  refine ⟨⟨ofDims_dims u, u.table.2, eq_iff_exponent⟩,
    ⟨gives_mul u v, gives_inv u, gives_pow u a⟩, ⟨?_, ?_, ?_, ?_⟩, ⟨?_, ?_, ?_⟩,
    fun nonzero => ⟨fun r => root?_eq_some_iff nonzero, root?_eq_none_iff nonzero⟩⟩
  · intro x y hx hy
    refine (gives_mul x w).unique ((gives_mul u y).congr fun name => ?_)
    rw [(gives_mul u v).exponents hx, (gives_mul v w).exponents hy, add_assoc]
  · exact (gives_mul u v).unique ((gives_mul v u).congr fun name => add_comm _ _)
  · exact (gives_mul u none).eq_ok_iff.mpr fun name => (add_zero _).symm
  · intro x hx
    have inverse := (gives_inv v).exponents hx
    refine ⟨?_, div_eq hx, (gives_inv x).eq_ok_iff.mpr fun name => ?_⟩
    · rw [div_eq hx]
      refine (gives_mul v x).eq_ok_iff.mpr fun name => ?_
      rw [inverse, add_neg_cancel, exponent_none]
    · rw [inverse, neg_neg]
  · intro x y hx hy
    refine (gives_pow u (a + b)).unique ((gives_mul x y).congr fun name => ?_)
    rw [(gives_pow u a).exponents hx, (gives_pow u b).exponents hy, mul_add]
  · intro x hx
    refine (gives_pow x b).unique ((gives_pow u (a * b)).congr fun name => ?_)
    rw [(gives_pow u a).exponents hx, mul_assoc]
  · intro x y z hx hy hz
    refine (gives_pow x a).unique ((gives_mul y z).congr fun name => ?_)
    rw [(gives_mul u v).exponents hx, (gives_pow u a).exponents hy,
      (gives_pow v a).exponents hz, add_mul]

/-- The square of metres per second that lists the metre three times, and its root. -/
theorem group_laws_square :
    ∃ u v : UnitProduct, ofDims [("m", 3), ("s", -2), ("m", -2), ("m", 1)] = .ok u ∧
      ofDims [("m", 1), ("s", -1)] = .ok v ∧ (2 : Int) ≠ 0 ∧ u.root? 2 = .ok (some v) := by
  let u : UnitProduct := ⟨[("m", 2), ("s", -2)], ⟨by decide, by decide⟩, by decide⟩
  let v : UnitProduct := ⟨[("m", 1), ("s", -1)], ⟨by decide, by decide⟩, by decide⟩
  have root := ((group_laws u none none 2 0).2.2.2.2 (by decide)).1 v
  exact ⟨u, v, by decide +kernel, by decide +kernel, by decide, root.mpr (by decide +kernel)⟩

end UnitProduct
end StackCalc
