import StackCalc.MachineWord

/-!
Physical units as products of named base units with integer exponents. A unit is a table of
exponents in the order of the names, without zeros, and its type says so: units with the same
exponents are the same data. The operations keep the table in that form by `bump`, the one way to
change an exponent. Exponents are words of 32 bits, and an operation whose result has others
overflows.
-/

namespace StackCalc

/-- A table of exponents: names in strictly rising order, no exponent zero. -/
def IsUnitTable (dims : List (String × Int)) : Prop :=
  dims.Pairwise (fun a b => a.1 < b.1) ∧ ∀ d ∈ dims, d.2 ≠ 0

/-- A product of base units. -/
structure UnitProduct where
  dims : List (String × Int)
  table : IsUnitTable dims
  fits : ∀ d ∈ dims, Word.int32.inRange d.2
deriving DecidableEq

namespace UnitProduct

/-- Adds `k` to the exponent of a name in a table. -/
def bump (name : String) (k : Int) : List (String × Int) → List (String × Int)
  | [] => if k = 0 then [] else [(name, k)]
  | (n, e) :: r =>
    if name < n then if k = 0 then (n, e) :: r else (name, k) :: (n, e) :: r
    else if name = n then if e + k = 0 then r else (n, e + k) :: r
    else (n, e) :: bump name k r

/-- The names of a table after `bump` are among the old ones and the new one. -/
theorem mem_bump {name : String} {k : Int} {dims : List (String × Int)} {d : String × Int}
    (h : d ∈ bump name k dims) : d.1 = name ∨ ∃ c ∈ dims, c.1 = d.1 := by
  induction dims with
  | nil =>
    simp only [bump] at h
    split at h <;> simp_all
  | cons c r ih =>
    obtain ⟨n, e⟩ := c
    simp only [bump] at h
    split at h
    · split at h
      · exact .inr ⟨d, h, rfl⟩
      · rcases List.mem_cons.mp h with rfl | h
        · exact .inl rfl
        · exact .inr ⟨d, h, rfl⟩
    · split at h
      · split at h
        · exact .inr ⟨d, List.mem_cons_of_mem _ h, rfl⟩
        · rcases List.mem_cons.mp h with rfl | h
          · exact .inr ⟨(n, e), List.mem_cons_self, rfl⟩
          · exact .inr ⟨d, List.mem_cons_of_mem _ h, rfl⟩
      · rcases List.mem_cons.mp h with rfl | h
        · exact .inr ⟨_, List.mem_cons_self, rfl⟩
        · rcases ih h with h | ⟨c, hc, hcd⟩
          · exact .inl h
          · exact .inr ⟨c, List.mem_cons_of_mem _ hc, hcd⟩

theorem bump_table {name : String} {k : Int} {dims : List (String × Int)}
    (h : IsUnitTable dims) : IsUnitTable (bump name k dims) := by
  induction dims with
  | nil =>
    simp only [bump]
    split
    · exact ⟨.nil, by simp⟩
    · exact ⟨List.pairwise_singleton _ _, by simpa⟩
  | cons c r ih =>
    obtain ⟨n, e⟩ := c
    obtain ⟨hs, hz⟩ := h
    obtain ⟨hn, hr⟩ := List.pairwise_cons.mp hs
    have hzr : ∀ d ∈ r, d.2 ≠ 0 := fun d hd => hz d (List.mem_cons_of_mem _ hd)
    simp only [bump]
    split
    · rename_i hlt
      split
      · exact ⟨hs, hz⟩
      · rename_i hk
        refine ⟨List.pairwise_cons.mpr ⟨?_, hs⟩, ?_⟩
        · intro d hd
          rcases List.mem_cons.mp hd with rfl | hd
          · exact hlt
          · exact String.lt_trans hlt (hn d hd)
        · intro d hd
          rcases List.mem_cons.mp hd with rfl | hd
          · exact hk
          · exact hz d hd
    · rename_i hnlt
      split
      · split
        · exact ⟨hr, hzr⟩
        · rename_i hk
          refine ⟨List.pairwise_cons.mpr ⟨hn, hr⟩, ?_⟩
          intro d hd
          rcases List.mem_cons.mp hd with rfl | hd
          · exact hk
          · exact hzr d hd
      · rename_i hne
        obtain ⟨hbs, hbz⟩ := ih ⟨hr, hzr⟩
        refine ⟨List.pairwise_cons.mpr ⟨?_, hbs⟩, ?_⟩
        · intro d hd
          rcases mem_bump hd with hd | ⟨c, hc, hcd⟩
          · have hle : n ≤ name := String.not_lt.mp hnlt
            by_cases hlt : n < name
            · simpa [hd] using hlt
            · exact absurd (String.le_antisymm (String.not_lt.mp hlt) hle) hne
          · simpa [hcd] using hn c hc
        · intro d hd
          rcases List.mem_cons.mp hd with rfl | hd
          · exact hz _ List.mem_cons_self
          · exact hbz d hd

/-- The names keep their order when exponents are mapped to others that are not zero. -/
theorem map_table {dims : List (String × Int)} {f : Int → Int} (h : IsUnitTable dims)
    (hf : ∀ d ∈ dims, f d.2 ≠ 0) : IsUnitTable (dims.map fun d => (d.1, f d.2)) := by
  refine ⟨List.pairwise_map.mpr h.1, fun d hd => ?_⟩
  obtain ⟨c, hc, rfl⟩ := List.mem_map.mp hd
  exact hf c hc

/-- The unit with a table of exponents. -/
def ofTable (dims : List (String × Int)) (table : IsUnitTable dims) : Except Error UnitProduct :=
  if fits : ∀ d ∈ dims, Word.int32.inRange d.2 then .ok ⟨dims, table, fits⟩ else .error .overflow

def none : UnitProduct := ⟨[], ⟨.nil, by simp⟩, by simp⟩

def base (name : String) : UnitProduct :=
  ⟨[(name, 1)], ⟨List.pairwise_singleton _ _, by simp⟩, by simp; rfl⟩

def isDimensionless (u : UnitProduct) : Bool := u.dims.isEmpty

/-- The exponent of a base unit, zero if it does not occur. -/
def exponent (u : UnitProduct) (name : String) : Int :=
  ((u.dims.find? fun d => d.1 = name).map Prod.snd).getD 0

/-- The unit with `k` added to the exponent of a name. -/
def raise (u : UnitProduct) (name : String) (k : Int) : Except Error UnitProduct :=
  ofTable (bump name k u.dims) (bump_table u.table)

/-- The product of the listed base units. A name may occur more than once. -/
def ofDims (dims : List (String × Int)) : Except Error UnitProduct :=
  dims.foldlM (fun u d => u.raise d.1 d.2) none

def mul (u v : UnitProduct) : Except Error UnitProduct :=
  v.dims.foldlM (fun u d => u.raise d.1 d.2) u

def inv (u : UnitProduct) : Except Error UnitProduct :=
  ofTable (u.dims.map fun d => (d.1, -d.2)) <|
    map_table (f := fun e => -e) u.table fun d hd h => u.table.2 d hd (Int.neg_eq_zero.mp h)

def div (u v : UnitProduct) : Except Error UnitProduct := do u.mul (← v.inv)

def pow (u : UnitProduct) (n : Int) : Except Error UnitProduct :=
  if h : n = 0 then .ok none
  else
    ofTable (u.dims.map fun d => (d.1, d.2 * n)) <|
      map_table (f := fun e => e * n) u.table fun d hd hz =>
        (Int.mul_eq_zero.mp hz).elim (u.table.2 d hd) h

/-- The `n`-th root, which exists only if `n` divides every exponent. -/
def root? (u : UnitProduct) (n : Int) : Except Error (Option UnitProduct) :=
  if h : n ≠ 0 ∧ ∀ d ∈ u.dims, n ∣ d.2 then
    have rooted := map_table (f := fun e => e / n) u.table fun d hd hz => by
      obtain ⟨c, hc⟩ := h.2 d hd
      rw [hc, Int.mul_ediv_cancel_left c h.1] at hz
      exact u.table.2 d hd (by simp [hc, hz])
    (ofTable (u.dims.map fun d => (d.1, d.2 / n)) rooted).map some
  else .ok Option.none

def dimText (d : String × Int) : String :=
  if d.2 = 1 then d.1 else d.1 ++ "^" ++ Numeral.ofInt d.2

/-- The unit as text, its base units in order between asterisks. -/
def text (u : UnitProduct) : String :=
  "*".intercalate (u.dims.map dimText)

/-- Requires equal units, and gives the common one. -/
def requireSame (u v : UnitProduct) : Except Error UnitProduct :=
  if u = v then .ok u else .error (.unitsMismatch u.text v.text)

/-- Requires the dimensionless unit for an operation. -/
def requireNone (u : UnitProduct) (op : String) : Except Error Unit :=
  if u.isDimensionless then .ok () else .error (.unitsProhibited op)

end UnitProduct
end StackCalc
