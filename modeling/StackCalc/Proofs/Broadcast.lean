import StackCalc.Proofs.Aggregates

/-! # Lists element by element

An operation that is applied to lists gives what it gives for their elements, one index after the
other. The levels of nesting that are counted down are enough for any operands, so the elements of
lists in lists are treated as operands on their own are. The results are brought to one kind. -/

namespace StackCalc

/-! ## 1. Elements -/

/-- Computations that agree on all of some inputs. -/
theorem mapM_congr {α β : Type} {f g : α → Except Error β} {as : List α}
    (h : ∀ a ∈ as, f a = g a) : as.mapM f = as.mapM g := by
  induction as with
  | nil => rfl
  | cons a as ih =>
    obtain ⟨head, tail⟩ := List.forall_mem_cons.mp h
    rw [List.mapM_cons, List.mapM_cons, head, ih tail]

namespace Operand

/-- The operand at an index: an element of a list, with the unit of the list, or an operand that
is no list. -/
def element (i : Nat) (o : Operand) : Operand :=
  match o.value with
  | .list _ items => ⟨items[i]?.getD o.value, o.unit⟩
  | _ => o

/-- The lists among some operands have `n` elements each. -/
def Sized (n : Nat) (os : List Operand) : Prop := ∀ o ∈ os, ∀ k, o.listSize? = some k → k = n

instance (n : Nat) (os : List Operand) : Decidable (Sized n os) :=
  decidable_of_iff (∀ o ∈ os, o.listSize? = none ∨ o.listSize? = some n) (by
    refine forall₂_congr fun o _ => ?_
    cases o.listSize? with
    | none => simp
    | some k => simp)

variable {i n : Nat} {o : Operand} {os : List Operand}

theorem listSize_eq_some {k : Nat} : o.listSize? = some k ↔
    ∃ kind items, o.value = .list kind items ∧ items.length = k := by
  unfold listSize?
  split <;> simp_all

theorem listSize_eq_none : o.listSize? = none ↔ o.kind ≠ .list := by
  obtain ⟨v, unit⟩ := o
  unfold listSize? kind
  cases v with
  | scalar x => cases x <;> simp [Value.kind, Scalar.kind]
  | _ => simp [Value.kind]

theorem element_unit : (o.element i).unit = o.unit := by
  unfold element
  split <;> rfl

theorem element_of_ne (h : o.kind ≠ .list) : o.element i = o := by
  unfold element
  split
  · rename_i list
    exact absurd (by rw [kind, list]; rfl) h
  · rfl

theorem element_of_list {kind : Kind} {items : List Value} (h : o.value = .list kind items)
    (hi : i < items.length) : o.element i = ⟨items[i], o.unit⟩ := by
  unfold element
  split
  · rename_i list
    cases list.symm.trans h
    rw [List.getElem?_eq_getElem hi, Option.getD_some]
  · rename_i other
    exact absurd h (other kind items)

/-- Spread operands are read off index by index. -/
theorem spread_eq (h : ∀ k, o.listSize? = some k → k = n) :
    o.spread n = (List.range n).map fun i => o.element i := by
  unfold spread
  split
  · rename_i kind items list
    have size : items.length = n := h _ (listSize_eq_some.mpr ⟨kind, items, list, rfl⟩)
    refine List.ext_getElem (by simp [size]) fun i hi _ => ?_
    have inside : i < items.length := by simpa using hi
    simp [element_of_list list inside]
  · rename_i other
    have scalar : o.kind ≠ .list := by
      rw [← listSize_eq_none]
      cases hs : o.listSize? with
      | none => rfl
      | some k =>
        obtain ⟨kind, items, list, _⟩ := listSize_eq_some.mp hs
        exact absurd list (other kind items)
    simp [element_of_ne scalar, List.map_const']

end Operand

namespace Signature

open Operand

variable {s : Signature} {op : String} {digits n : Nat} {os : List Operand}
  {f g : List Operand → Except Error Operand}

/-- The rows of lists are the operands at one index each. -/
theorem rows_spread (sized : Sized n os) :
    rows n (os.map (spread n)) = (List.range n).map fun i => os.map (element i) := by
  induction os with
  | nil => simp [rows, List.map_const']
  | cons o os ih =>
    obtain ⟨head, tail⟩ := List.forall_mem_cons.mp sized
    show List.zipWith List.cons (o.spread n) (rows n (os.map (spread n))) = _
    rw [spread_eq head, ih tail, List.zipWith_map_left, List.zipWith_map_right, List.zipWith_self]
    simp

/-- Lists of one size have the results for the elements, in a list with the unit of the first. -/
theorem overElements_of_sized (list : ∃ o ∈ os, o.kind = .list) (sized : Sized n os) :
    overElements op digits f os = (do
      let results ← ((List.range n).map fun i => os.map (element i)).mapM f
      let list ← Value.ofItems digits (results.map Operand.value)
      return ⟨list, (results.head?.map Operand.unit).getD
        (((os.find? fun o => o.kind = .list).map Operand.unit).getD .none)⟩) := by
  have sizes : ∀ k ∈ os.filterMap listSize?, k = n := by
    intro k hk
    obtain ⟨o, ho, hs⟩ := List.mem_filterMap.mp hk
    exact sized o ho k hs
  unfold overElements
  split
  · rename_i none
    obtain ⟨o, ho, kind⟩ := list
    have size := List.filterMap_eq_nil_iff.mp none o ho
    exact absurd kind (listSize_eq_none.mp size)
  · rename_i k rest found
    rw [found] at sizes
    obtain ⟨rfl, same⟩ := List.forall_mem_cons.mp sizes
    have all : List.find? (fun m => decide (m ≠ k)) rest = none := by simpa using same
    rw [all, ← rows_spread sized]

theorem sized_of_same {k : Nat} {rest : List Nat} (found : os.filterMap listSize? = k :: rest)
    (same : ∀ m, ¬ rest.find? (fun m => decide (m ≠ k)) = some m) : Sized k os := by
  have all : ∀ m ∈ rest, m = k := by
    simpa using List.find?_eq_none.mp (Option.eq_none_iff_forall_not_mem.mpr same)
  intro o ho j hj
  have listed : j ∈ k :: rest := found ▸ List.mem_filterMap.mpr ⟨o, ho, hj⟩
  rcases List.mem_cons.mp listed with rfl | inRest
  · rfl
  · exact all j inRest

/-- Lists of different sizes have no result. -/
theorem sized_of_overElements {r : Operand} (h : overElements op digits f os = .ok r) :
    ∃ n, Sized n os := by
  unfold overElements at h
  split at h
  · cases h
  · rename_i k rest found
    dsimp only at h
    split at h
    · cases h
    · rename_i same
      exact ⟨k, sized_of_same found same⟩

/-- Functions that agree on the elements agree on the lists. -/
theorem overElements_congr
    (h : ∀ n, Sized n os → ∀ i < n, f (os.map (element i)) = g (os.map (element i))) :
    overElements op digits f os = overElements op digits g os := by
  unfold overElements
  split
  · rfl
  · rename_i k rest found
    dsimp only
    split
    · rfl
    · rename_i same
      have sized : Sized k os := sized_of_same found same
      have rows : (rows k (os.map (spread k))).mapM f = (rows k (os.map (spread k))).mapM g := by
        rw [rows_spread sized]
        refine mapM_congr fun row hrow => ?_
        obtain ⟨i, hi, rfl⟩ := List.mem_map.mp hrow
        exact h k sized i (List.mem_range.mp hi)
      rw [rows]

end Signature

/-! ## 2. Levels of nesting -/

namespace Value

theorem list_of_kind {v : Value} (h : v.kind = .list) : ∃ k items, v = .list k items := by
  cases v with
  | list k items => exact ⟨k, items, rfl⟩
  | scalar x => cases x <;> cases h
  | matrix | time | symbolic => cases h

theorem listDepth_le_all {v : Value} {vs : List Value} (h : v ∈ vs) :
    v.listDepth ≤ listDepthAll vs := by
  induction vs with
  | nil => cases h
  | cons w ws ih =>
    rw [listDepthAll]
    rcases List.mem_cons.mp h with rfl | h
    · omega
    · have := ih h
      omega

theorem listDepth_of_ne {v : Value} (h : v.kind ≠ .list) : v.listDepth = 0 := by
  cases v with
  | list k items => exact absurd rfl h
  | scalar | matrix | time | symbolic => rfl

end Value

namespace Operand

variable {i n d : Nat} {o : Operand}

/-- The elements of lists are nested less deep, and nothing else is nested at all. -/
theorem listDepth_element (h : o.value.listDepth ≤ d + 1)
    (sized : ∀ k, o.listSize? = some k → k = n) (hi : i < n) :
    (o.element i).value.listDepth ≤ d := by
  by_cases list : o.kind = .list
  · obtain ⟨kind, items, hv⟩ := Value.list_of_kind list
    have size : items.length = n := sized _ (listSize_eq_some.mpr ⟨kind, items, hv, rfl⟩)
    have inside : i < items.length := by omega
    have nested : items[i].listDepth ≤ Value.listDepthAll items :=
      Value.listDepth_le_all (List.getElem_mem inside)
    rw [element_of_list hv inside]
    rw [hv, Value.listDepth] at h
    dsimp only
    omega
  · rw [element_of_ne list, Value.listDepth_of_ne list]
    omega

end Operand

namespace Signature

open Operand

variable {s : Signature} {op : String} {f : Transform} {settings : Settings} {os : List Operand}

/-- What an operation does with operands: it is deferred, goes over the elements of lists, or is
computed. -/
theorem applyWithin_cases (s : Signature) (op : String) (f : Transform) (settings : Settings)
    (os : List Operand) :
    ((∃ o ∈ os, ¬ o.Concrete) ∧ ∀ depth, s.applyWithin op f settings depth os = defer op os) ∨
    ((∃ o ∈ os, o.kind = .list) ∧ ∀ depth, s.applyWithin op f settings (depth + 1) os =
      overElements op settings.style.precision (s.applyWithin op f settings depth) os) ∨
    ((s.broadcast = true → ∀ o ∈ os, o.kind ≠ .list) ∧
      ∀ depth, s.applyWithin op f settings depth os =
        s.resolve op settings.style.precision os >>= f settings) := by
  by_cases deferred : (s.deferred && os.any fun o => o.kind = .symbolic) = true
  · refine .inl ⟨?_, fun depth => ?_⟩
    · obtain ⟨_, symbolic⟩ := Bool.and_eq_true_iff.mp deferred
      obtain ⟨o, ho, hk⟩ := List.any_eq_true.mp symbolic
      exact ⟨o, ho, fun concrete => concrete (of_decide_eq_true hk)⟩
    · unfold applyWithin
      rw [if_pos deferred]
  · by_cases lists : (s.broadcast && os.any fun o => o.kind = .list) = true
    · refine .inr (.inl ⟨?_, fun depth => ?_⟩)
      · simpa using (Bool.and_eq_true_iff.mp lists).2
      · rw [applyWithin, if_neg deferred, if_pos lists]
    · refine .inr (.inr ⟨fun broadcast => ?_, fun depth => ?_⟩)
      · simpa [broadcast] using lists
      · unfold applyWithin
        rw [if_neg deferred, if_neg lists]

/-- The levels that are counted down are enough for all operands. -/
theorem listDepth_le_foldl (os : List Operand) (d : Nat) :
    d ≤ os.foldl (fun d o => max d o.value.listDepth) d ∧
      ∀ o ∈ os, o.value.listDepth ≤ os.foldl (fun d o => max d o.value.listDepth) d := by
  induction os generalizing d with
  | nil => simp
  | cons o os ih =>
    obtain ⟨started, later⟩ := ih (max d o.value.listDepth)
    rw [List.foldl_cons, List.forall_mem_cons]
    exact ⟨by omega, by omega, later⟩

/-- More levels than the operands have make no difference. -/
theorem applyWithin_more {d : Nat} : ∀ {depth : Nat} {os : List Operand},
    (∀ o ∈ os, o.value.listDepth ≤ d) → d ≤ depth →
      s.applyWithin op f settings depth os = s.applyWithin op f settings d os := by
  induction d with
  | zero =>
    intro depth os nested _
    rcases applyWithin_cases s op f settings os with ⟨_, h⟩ | ⟨⟨o, ho, list⟩, _⟩ | ⟨_, h⟩
    · rw [h, h]
    · obtain ⟨k, items, hv⟩ := Value.list_of_kind list
      have flat := nested o ho
      rw [hv, Value.listDepth] at flat
      omega
    · rw [h, h]
  | succ d ih =>
    intro depth os nested enough
    obtain ⟨depth, rfl⟩ : ∃ k, depth = k + 1 := ⟨depth - 1, by omega⟩
    rcases applyWithin_cases s op f settings os with ⟨_, h⟩ | ⟨_, h⟩ | ⟨_, h⟩
    · rw [h, h]
    · rw [h, h]
      refine overElements_congr fun n sized i hi => ih ?_ (by omega)
      intro e he
      obtain ⟨o, ho, rfl⟩ := List.mem_map.mp he
      exact listDepth_element (nested o ho) (sized o ho) hi
    · rw [h, h]

/-- Levels enough for the operands are as good as those that are counted. -/
theorem applyWithin_eq {d : Nat} (nested : ∀ o ∈ os, o.value.listDepth ≤ d) :
    s.applyWithin op f settings d os = s.apply op f settings os := by
  unfold apply
  let counted := os.foldl (fun d o => max d o.value.listDepth) 0
  have known : ∀ o ∈ os, o.value.listDepth ≤ counted := (listDepth_le_foldl os 0).2
  calc s.applyWithin op f settings d os
      = s.applyWithin op f settings (max d counted) os := (applyWithin_more nested (by omega)).symm
    _ = s.applyWithin op f settings counted os := applyWithin_more known (by omega)

/-- What an operation does with operands: it is deferred, goes over the elements of lists, or is
computed. -/
theorem apply_cases (s : Signature) (op : String) (f : Transform) (settings : Settings)
    (os : List Operand) :
    ((∃ o ∈ os, ¬ o.Concrete) ∧ s.apply op f settings os = defer op os) ∨
    ((∃ o ∈ os, o.kind = .list) ∧ s.apply op f settings os =
      overElements op settings.style.precision (s.apply op f settings) os) ∨
    ((s.broadcast = true → ∀ o ∈ os, o.kind ≠ .list) ∧ s.apply op f settings os =
      s.resolve op settings.style.precision os >>= f settings) := by
  rcases applyWithin_cases s op f settings os with ⟨symbolic, h⟩ | ⟨list, h⟩ | ⟨flat, h⟩
  · exact .inl ⟨symbolic, h _⟩
  · refine .inr (.inl ⟨list, ?_⟩)
    let d := os.foldl (fun d o => max d o.value.listDepth) 0
    have known : ∀ o ∈ os, o.value.listDepth ≤ d + 1 := fun o ho =>
      Nat.le_succ_of_le ((listDepth_le_foldl os 0).2 o ho)
    rw [← applyWithin_eq known, h]
    refine overElements_congr fun n sized i hi => applyWithin_eq ?_
    intro e he
    obtain ⟨o, ho, rfl⟩ := List.mem_map.mp he
    exact listDepth_element (known o ho) (sized o ho) hi
  · exact .inr (.inr ⟨flat, h _⟩)

/-! ## 3. Values -/

/-- Over lists, an operation is applied to the elements at each index. -/
theorem apply_lists (hb : s.broadcast = true) (list : ∃ o ∈ os, o.kind = .list)
    (concrete : ∀ o ∈ os, o.Concrete) : s.apply op f settings os =
      overElements op settings.style.precision (s.apply op f settings) os := by
  rcases apply_cases s op f settings os with ⟨⟨o, ho, symbolic⟩, _⟩ | ⟨_, h⟩ | ⟨flat, _⟩
  · exact absurd (concrete o ho) symbolic
  · exact h
  · obtain ⟨o, ho, hk⟩ := list
    exact absurd hk (flat hb o ho)

end Signature

theorem Value.integer_of_kind {v : Value} (h : v.kind = .integer) : ∃ n, v = .integer n := by
  cases v with
  | scalar x =>
    cases x with
    | integer n => exact ⟨n, rfl⟩
    | rational | float | complex => cases h
  | list | matrix | time | symbolic => cases h

/-- The items of a list are the given values, each as one of the kind of the list up to whether a
whole fraction is an integer. -/
theorem Value.ofItems_eq_ok {digits : Nat} {vs : List Value} {list : Value}
    (h : ofItems digits vs = .ok list) : ∃ k items, list = .list k items ∧
      List.Forall₂ (fun v item => ∃ w, v.widen digits k = .ok w ∧ w.reduce = item.reduce)
        vs items := by
  cases vs with
  | nil =>
    cases h
    exact ⟨.integer, [], rfl, .nil⟩
  | cons v vs =>
    obtain ⟨k, _, h⟩ := bind_eq_ok.mp h
    obtain ⟨items, hitems, h⟩ := bind_eq_ok.mp h
    cases h
    refine ⟨k, items, rfl, (StackCalc.mapM_eq_ok.mp hitems).imp fun v item hv => ?_⟩
    split at hv
    · rename_i whole
      obtain ⟨rfl, integer⟩ := whole
      cases hv
      obtain ⟨n, rfl⟩ := integer_of_kind integer
      exact ⟨.rational n, rfl, rfl⟩
    · exact ⟨item, hv, rfl⟩

namespace Signature

open Operand

variable {op : String} {digits : Nat} {os : List Operand} {r : Operand}
  {f : List Operand → Except Error Operand}

/-- A result over lists holds at each index what comes of the elements there, as one of its kind,
and has the unit of the first of these. -/
theorem overElements_eq_ok (list : ∃ o ∈ os, o.kind = .list)
    (h : overElements op digits f os = .ok r) : ∃ k items, r.value = .list k items ∧
      Sized items.length os ∧ ∀ i (hi : i < items.length), ∃ x w,
        f (os.map (element i)) = .ok x ∧ x.value.widen digits k = .ok w ∧
          w.reduce = items[i].reduce ∧ (i = 0 → x.unit = r.unit) := by
  obtain ⟨n, sized⟩ := sized_of_overElements h
  rw [overElements_of_sized list sized] at h
  obtain ⟨results, hresults, h⟩ := bind_eq_ok.mp h
  obtain ⟨list, hlist, h⟩ := bind_eq_ok.mp h
  cases h
  obtain ⟨k, items, rfl, widened⟩ := Value.ofItems_eq_ok hlist
  have computed := StackCalc.mapM_eq_ok.mp hresults
  have count : results.length = n := by simpa using computed.length_eq.symm
  have size : items.length = n := by simpa [count] using widened.length_eq.symm
  refine ⟨k, items, rfl, size ▸ sized, fun i hi => ?_⟩
  have inside : i < results.length := by omega
  have hx := computed.get (by simp; omega) inside
  obtain ⟨w, hw, reduced⟩ := widened.get (by simpa using inside) hi
  refine ⟨results[i], w, ?_, ?_, reduced, ?_⟩
  · simpa using hx
  · simpa using hw
  · rintro rfl
    cases results with
    | nil => cases inside
    | cons x xs => rfl

/-- If there is no result for the elements at an index, there is none for the lists. -/
theorem overElements_eq_error {n i : Nat} (sized : Sized n os) (list : ∃ o ∈ os, o.kind = .list)
    (hi : i < n) {e : Error} (he : f (os.map (element i)) = .error e) :
    ∃ e, overElements op digits f os = .error e := by
  have failed : ∃ e, ((List.range n).map fun i => os.map (element i)).mapM f = .error e :=
    mapM_eq_error.mpr ⟨_, List.mem_map.mpr ⟨i, List.mem_range.mpr hi, rfl⟩, e, he⟩
  obtain ⟨e, failed⟩ := failed
  refine ⟨e, ?_⟩
  rw [overElements_of_sized list sized, failed]
  rfl

end Signature
end StackCalc
