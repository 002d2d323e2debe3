import Mathlib.Data.List.TakeWhile
import StackCalc.Proofs.Execution

/-! # Joins of kinds

Kinds are joined from left to right, and a join is the least kind that both sides widen to, so what
comes out is the widest kind whatever their order is.

Not all kinds have a join, and the fold gives up at the first pair without one. It does so also
where an expression follows, which every kind would widen to: only what stands before the first
expression has to have a common kind. -/

namespace StackCalc

/-! ## 1. Joins of kinds -/

namespace Kind

theorem mem_all (k : Kind) : k ∈ all := by
  cases k <;> decide

instance decidableForall {P : Kind → Prop} [DecidablePred P] : Decidable (∀ k, P k) :=
  decidable_of_iff (∀ k ∈ all, P k) ⟨fun h k => h k (mem_all k), fun h k _ => h k⟩

/-- A kind widens to another if that is what both are brought to. These are the kinds that values
are widened to, as `Value.widen_isOk_iff` says. -/
def WidensTo (j k : Kind) : Prop := j.join k = some k

instance (j k : Kind) : Decidable (j.WidensTo k) := inferInstanceAs (Decidable (_ = _))

theorem widensTo_refl (k : Kind) : k.WidensTo k := if_pos rfl

theorem widensTo_symbolic : ∀ k : Kind, k.WidensTo .symbolic := by
  decide

theorem WidensTo.antisymm : ∀ {j k : Kind}, j.WidensTo k → k.WidensTo j → j = k := by
  decide +kernel

theorem isExact_of_widensTo : ∀ {k : Kind}, k.WidensTo .rational → k.isExact := by
  decide

theorem join_symbolic : ∀ {a b j : Kind}, a.join b = some j →
    a = .symbolic ∨ b = .symbolic → j = .symbolic := by
  decide +kernel

/-- A join is one of the two kinds. -/
theorem join_choice : ∀ {a b j : Kind}, a.join b = some j → j = a ∨ j = b := by
  decide +kernel

/-- A join is the least kind that both kinds widen to. -/
theorem join_widensTo_iff : ∀ {a b j : Kind}, a.join b = some j →
    ∀ k, j.WidensTo k ↔ a.WidensTo k ∧ b.WidensTo k := by
  decide +kernel

/-- Kinds without a join widen to nothing but expressions, and neither is one. -/
theorem join_eq_none : ∀ {a b : Kind}, a.join b = none →
    a ≠ .symbolic ∧ b ≠ .symbolic ∧ ∀ k, a.WidensTo k → b.WidensTo k → k = .symbolic := by
  decide +kernel

end Kind

/-! ## 2. The widest kind -/

namespace Kind

/-- One of some kinds that all of them widen to. -/
def Widest (ks : List Kind) (k : Kind) : Prop := k ∈ ks ∧ ∀ j ∈ ks, j.WidensTo k

/-- A kind that some kinds widen to. All kinds widen to expressions, and these count only if one
stands among the kinds. -/
def Common (ks : List Kind) (k : Kind) : Prop :=
  (∀ j ∈ ks, j.WidensTo k) ∧ (k = .symbolic → .symbolic ∈ ks)

/-- What stands before the first expression. -/
def leading (ks : List Kind) : List Kind := ks.takeWhile (· ≠ .symbolic)

variable {ks : List Kind} {a b j k : Kind}

theorem Widest.common (h : Widest ks k) : Common ks k := ⟨h.2, fun symbolic => symbolic ▸ h.1⟩

theorem Widest.unique (hj : Widest ks j) (hk : Widest ks k) : j = k :=
  (hk.2 j hj.1).antisymm (hj.2 k hk.1)

theorem Widest.perm {ls : List Kind} (h : Widest ks k) (perm : ks.Perm ls) : Widest ls k :=
  ⟨perm.mem_iff.mp h.1, fun j hj => h.2 j (perm.mem_iff.mpr hj)⟩

theorem Common.perm {ls : List Kind} (h : Common ks k) (perm : ks.Perm ls) : Common ls k :=
  ⟨fun j hj => h.1 j (perm.mem_iff.mpr hj), fun symbolic => perm.mem_iff.mp (h.2 symbolic)⟩

theorem ne_of_mem_leading (h : k ∈ leading ks) : decide (k ≠ .symbolic) := by
  simpa using List.mem_takeWhile_imp (p := (decide <| · ≠ Kind.symbolic)) h

theorem not_mem_leading : .symbolic ∉ leading ks := fun mem => by
  simpa using ne_of_mem_leading mem

theorem leading_subset : leading ks ⊆ ks := (List.takeWhile_sublist _).subset

/-- Two kinds widen to whatever their join widens to, also as the first two of more. -/
theorem widensTo_cons_iff (join : a.join b = some j) :
    (∀ i ∈ j :: ks, i.WidensTo k) ↔ ∀ i ∈ a :: b :: ks, i.WidensTo k := by
  simp only [List.forall_mem_cons, join_widensTo_iff join k, and_assoc]

/-- The first two kinds may be joined without a change to the widest one. -/
theorem widest_join_iff (join : a.join b = some j) :
    Widest (j :: ks) k ↔ Widest (a :: b :: ks) k := by
  unfold Widest
  rw [widensTo_cons_iff join]
  refine and_congr_left fun widens => ?_
  have least : j.WidensTo k := (join_widensTo_iff join k).mpr
    ⟨widens a (by simp), widens b (by simp)⟩
  obtain ⟨left, right⟩ := (join_widensTo_iff join j).mp (widensTo_refl j)
  constructor
  · intro mem
    rcases List.mem_cons.mp mem with rfl | mem
    · rcases join_choice join with rfl | rfl <;> simp
    · exact List.mem_cons_of_mem _ (List.mem_cons_of_mem _ mem)
  · intro mem
    rcases List.mem_cons.mp mem with rfl | mem
    · exact left.antisymm least ▸ List.mem_cons_self
    rcases List.mem_cons.mp mem with rfl | mem
    · exact right.antisymm least ▸ List.mem_cons_self
    · exact List.mem_cons_of_mem _ mem

/-- Kinds before the first expression have a common kind if they widen to one that is not that of
expressions. -/
theorem exists_common_leading_iff : (∃ k, Common (leading ks) k) ↔
    ∃ k, k ≠ .symbolic ∧ ∀ j ∈ leading ks, j.WidensTo k := by
  refine exists_congr fun k => ?_
  rw [Common, and_comm]
  exact and_congr_left fun _ => ⟨fun h hk => not_mem_leading (h hk), fun h hk => absurd hk h⟩

/-- The first two kinds may be joined without a change to whether those before the first expression
have a common kind. -/
theorem exists_common_join_iff (join : a.join b = some j) :
    (∃ k, Common (leading (j :: ks)) k) ↔ ∃ k, Common (leading (a :: b :: ks)) k := by
  rw [exists_common_leading_iff, exists_common_leading_iff]
  by_cases ha : a = .symbolic
  · have hj : j = .symbolic := join_symbolic join (.inl ha)
    simp [leading, ha, hj]
  by_cases hb : b = .symbolic
  · have hj : j = .symbolic := join_symbolic join (.inr hb)
    have none : ∃ k, k ≠ Kind.symbolic := ⟨a, ha⟩
    have one : ∃ k, k ≠ .symbolic ∧ a.WidensTo k := ⟨a, ha, widensTo_refl a⟩
    simpa [leading, ha, hb, hj] using iff_of_true none one
  have hj : j ≠ .symbolic := by
    rcases join_choice join with rfl | rfl <;> assumption
  have joined : leading (j :: ks) = j :: leading ks := by simp [leading, hj]
  have both : leading (a :: b :: ks) = a :: b :: leading ks := by simp [leading, ha, hb]
  rw [joined, both]
  simp only [widensTo_cons_iff join]

/-- Kinds of which the first two have no join have no common one either. -/
theorem not_common_of_join (join : a.join b = none) :
    ¬ ∃ k, Common (leading (a :: b :: ks)) k := by
  obtain ⟨ha, hb, only⟩ := join_eq_none join
  rw [exists_common_leading_iff]
  rintro ⟨k, hk, widens⟩
  have both : leading (a :: b :: ks) = a :: b :: leading ks := by simp [leading, ha, hb]
  rw [both] at widens
  exact hk (only k (widens a (by simp)) (widens b (by simp)))

end Kind

/-! ## 3. Kinds of values -/

namespace Value

variable {vs : List Value} {k : Kind}

/-- The kinds of some values are joined to the widest one, if those before the first expression have
a common kind. -/
theorem elementKind_eq_ok_iff {first : Kind} : elementKind first vs = .ok k ↔
    Kind.Widest (first :: vs.map kind) k ∧
      ∃ j, Kind.Common (Kind.leading (first :: vs.map kind)) j := by
  induction vs generalizing first with
  | nil =>
    have common : ∃ j, Kind.Common (Kind.leading [first]) j := by
      rw [Kind.exists_common_leading_iff]
      by_cases symbolic : first = .symbolic
      · exact ⟨.integer, by decide, by simp [Kind.leading, symbolic]⟩
      · exact ⟨first, symbolic, by simp [Kind.leading, symbolic, Kind.widensTo_refl]⟩
    have widest : Kind.Widest [first] k ↔ first = k := by
      refine ⟨fun h => (List.mem_singleton.mp h.1).symm, ?_⟩
      rintro rfl
      exact ⟨List.mem_cons_self, List.forall_mem_singleton.mpr (Kind.widensTo_refl _)⟩
    rw [List.map_nil, widest, and_iff_left common]
    exact ⟨Except.ok.inj, congrArg Except.ok⟩
  | cons v vs ih =>
    rw [elementKind, List.foldlM_cons, List.map_cons]
    cases join : first.join v.kind with
    | none =>
      refine iff_of_false nofun fun h => Kind.not_common_of_join join h.2
    | some j =>
      rw [← Kind.widest_join_iff join, ← Kind.exists_common_join_iff join, ← ih]
      rfl

/-- Kinds are joined if those before the first expression have a common kind. -/
theorem exists_elementKind {first : Kind}
    (common : ∃ j, Kind.Common (Kind.leading (first :: vs.map kind)) j) :
    ∃ k, elementKind first vs = .ok k := by
  induction vs generalizing first with
  | nil => exact ⟨first, rfl⟩
  | cons v vs ih =>
    rw [elementKind, List.foldlM_cons]
    cases join : first.join v.kind with
    | none => exact absurd common (Kind.not_common_of_join join)
    | some j => exact ih ((Kind.exists_common_join_iff join).mpr common)

end Value
end StackCalc
