import StackCalc.Registry

/-! # Finding operations

Names lead to operations of the catalogue, and no operation hides another one from its own name. -/

namespace StackCalc.Registry

/-- What a name finds is one of the operations. -/
theorem mem_of_find {name : String} {op : Operation} (h : find? name = some op) :
    op ∈ operations := by
  obtain ⟨n, _, h⟩ := Option.bind_eq_some_iff.mp h
  exact List.mem_of_getElem? h

theorem mem_of_numeric {op : Operation} (h : op ∈ Catalogue.numeric) : op ∈ operations := by
  simp [operations, h]

theorem mem_of_integers {op : Operation} (h : op ∈ Catalogue.integers) : op ∈ operations := by
  simp [operations, h]

theorem mem_of_rearrangements {op : Operation} (h : op ∈ Catalogue.rearrangements) :
    op ∈ operations := by
  simp [operations, h]

theorem mem_of_references {op : Operation} (h : op ∈ Catalogue.references) : op ∈ operations := by
  simp [operations, h]

theorem mem_of_aggregates {op : Operation} (h : op ∈ Catalogue.aggregates) : op ∈ operations := by
  simp [operations, h]

theorem number_name : ∀ p ∈ operations.zipIdx, number? p.1.name = some p.2 := by
  decide +kernel

/-- Every operation is found by its own name. -/
theorem find_name {op : Operation} (h : op ∈ operations) : find? op.name = some op := by
  obtain ⟨n, hn, rfl⟩ := List.getElem_of_mem h
  have number := number_name (operations[n], n)
    (List.mk_mem_zipIdx_iff_getElem?.mpr (List.getElem?_eq_getElem hn))
  simp only [find?, number, Option.bind_some, List.getElem?_eq_getElem hn]

/-- An operation is only found by its name and its aliases. -/
theorem lower_of_find {name : String} {op : Operation} (h : find? name = some op) :
    ∃ known ∈ op.name :: op.aliases, Text.foldCase name = Text.foldCase known := by
  obtain ⟨n, hn, hop⟩ := Option.bind_eq_some_iff.mp h
  obtain ⟨l, r, hl, _⟩ := List.lookup_eq_some_iff.mp hn
  have listed : (Text.foldCase name, n) ∈ numbers := by simp [hl]
  obtain ⟨⟨op', n'⟩, hentry, hp⟩ := List.mem_flatMap.mp (List.mem_reverse.mp listed)
  obtain ⟨known, hknown, heq⟩ := List.mem_map.mp hp
  obtain ⟨hlower, rfl⟩ := Prod.mk.inj heq
  cases hop.symm.trans (List.mk_mem_zipIdx_iff_getElem?.mp hentry)
  exact ⟨known, hknown, hlower.symm⟩

/-- Undo has no other names. -/
theorem lower_of_undo {name : String} (h : find? name = some Catalogue.undo) :
    Text.foldCase name = "undo" := by
  obtain ⟨known, hknown, hlower⟩ := lower_of_find h
  cases List.mem_singleton.mp hknown
  rw [hlower]
  decide +kernel

/-- Whether an operation calls the name on top of the stack. -/
def calls (op : Operation) : Bool :=
  match op.action with
  | .call => true
  | _ => false

theorem lower_of_calls : ∀ op ∈ operations, calls op → ∀ known ∈ op.name :: op.aliases,
    Text.foldCase known ∈ ["execute", "exec", "call"] := by
  decide +kernel

/-- Calls by name have three names. -/
theorem lower_of_call {name : String} {op : Operation} (h : find? name = some op)
    (call : op.action = .call) : Text.foldCase name ∈ ["execute", "exec", "call"] := by
  obtain ⟨known, hknown, hlower⟩ := lower_of_find h
  rw [hlower]
  exact lower_of_calls op (mem_of_find h) (by rw [calls, call]) known hknown

end StackCalc.Registry
