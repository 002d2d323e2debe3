import StackCalc.Session

/-! # Bindings in scopes

Which bindings the frames of some scopes hold, and that looking up, assigning and removing a name
neither invents nor moves any other binding. -/

namespace StackCalc

/-! ## 1. Frames -/

namespace Frame

/-- All bindings of a frame satisfy `p`. -/
def Each (p : String × Entry → Prop) (f : Frame) : Prop := ∀ b ∈ f.bindings, p b

/-- All entries of a frame satisfy `p`. -/
def All (p : Entry → Prop) (f : Frame) : Prop := ∀ b ∈ f.bindings, p b.2

instance {p : Entry → Prop} [DecidablePred p] (f : Frame) : Decidable (f.All p) :=
  inferInstanceAs (Decidable (∀ b ∈ f.bindings, p b.2))

variable {p : String × Entry → Prop} {f : Frame} {name : String} {e : Entry}

theorem Each.get (h : f.Each p) (he : f.get? name = some e) : p (name, e) := by
  obtain ⟨l, r, hl, _⟩ := List.lookup_eq_some_iff.mp he
  exact h (name, e) (by simp [hl])

theorem Each.erase (h : f.Each p) : (f.erase name).Each p := fun b hb =>
  h b (List.mem_filter.mp hb).1

theorem Each.bind (h : f.Each p) (he : p (name, e)) : (f.bind name e).Each p :=
  List.forall_mem_cons.mpr ⟨he, h.erase⟩

end Frame

/-! ## 2. Scopes -/

namespace Scopes

/-- The frames of some scopes, innermost first. -/
def frames (s : Scopes) : List Frame := s.locals ++ [s.globals]

/-- All bindings of some scopes satisfy `p`. -/
def Each (p : String × Entry → Prop) (s : Scopes) : Prop := ∀ f ∈ s.frames, f.Each p

section
variable {p : String × Entry → Prop} {s : Scopes} {name : String} {e : Entry}

theorem each_iff : s.Each p ↔ (∀ f ∈ s.locals, f.Each p) ∧ s.globals.Each p := by
  simp [Each, frames, or_imp, forall_and]

theorem Each.get (h : s.Each p) (he : s.get? name = some e) : p (name, e) := by
  obtain ⟨f, hf, he⟩ := List.exists_of_findSome?_eq_some he
  exact (h f hf).get he

/-- Only the changed frame is new. -/
theorem each_changeBinding {g : Frame → Frame} (hg : ∀ f, f.Each p → (g f).Each p)
    {fs gs : List Frame} (h : ∀ f ∈ fs, f.Each p) (hgs : changeBinding name g fs = some gs) :
    ∀ f ∈ gs, f.Each p := by
  induction fs generalizing gs with
  | nil => cases hgs
  | cons f fs ih =>
    obtain ⟨hf, hfs⟩ := List.forall_mem_cons.mp h
    unfold changeBinding at hgs
    split at hgs
    · cases hgs
      exact List.forall_mem_cons.mpr ⟨hg f hf, hfs⟩
    · obtain ⟨rest, hrest, rfl⟩ := Option.map_eq_some_iff.mp hgs
      exact List.forall_mem_cons.mpr ⟨hf, ih hfs hrest⟩

theorem Each.bindInnermost (h : s.Each p) (he : p (name, e)) : (s.bindInnermost name e).Each p := by
  obtain ⟨hl, hg⟩ := each_iff.mp h
  unfold Scopes.bindInnermost
  split
  · rename_i f fs hs
    rw [hs, List.forall_mem_cons] at hl
    exact each_iff.mpr ⟨List.forall_mem_cons.mpr ⟨hl.1.bind he, hl.2⟩, hg⟩
  · exact each_iff.mpr ⟨hl, hg.bind he⟩

theorem Each.set (h : s.Each p) (he : p (name, e)) : (s.set name e).Each p := by
  obtain ⟨hl, hg⟩ := each_iff.mp h
  unfold Scopes.set
  split
  · rename_i fs hfs
    exact each_iff.mpr ⟨each_changeBinding (fun f hf => hf.bind he) hl hfs, hg⟩
  · split
    · exact each_iff.mpr ⟨hl, hg.bind he⟩
    · exact h.bindInnermost he

theorem Each.unset (h : s.Each p) : (s.unset name).Each p := by
  obtain ⟨hl, hg⟩ := each_iff.mp h
  unfold Scopes.unset
  split
  · rename_i fs hfs
    exact each_iff.mpr ⟨each_changeBinding (fun f hf => hf.erase) hl hfs, hg⟩
  · exact each_iff.mpr ⟨hl, hg.erase⟩

theorem Each.enter (h : s.Each p) : s.enter.Each p := by
  obtain ⟨hl, hg⟩ := each_iff.mp h
  exact each_iff.mpr ⟨List.forall_mem_cons.mpr ⟨List.forall_mem_nil _, hl⟩, hg⟩

theorem Each.leave (h : s.Each p) : s.leave.Each p := by
  obtain ⟨hl, hg⟩ := each_iff.mp h
  unfold Scopes.leave exit?
  split
  · rename_i f fs hs
    rw [hs] at hl
    exact each_iff.mpr ⟨fun g hg => hl g (List.mem_cons_of_mem f hg), hg⟩
  · exact h

end

/-- All entries of some scopes satisfy `p`. -/
def All (p : Entry → Prop) (s : Scopes) : Prop := ∀ f ∈ s.frames, f.All p

instance {p : Entry → Prop} [DecidablePred p] (s : Scopes) : Decidable (s.All p) :=
  inferInstanceAs (Decidable (∀ f ∈ s.frames, f.All p))

namespace All

variable {p : Entry → Prop} {s : Scopes} {name : String} {e : Entry}

theorem iff_each : s.All p ↔ s.Each fun b => p b.2 := Iff.rfl

theorem get (h : s.All p) (he : s.get? name = some e) : p e := Each.get (iff_each.mp h) he

theorem set (h : s.All p) (he : p e) : (s.set name e).All p := Each.set (iff_each.mp h) he

theorem unset (h : s.All p) : (s.unset name).All p := Each.unset (iff_each.mp h)

theorem enter (h : s.All p) : s.enter.All p := Each.enter (iff_each.mp h)

theorem leave (h : s.All p) : s.leave.All p := Each.leave (iff_each.mp h)

end All

end Scopes
end StackCalc
