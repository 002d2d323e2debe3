import StackCalc.Proofs.Course
import StackCalc.Proofs.Stored

/-! # Sound machines

A machine is sound if every entry that it holds is: on its stack, in a variable frame or in a
snapshot. Entries are sound as soon as they are stored from canonical values, so all that has to be
known of an instruction is that it makes canonical values out of canonical ones. -/

namespace StackCalc

namespace Vocabulary

/-- All names, and canonical values. -/
def canonical : Vocabulary where
  names _ := True
  values := Value.Canonical
  made := Value.Made.canonical
  reduce h := Value.canonical_reduce _ h
  var _ := trivial
  const h := by simpa [Expr.Canonical] using h
  apply := by simp [Expr.Canonical, canonicalArgs_iff]

end Vocabulary

/-- All entries that a machine holds are sound. -/
abbrev Machine.Sound (m : Machine) : Prop := m.Holds .canonical Entry.Sound

theorem Machine.Sound.history {m : Machine} (h : m.Sound) :
    ∀ s ∈ m.history.snapshots, ∀ e ∈ s, e.Sound :=
  h.snapshots (Vocabulary.undoes_of_name trivial)

theorem Machine.sound_start (settings : Settings) (clock : Int) : (start settings clock).Sound :=
  holds_start _ _ settings clock

end StackCalc
