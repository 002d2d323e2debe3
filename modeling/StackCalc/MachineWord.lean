import StackCalc.Error
import StackCalc.Word

/-!
The words that sizes, levels and exponents are kept in. Nothing wraps around in these words: what
does not fit them is an overflow.
-/

namespace StackCalc.Word

def int32 : Word := ⟨32, true⟩

def int64 : Word := ⟨64, true⟩

def nat64 : Word := ⟨64, false⟩

/-- The result of an operation on words, if it fits one. -/
def hold (w : Word) (v : Int) : Except Error Int :=
  if w.inRange v then .ok v else .error .overflow

variable {v : Int}

theorem inRange_iff {w : Word} : w.inRange v ↔ w.least ≤ v ∧ v ≤ w.greatest := by
  simp [inRange]

theorem inRange_int64 : int64.inRange v ↔ -9223372036854775808 ≤ v ∧ v ≤ 9223372036854775807 :=
  inRange_iff

theorem inRange_nat64 : nat64.inRange v ↔ 0 ≤ v ∧ v ≤ 18446744073709551615 := inRange_iff

theorem hold_eq_ok_iff {w : Word} {r : Int} : w.hold v = .ok r ↔ w.inRange v ∧ r = v := by
  unfold hold
  split
  · rename_i fits
    exact ⟨fun h => Except.ok.inj h ▸ ⟨fits, rfl⟩, fun h => h.2 ▸ rfl⟩
  · rename_i out
    exact ⟨nofun, fun h => absurd h.1 out⟩

end StackCalc.Word
