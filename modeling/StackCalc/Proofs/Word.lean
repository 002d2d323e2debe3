import Mathlib.Algebra.Ring.Int.Defs
import Mathlib.Algebra.Ring.Nat
import StackCalc.Word

/-! # Words as bit vectors

A word of `w` bits holds the bit vectors of that width, read as integers in two's complement or
without sign. Wrapping an integer is taking it to its bit vector and reading that back, so whatever
is known about bit vectors holds for words. -/

namespace StackCalc.Word

/-- The integer that a bit vector stands for in a word. -/
def read (w : Word) (x : BitVec w.bits) : Int :=
  if w.signed then x.toInt else x.toNat

variable {w : Word}

theorem modulus_eq : w.modulus = ((2 ^ w.bits : Nat) : Int) := rfl

theorem half_eq : w.half = ((2 ^ (w.bits - 1) : Nat) : Int) := rfl

theorem half_pos : 0 < w.half := by
  rw [half_eq]
  exact_mod_cast Nat.two_pow_pos _

theorem modulus_eq_two_mul_half (h : 0 < w.bits) : w.modulus = 2 * w.half := by
  rw [modulus_eq, half_eq, show w.bits = w.bits - 1 + 1 by omega, Nat.pow_succ]
  simp only [Nat.add_sub_cancel]
  omega

/-- Every bit vector stands for an integer in range. -/
theorem inRange_read (h : 0 < w.bits) (x : BitVec w.bits) : w.inRange (w.read x) = true := by
  have hm := modulus_eq_two_mul_half h
  have hx : (x.toNat : Int) < w.modulus := by
    rw [modulus_eq]
    exact_mod_cast x.isLt
  unfold inRange read least greatest mask
  cases w.signed with
  | false => simp; omega
  | true =>
    have lo := x.le_toInt
    have hi := x.toInt_lt
    have hh := half_eq (w := w)
    push_cast at hh
    rw [← hh] at lo hi
    simp
    omega

/-- The bit vector of the integer that a bit vector stands for. -/
@[simp]
theorem ofInt_read (x : BitVec w.bits) : BitVec.ofInt w.bits (w.read x) = x := by
  unfold read
  split
  · exact BitVec.ofInt_toInt
  · rw [BitVec.ofInt_natCast, BitVec.ofNat_toNat, BitVec.setWidth_eq]

/-- The reading of a pattern is the reading of its bit vector. -/
theorem ofPattern_eq_read (h : 0 < w.bits) (v : Int) :
    w.ofPattern v = w.read (.ofInt w.bits v) := by
  have hm := modulus_eq_two_mul_half h
  have hp := half_pos (w := w)
  unfold ofPattern read pattern
  cases w.signed with
  | false =>
    have nonneg : 0 ≤ v % w.modulus := Int.emod_nonneg v (by omega)
    simp only [Bool.false_and, Bool.false_eq_true, if_false, BitVec.toNat_ofInt, ← modulus_eq]
    omega
  | true =>
    have middle : (w.modulus + 1) / 2 = w.half := by omega
    simp only [Bool.true_and, if_true, BitVec.toInt_ofInt, Int.bmod, ← modulus_eq, middle,
      decide_eq_true_eq]
    by_cases upper : w.half ≤ v % w.modulus
    · rw [if_pos upper, if_neg (by omega)]
    · rw [if_neg upper, if_pos (by omega)]

/-- An integer in range is the reading of its bit vector. -/
theorem read_ofInt_of_inRange (h : 0 < w.bits) {v : Int} (hv : w.inRange v = true) :
    w.read (.ofInt w.bits v) = v := by
  unfold inRange least greatest mask at hv
  unfold read
  cases hs : w.signed with
  | false =>
    simp only [hs, Bool.false_eq_true, if_false, Bool.and_eq_true, decide_eq_true_eq] at hv
    have small : v % w.modulus = v := Int.emod_eq_of_lt hv.1 (by omega)
    simp only [Bool.false_eq_true, if_false, BitVec.toNat_ofInt, ← modulus_eq, small]
    omega
  | true =>
    simp only [hs, if_true, Bool.and_eq_true, decide_eq_true_eq] at hv
    have hh := half_eq (w := w)
    push_cast at hh
    simp only [if_true]
    exact BitVec.toInt_ofInt_eq_self h (by omega) (by omega)

/-- The reading of a bit vector is the one integer in range with its residue. -/
theorem eq_read_iff (h : 0 < w.bits) {n : Int} {x : BitVec w.bits} :
    n = w.read x ↔ w.inRange n = true ∧ BitVec.ofInt w.bits n = x := by
  constructor
  · rintro rfl
    exact ⟨inRange_read h x, ofInt_read x⟩
  · rintro ⟨inRange, rfl⟩
    exact (read_ofInt_of_inRange h inRange).symm

/-- Wrapping is taking an integer to its bit vector and reading that. The flags tell whether the
integer was out of range. -/
theorem wrap_eq (h : 0 < w.bits) (v : Int) :
    let r := w.read (.ofInt w.bits v)
    w.wrap v = (r, ⟨r = 0, !w.inRange v && !w.signed, !w.inRange v && w.signed, r < 0⟩) := by
  intro r
  have hr : (if (!w.inRange v) = true then w.ofPattern v else v) = r := by
    by_cases hv : w.inRange v = true
    · simp [hv, r, read_ofInt_of_inRange h hv]
    · simp [hv, r, ofPattern_eq_read h]
  simp only [wrap, hr]

/-! ## Operations on wrapped integers -/

theorem emulate_eq_read {bits : Nat} (h : 0 < bits) (signed : Bool) (v : Int) :
    (emulate v bits signed).1 = read ⟨bits, signed⟩ (.ofInt bits v) := by
  rw [emulate, if_neg (Nat.ne_of_gt h), wrap_eq (w := ⟨bits, signed⟩) h]

/-- A sum is wrapped to the same word if an operand is wrapped before. -/
theorem emulate_add (bits : Nat) (signed : Bool) (m n : Int) :
    (emulate ((emulate m bits signed).1 + n) bits signed).1 = (emulate (m + n) bits signed).1 := by
  rcases Nat.eq_zero_or_pos bits with rfl | h
  · rfl
  · rw [emulate_eq_read h, emulate_eq_read h, emulate_eq_read h, BitVec.ofInt_add,
      ofInt_read (w := ⟨bits, signed⟩), ← BitVec.ofInt_add]

/-- A product is wrapped to the same word if a factor is wrapped before. -/
theorem emulate_mul (bits : Nat) (signed : Bool) (m n : Int) :
    (emulate ((emulate m bits signed).1 * n) bits signed).1 = (emulate (m * n) bits signed).1 := by
  rcases Nat.eq_zero_or_pos bits with rfl | h
  · rfl
  · rw [emulate_eq_read h, emulate_eq_read h, emulate_eq_read h, BitVec.ofInt_mul,
      ofInt_read (w := ⟨bits, signed⟩), ← BitVec.ofInt_mul]

/-! ## Operations on patterns -/

/-- The low bits of an integer are its bit vector without sign. -/
theorem pattern_eq_toNat (v : Int) : w.pattern v = ((BitVec.ofInt w.bits v).toNat : Int) := by
  have positive : (0 : Int) < w.modulus := by
    rw [modulus_eq]
    exact_mod_cast Nat.two_pow_pos w.bits
  rw [BitVec.toNat_ofInt, ← modulus_eq, Int.toNat_of_nonneg (Int.emod_nonneg v (by omega)), pattern]

theorem pattern_read (x : BitVec w.bits) : w.pattern (w.read x) = (x.toNat : Int) := by
  rw [pattern_eq_toNat, ofInt_read]

theorem ofPattern_toNat (h : 0 < w.bits) (x : BitVec w.bits) : w.ofPattern x.toNat = w.read x := by
  rw [ofPattern_eq_read h, BitVec.ofInt_natCast, BitVec.ofNat_toNat, BitVec.setWidth_eq]

section
variable (h : 0 < w.bits) (x y : BitVec w.bits)
include h

theorem ofPattern_land :
    w.ofPattern (Bits.land (w.pattern (w.read x)) (w.pattern (w.read y))) = w.read (x &&& y) := by
  rw [pattern_read, pattern_read, ← ofPattern_toNat h, BitVec.toNat_and]
  rfl

theorem ofPattern_lor :
    w.ofPattern (Bits.lor (w.pattern (w.read x)) (w.pattern (w.read y))) = w.read (x ||| y) := by
  rw [pattern_read, pattern_read, ← ofPattern_toNat h, BitVec.toNat_or]
  rfl

theorem ofPattern_xor :
    w.ofPattern (Bits.xor (w.pattern (w.read x)) (w.pattern (w.read y))) = w.read (x ^^^ y) := by
  rw [pattern_read, pattern_read, ← ofPattern_toNat h, BitVec.toNat_xor]
  rfl

theorem ofPattern_not :
    w.ofPattern (Bits.xor w.mask (w.pattern (w.read x))) = w.read (~~~x) := by
  have ones : w.mask = ((BitVec.allOnes w.bits).toNat : Int) := by
    rw [mask, modulus_eq, BitVec.toNat_allOnes, Int.natCast_sub (Nat.two_pow_pos w.bits)]
    rfl
  rw [pattern_read, ones, ← BitVec.allOnes_xor, ← ofPattern_toNat h, BitVec.toNat_xor]
  rfl

end

/-- A shift to the left multiplies by a power of two. -/
theorem ofInt_shiftLeft (x : BitVec w.bits) (n : Nat) :
    BitVec.ofInt w.bits (w.read x <<< n) = x <<< n := by
  have power : BitVec.ofInt w.bits (2 ^ n) = BitVec.twoPow w.bits n := by
    apply BitVec.eq_of_toNat_eq
    rw [show (2 : Int) ^ n = ((2 ^ n : Nat) : Int) by push_cast; rfl, BitVec.ofInt_natCast,
      BitVec.toNat_ofNat, BitVec.toNat_twoPow]
  rw [Int.shiftLeft_eq, BitVec.ofInt_mul, ofInt_read, power, BitVec.shiftLeft_eq_mul_twoPow]

/-- The shift to the right of a word: it repeats the sign, or brings in zeros. -/
def shiftRight (w : Word) (x : BitVec w.bits) (n : Nat) : BitVec w.bits :=
  if w.signed then x.sshiftRight n else x >>> n

theorem read_shiftRight (x : BitVec w.bits) (n : Nat) :
    (if w.signed then w.read x else w.pattern (w.read x)) >>> n = w.read (w.shiftRight x n) := by
  unfold shiftRight
  rw [pattern_read]
  cases hs : w.signed with
  | true =>
    simp only [if_true, read, hs]
    exact BitVec.toInt_sshiftRight.symm
  | false =>
    simp only [Bool.false_eq_true, if_false, read, hs, BitVec.toNat_ushiftRight]
    exact (Int.natCast_shiftRight x.toNat n).symm

end StackCalc.Word
