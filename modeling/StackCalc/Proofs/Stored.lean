import StackCalc.Entry
import StackCalc.Proofs.Canonical
import StackCalc.Proofs.Word

/-! # Stored entries

An entry is only ever made by `Entry.store`. What that establishes is `Entry.Sound`: the value is
reduced, it fits the word of the entry's own style, and the flags tell its sign and whether it was
wrapped. -/

namespace StackCalc

/-- The word into which integers are wrapped. -/
def NumberStyle.word (s : NumberStyle) : Word := ⟨s.wordBits, s.signed⟩

namespace Entry

/-- Whether an entry holds an integer in a word. -/
def InWord (e : Entry) : Prop := 0 < e.style.wordBits ∧ ∃ n, e.value = .integer n

/-- What holds of every stored entry. -/
structure Sound (e : Entry) : Prop where
  reduced : e.value.reduce = e.value
  canonical : e.value.Canonical
  fits : ∀ n, e.value = .integer n → 0 < e.style.wordBits → e.style.word.inRange n = true
  zero : e.flags.zero = e.value.isZero
  sign : e.flags.sign = e.value.isNegative
  carry : e.flags.carry = true → e.InWord ∧ e.style.signed = false
  overflow : e.flags.overflow = true → e.InWord ∧ e.style.signed = true
  unit : ∀ d ∈ e.unit.dims, d.2 ≠ 0

/-- An integer is stored as the word that it is wrapped into. -/
theorem store_integer {v : Value} {n : Int} (h : v.reduce = .integer n) (unit : UnitProduct)
    (style : NumberStyle) :
    store v unit style = ⟨.integer (Word.emulate n style.wordBits style.signed).1, unit, style,
      (Word.emulate n style.wordBits style.signed).2⟩ := by
  simp only [store, stored, h]

/-- Every other value is stored in its reduced form. -/
theorem store_other {v : Value} (h : ∀ n, v.reduce ≠ .integer n) (unit : UnitProduct)
    (style : NumberStyle) :
    store v unit style =
      ⟨v.reduce, unit, style, Flags.ofSign v.reduce.isZero v.reduce.isNegative⟩ := by
  unfold store stored
  split
  rename_i heq
  split at heq
  · rename_i n hn
    exact absurd hn (h n)
  · cases heq
    rfl

/-- Without a word, every value is stored in its reduced form. -/
theorem store_unbounded {style : NumberStyle} (h : style.wordBits = 0) (v : Value)
    (unit : UnitProduct) :
    store v unit style =
      ⟨v.reduce, unit, style, Flags.ofSign v.reduce.isZero v.reduce.isNegative⟩ := by
  by_cases hn : ∃ n, v.reduce = .integer n
  · obtain ⟨n, hn⟩ := hn
    rw [store_integer hn, hn, h]
    rfl
  · exact store_other (fun n hv => hn ⟨n, hv⟩) unit style

/-- In a word, an integer is stored as the reading of its bit vector. -/
theorem store_word {style : NumberStyle} (h : 0 < style.wordBits) {v : Value} {n : Int}
    (hn : v.reduce = .integer n) (unit : UnitProduct) :
    let w := style.word
    let r := w.read (.ofInt w.bits n)
    store v unit style = ⟨.integer r, unit, style,
      ⟨r = 0, !w.inRange n && !w.signed, !w.inRange n && w.signed, r < 0⟩⟩ := by
  intro w r
  have wrapped : Word.emulate n style.wordBits style.signed = w.wrap n :=
    if_neg (Nat.ne_of_gt h)
  rw [store_integer hn, wrapped, Word.wrap_eq h]

/-- Storing a reduced value is storing the value. -/
theorem store_reduce (v : Value) (unit : UnitProduct) (style : NumberStyle) :
    store v.reduce unit style = store v unit style := by
  unfold store stored
  rw [Value.reduce_reduce]

/-- Storing the value of an entry in the style of that entry leaves it as it is. -/
theorem store_store (v : Value) (unit unit' : UnitProduct) (style : NumberStyle) :
    (store (store v unit style).value unit' style).value = (store v unit style).value := by
  by_cases h : 0 < style.wordBits ∧ ∃ n, v.reduce = .integer n
  · obtain ⟨hb, n, hn⟩ := h
    let w := style.word
    have first : (store v unit style).value = .integer (w.read (.ofInt w.bits n)) := by
      rw [store_word hb hn]
    rw [first, store_word hb rfl]
    exact congrArg (fun x => Value.integer (w.read x)) (Word.ofInt_read (.ofInt w.bits n))
  · have plain : ∀ w, w.reduce = v.reduce → ∀ u, (store w u style).value = v.reduce := by
      intro w hw u
      rcases Nat.eq_zero_or_pos style.wordBits with hb | hb
      · rw [store_unbounded hb, hw]
      · rw [store_other (fun n hn => h ⟨hb, n, hw ▸ hn⟩), hw]
    rw [plain v rfl, plain v.reduce v.reduce_reduce]

/-- An integer that fits the word, if there is one, is stored as it is. -/
theorem store_fits {style : NumberStyle} {n : Int}
    (fits : 0 < style.wordBits → style.word.inRange n = true) (unit : UnitProduct) :
    (store (.integer n) unit style).value = .integer n := by
  rcases Nat.eq_zero_or_pos style.wordBits with unbounded | bounded
  · rw [store_unbounded unbounded]
    rfl
  · rw [store_word bounded rfl]
    exact congrArg Value.integer (Word.read_ofInt_of_inRange bounded (fits bounded))

/-- What an entry holds is reduced. -/
theorem reduce_store (v : Value) (unit : UnitProduct) (style : NumberStyle) :
    (store v unit style).value.reduce = (store v unit style).value := by
  by_cases h : ∃ n, v.reduce = .integer n
  · obtain ⟨n, hn⟩ := h
    rw [store_integer hn]
    rfl
  · rw [store_other fun n hn => h ⟨n, hn⟩]
    exact v.reduce_reduce

/-- Storing a canonical value gives a sound entry. -/
theorem store_sound {v : Value} (hv : v.Canonical) (unit : UnitProduct) (style : NumberStyle) :
    (store v unit style).Sound := by
  by_cases h : 0 < style.wordBits ∧ ∃ n, v.reduce = .integer n
  · obtain ⟨hb, n, hn⟩ := h
    rw [store_word hb hn]
    exact {
      reduced := rfl
      canonical := by simp [Value.integer]
      fits := fun k hk _ => by
        cases hk
        exact Word.inRange_read hb _
      zero := rfl
      sign := rfl
      carry := fun hc =>
        ⟨⟨hb, _, rfl⟩, by simpa [NumberStyle.word] using (Bool.and_eq_true_iff.mp hc).2⟩
      overflow := fun ho => ⟨⟨hb, _, rfl⟩, (Bool.and_eq_true_iff.mp ho).2⟩
      unit := unit.table.2 }
  · have he : store v unit style =
        ⟨v.reduce, unit, style, Flags.ofSign v.reduce.isZero v.reduce.isNegative⟩ := by
      rcases Nat.eq_zero_or_pos style.wordBits with hb | hb
      · exact store_unbounded hb v unit
      · exact store_other (fun n hn => h ⟨hb, n, hn⟩) unit style
    rw [he]
    exact {
      reduced := v.reduce_reduce
      canonical := v.canonical_reduce hv
      fits := fun n hn hb => absurd ⟨hb, n, hn⟩ h
      zero := rfl
      sign := rfl
      carry := fun hc => by cases hc
      overflow := fun ho => by cases ho
      unit := unit.table.2 }

end Entry
end StackCalc
