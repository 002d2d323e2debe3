import StackCalc.Proofs.ReadBack

/-! # Decimal literals

A decimal literal is digits with at most one point, behind a sign and before a power of ten that may
both be left out. Reading accepts the texts that are literals between blanks, as long as words hold
their powers of ten, and gives the number that they denote in normal form. The text of a number, in
whichever notation it is written, is a literal of that number. -/

namespace StackCalc.Decimal

open Numeral (isDigit)

/-! ## 1. Literals -/

/-- A sign before digits. None is a plus. -/
inductive SignText : List Char → Bool → Prop
  | none : SignText [] false
  | plus : SignText ['+'] false
  | minus : SignText ['-'] true

/-- Digits, at least one, behind a sign. -/
inductive IntegerText : List Char → Int → Prop
  | intro {sign ds : List Char} {negative : Bool} (hs : SignText sign negative)
    (nonempty : ds ≠ []) (digits : ∀ c ∈ ds, isDigit c = true) :
    IntegerText (sign ++ ds) (if negative then -(Numeral.value ds : Int) else Numeral.value ds)

/-- Digits, at least one, that may have a point among them or on one of their sides. -/
structure PointText (cs whole fraction : List Char) : Prop where
  text : cs = whole ++ '.' :: fraction ∨ fraction = [] ∧ cs = whole
  nonempty : whole ++ fraction ≠ []
  digits : ∀ c ∈ whole ++ fraction, isDigit c = true

/-- A power of ten behind its mark. None is the power zero. -/
inductive PowerText : List Char → Int → Prop
  | none : PowerText [] 0
  | marked {mark : Char} {cs : List Char} {k : Int} (hm : mark = 'e' ∨ mark = 'E')
    (h : IntegerText cs k) : PowerText (mark :: cs) k

/-- The parts of a decimal literal. -/
structure Literal where
  negative : Bool
  whole : List Char
  fraction : List Char
  power : Int

namespace Literal

/-- A text consists of a sign, digits and a power of ten. -/
inductive WrittenAs (l : Literal) (cs : List Char) : Prop
  | intro {sign digits power : List Char} (text : cs = sign ++ (digits ++ power))
    (hs : SignText sign l.negative) (hd : PointText digits l.whole l.fraction)
    (hp : PowerText power l.power)

/-- The number that a literal denotes. -/
def value (l : Literal) : Rat :=
  signed l.negative
    ((Numeral.value l.whole + Numeral.value l.fraction / 10 ^ l.fraction.length) * 10 ^ l.power)

/-- The digits of a literal with the place of the last one. -/
def number (l : Literal) : Decimal :=
  ⟨l.negative, Numeral.value (l.whole ++ l.fraction), l.power - l.fraction.length⟩

theorem value_number (l : Literal) : l.number.value = l.value := by
  unfold Decimal.value Literal.value
  refine congrArg (signed l.negative) ?_
  show ((Numeral.value (l.whole ++ l.fraction) : Nat) : Rat) *
    10 ^ (l.power - l.fraction.length) = _
  rw [Numeral.value_append, zpow_sub₀ (by norm_num), zpow_natCast]
  push_cast
  field_simp

/-- What is read of a literal whose power of ten is in a word. -/
def read (l : Literal) : Except Error Decimal := do
  (← l.number.hold).normalize.hold

theorem read_eq_ok_iff {l : Literal} {v : Decimal} : l.read = .ok v ↔
    InWord l.number.exponent ∧ InWord l.number.normalize.exponent ∧ v = l.number.normalize := by
  by_cases place : InWord l.number.exponent
  · rw [read, hold_of_inWord place]
    exact hold_eq_ok_iff.trans (and_iff_right place).symm
  · rw [read, hold_of_not_inWord place]
    exact ⟨nofun, fun h => absurd h.1 place⟩

end Literal

/-! ## 2. Reading -/

variable {cs whole fraction : List Char} {negative : Bool} {k : Int} {v : Decimal}

/-- A text that begins with a character other than a sign. -/
def Unsigned (cs : List Char) : Prop := ∃ c r, cs = c :: r ∧ c ≠ '-' ∧ c ≠ '+'

theorem unsigned_digits {ds : List Char} (nonempty : ds ≠ [])
    (digits : ∀ c ∈ ds, isDigit c = true) : Unsigned ds := by
  obtain ⟨c, r, rfl⟩ := List.exists_cons_of_ne_nil nonempty
  exact ⟨c, r, rfl, (ExtDyadic.digit_ne (digits c List.mem_cons_self)).2⟩

theorem Unsigned.append (h : Unsigned cs) (ds : List Char) : Unsigned (cs ++ ds) := by
  obtain ⟨c, r, rfl, signs⟩ := h
  exact ⟨c, r ++ ds, rfl, signs⟩

/-- The test for digits, of which there is at least one. -/
theorem digits_accepted_iff {ds : List Char} :
    (ds.isEmpty || !ds.all isDigit) = false ↔ ds ≠ [] ∧ ∀ c ∈ ds, isDigit c = true := by
  simp

/-- Digits are read behind a sign that has been taken off. -/
theorem readDigits_eq_some_iff {ds : List Char} :
    (if (ds.isEmpty || !ds.all isDigit) = true then none
      else
        let n := if negative = true then -(Numeral.value ds : Int) else Numeral.value ds
        if Word.int64.inRange n = true then some n else none) = some k ↔
      (ds ≠ [] ∧ ∀ c ∈ ds, isDigit c = true) ∧
        (if negative = true then -(Numeral.value ds : Int) else Numeral.value ds) = k ∧
        InWord k := by
  dsimp only
  generalize (if negative = true then -(Numeral.value ds : Int) else Numeral.value ds) = n
  rw [Option.ite_none_left_eq_some, Option.ite_none_right_eq_some, Bool.not_eq_true,
    digits_accepted_iff, Option.some.injEq, inRange_iff_inWord]
  refine and_congr_right fun _ => ?_
  constructor
  · rintro ⟨word, rfl⟩
    exact ⟨rfl, word⟩
  · rintro ⟨rfl, word⟩
    exact ⟨word, rfl⟩

/-- An integer is read if a word holds it. -/
theorem parseExponent_eq_some_iff : parseExponent cs = some k ↔ IntegerText cs k ∧ InWord k := by
  constructor
  · intro h
    unfold parseExponent at h
    split at h
    rename_i split
    split at split
    all_goals
      cases split
      obtain ⟨⟨nonempty, digits⟩, rfl, word⟩ := readDigits_eq_some_iff.mp h
    · exact ⟨.intro .minus nonempty digits, word⟩
    · exact ⟨.intro .plus nonempty digits, word⟩
    · exact ⟨.intro .none nonempty digits, word⟩
  · rintro ⟨⟨hs, nonempty, digits⟩, word⟩
    have read := readDigits_eq_some_iff.mpr ⟨⟨nonempty, digits⟩, rfl, word⟩
    cases hs with
    | minus => exact read
    | plus => exact read
    | none =>
      obtain ⟨c, r, rfl, minus, plus⟩ := unsigned_digits nonempty digits
      unfold parseExponent
      split
      rename_i split
      rw [List.nil_append] at split
      split at split
      · simp_all
      · simp_all
      · cases split
        exact read

theorem isDigit_ne_point {c : Char} (h : isDigit c = true) : (c != '.') = true := by
  rw [bne_iff_ne]
  rintro rfl
  cases h

/-- The digits before the first point, and those behind it. -/
theorem PointText.span (h : PointText cs whole fraction) :
    cs.takeWhile (· != '.') = whole ∧ (cs.dropWhile (· != '.')).drop 1 = fraction := by
  have digits (c : Char) (hc : c ∈ whole) : (c != '.') = true :=
    isDigit_ne_point (h.digits c (List.mem_append_left _ hc))
  rcases h.text with rfl | ⟨rfl, rfl⟩
  · obtain ⟨taken, dropped⟩ := ExtDyadic.span_append ('.' :: fraction) digits (by
      intro c r hc
      cases hc
      rfl)
    exact ⟨taken, by rw [dropped, List.drop_one, List.tail_cons]⟩
  · obtain ⟨taken, dropped⟩ := ExtDyadic.span_append [] digits nofun
    rw [List.append_nil] at taken dropped
    exact ⟨taken, by rw [dropped, List.drop_nil]⟩

theorem pointText_span (nonempty : cs.takeWhile (· != '.') ++ (cs.dropWhile (· != '.')).drop 1 ≠ [])
    (digits : ∀ c ∈ cs.takeWhile (· != '.') ++ (cs.dropWhile (· != '.')).drop 1, isDigit c = true) :
    PointText cs (cs.takeWhile (· != '.')) ((cs.dropWhile (· != '.')).drop 1) := by
  refine ⟨?_, nonempty, digits⟩
  have parts := List.takeWhile_append_dropWhile (p := (· != '.')) (l := cs)
  cases rest : cs.dropWhile (· != '.') with
  | nil =>
    rw [rest, List.append_nil] at parts
    exact .inr ⟨rfl, parts.symm⟩
  | cons c r =>
    have point := List.head?_dropWhile_not (· != '.') cs
    rw [rest] at point parts
    have point : c = '.' := by simpa using point
    exact .inl (point ▸ parts.symm)

/-- Digits with at most one point are read as those of a literal. -/
theorem PointText.parseMantissa_eq (h : PointText cs whole fraction) (negative : Bool) (k : Int) :
    parseMantissa negative cs k = (Literal.read ⟨negative, whole, fraction, k⟩).map some := by
  obtain ⟨before, behind⟩ := h.span
  unfold parseMantissa
  dsimp only
  rw [before, behind, if_neg (by rw [digits_accepted_iff.mpr ⟨h.nonempty, h.digits⟩]; decide)]
  show (do
    let d ← hold ⟨negative, Numeral.value (whole ++ fraction), k - fraction.length⟩
    return some (← d.normalize.hold)) = Except.map some (do
      (← hold ⟨negative, Numeral.value (whole ++ fraction), k - fraction.length⟩).normalize.hold)
  cases hold ⟨negative, Numeral.value (whole ++ fraction), k - fraction.length⟩ with
  | error e => rfl
  | ok d =>
    show (do return some (← d.normalize.hold)) = Except.map some d.normalize.hold
    cases d.normalize.hold <;> rfl

theorem parseMantissa_cases (negative : Bool) (cs : List Char) (k : Int) :
    parseMantissa negative cs k = .ok none ∨ ∃ whole fraction, PointText cs whole fraction := by
  unfold parseMantissa
  dsimp only
  split
  · exact .inl rfl
  · rename_i accepted
    obtain ⟨nonempty, digits⟩ := digits_accepted_iff.mp (Bool.not_eq_true _ ▸ accepted)
    exact .inr ⟨_, _, pointText_span nonempty digits⟩

/-- The test for characters before the mark of a power of ten. -/
theorem unmarked_eq_false_iff {c : Char} :
    (!(c == 'e' || c == 'E')) = false ↔ c = 'e' ∨ c = 'E' := by
  rw [Bool.not_eq_false', Bool.or_eq_true, beq_iff_eq, beq_iff_eq]

/-- Neither digits nor points are marks. -/
theorem PointText.unmarked (h : PointText cs whole fraction) :
    ∀ c ∈ cs, (!(c == 'e' || c == 'E')) = true := by
  have digit (c : Char) (hc : isDigit c = true) : (!(c == 'e' || c == 'E')) = true := by
    by_contra mark
    rcases unmarked_eq_false_iff.mp (Bool.not_eq_true _ ▸ mark) with rfl | rfl <;> cases hc
  intro c hc
  rcases h.text with rfl | ⟨rfl, rfl⟩
  · rcases List.mem_append.mp hc with hc | hc
    · exact digit c (h.digits c (List.mem_append_left _ hc))
    · rcases List.mem_cons.mp hc with rfl | hc
      · rfl
      · exact digit c (h.digits c (List.mem_append_right _ hc))
  · exact digit c (h.digits c (List.mem_append_left _ hc))

/-- Behind the sign, digits and a power of ten that a word holds are read. -/
theorem parseUnsigned_eq {digits power : List Char} (hd : PointText digits whole fraction)
    (hp : PowerText power k) (word : InWord k) (negative : Bool) :
    parseUnsigned negative (digits ++ power) =
      (Literal.read ⟨negative, whole, fraction, k⟩).map some := by
  unfold parseUnsigned
  dsimp only
  cases hp with
  | none =>
    obtain ⟨taken, dropped⟩ := ExtDyadic.span_append [] hd.unmarked nofun
    rw [dropped, taken]
    exact hd.parseMantissa_eq negative 0
  | @marked mark cs _ hm h =>
    obtain ⟨taken, dropped⟩ := ExtDyadic.span_append (mark :: cs) hd.unmarked (by
      intro c r hc
      cases hc
      exact unmarked_eq_false_iff.mpr hm)
    rw [dropped, taken]
    dsimp only
    rw [parseExponent_eq_some_iff.mpr ⟨h, word⟩]
    exact hd.parseMantissa_eq negative k

theorem parseUnsigned_cases (negative : Bool) (cs : List Char) :
    parseUnsigned negative cs = .ok none ∨
      ∃ digits power whole fraction k, cs = digits ++ power ∧ PointText digits whole fraction ∧
        PowerText power k ∧ InWord k := by
  let unmarked (c : Char) : Bool := !(c == 'e' || c == 'E')
  have parts : cs.takeWhile unmarked ++ cs.dropWhile unmarked = cs :=
    List.takeWhile_append_dropWhile
  unfold parseUnsigned
  dsimp only
  split
  · rename_i rest
    refine (parseMantissa_cases negative _ 0).imp id ?_
    rintro ⟨whole, fraction, digits⟩
    exact ⟨_, _, whole, fraction, 0, parts.symm, digits, rest ▸ .none, by decide⟩
  · rename_i mark exp rest
    have marked := List.head?_dropWhile_not unmarked cs
    rw [show cs.dropWhile unmarked = mark :: exp from rest] at marked
    split
    · rename_i k power
      obtain ⟨integer, word⟩ := parseExponent_eq_some_iff.mp power
      refine (parseMantissa_cases negative _ k).imp id ?_
      rintro ⟨whole, fraction, digits⟩
      exact ⟨_, _, whole, fraction, k, parts.symm, digits,
        rest ▸ .marked (unmarked_eq_false_iff.mp marked) integer, word⟩
    · exact .inl rfl

/-- The digits of a literal do not begin with a sign. -/
theorem PointText.unsigned (h : PointText cs whole fraction) : Unsigned cs := by
  rcases h.text with rfl | ⟨rfl, rfl⟩
  · cases whole with
    | nil => exact ⟨'.', fraction, rfl, by decide, by decide⟩
    | cons c r =>
      have first : isDigit c = true := h.digits c (List.mem_append_left _ List.mem_cons_self)
      exact ⟨c, _, rfl, (ExtDyadic.digit_ne first).2⟩
  · have digits := h.digits
    rw [List.append_nil] at digits
    exact unsigned_digits (List.append_nil cs ▸ h.nonempty) digits

/-- A literal between blanks is read if a word holds its power of ten. -/
theorem Literal.WrittenAs.parse_eq {l : Literal} {text : String}
    (h : l.WrittenAs (Text.trim text.toList)) (word : InWord l.power) :
    parse text = l.read.map some := by
  unfold parse
  obtain ⟨negative, whole, fraction, k⟩ := l
  generalize Text.trim text.toList = cs at h
  obtain ⟨rfl, hs, hd, hp⟩ := h
  have read := parseUnsigned_eq hd hp word negative
  cases hs with
  | minus => exact read
  | plus => exact read
  | none =>
    obtain ⟨c, r, rfl, minus, plus⟩ := hd.unsigned
    rw [List.nil_append, List.cons_append]
    split
    · simp_all
    · simp_all
    · exact read

theorem parse_cases (text : String) :
    parse text = .ok none ∨
      ∃ l : Literal, l.WrittenAs (Text.trim text.toList) ∧ InWord l.power := by
  unfold parse
  generalize Text.trim text.toList = cs
  split
  · refine (parseUnsigned_cases true _).imp id ?_
    rintro ⟨digits, power, whole, fraction, k, rfl, hd, hp, word⟩
    exact ⟨⟨true, whole, fraction, k⟩, .intro rfl .minus hd hp, word⟩
  · refine (parseUnsigned_cases false _).imp id ?_
    rintro ⟨digits, power, whole, fraction, k, rfl, hd, hp, word⟩
    exact ⟨⟨false, whole, fraction, k⟩, .intro rfl .plus hd hp, word⟩
  · refine (parseUnsigned_cases false _).imp id ?_
    rintro ⟨digits, power, whole, fraction, k, rfl, hd, hp, word⟩
    exact ⟨⟨false, whole, fraction, k⟩, .intro rfl .none hd hp, word⟩

/-! ## 3. Literals and their texts -/

/-- Behind a sign something follows that is none. -/
theorem SignText.unique {sign sign' r r' : List Char} {negative negative' : Bool}
    (h : SignText sign negative) (h' : SignText sign' negative') (hr : Unsigned r)
    (hr' : Unsigned r') (same : sign ++ r = sign' ++ r') : negative = negative' ∧ r = r' := by
  obtain ⟨c, t, rfl, minus, plus⟩ := hr
  obtain ⟨c', t', rfl, minus', plus'⟩ := hr'
  cases h <;> cases h' <;> grind

theorem IntegerText.unique {j : Int} (h : IntegerText cs j) (h' : IntegerText cs k) : j = k := by
  obtain @⟨sign, ds, negative, hs, nonempty, digits⟩ := h
  generalize text : sign ++ ds = cs at h'
  obtain @⟨sign', ds', negative', hs', nonempty', digits'⟩ := h'
  obtain ⟨rfl, rfl⟩ := hs.unique hs' (unsigned_digits nonempty digits)
    (unsigned_digits nonempty' digits') text
  rfl

theorem PowerText.unique {j : Int} (h : PowerText cs j) (h' : PowerText cs k) : j = k := by
  cases h with
  | none =>
    cases h'
    rfl
  | marked _ h =>
    cases h' with
    | marked _ h' => exact h.unique h'

theorem PowerText.ends (h : PowerText cs k) :
    ∀ c r, cs = c :: r → (!(c == 'e' || c == 'E')) = false := by
  rintro c r rfl
  cases h with
  | marked hm _ => exact unmarked_eq_false_iff.mpr hm

namespace Literal

variable {l l' : Literal}

/-- A text is one literal only. -/
theorem WrittenAs.unique (h : l.WrittenAs cs) (h' : l'.WrittenAs cs) : l = l' := by
  obtain @⟨sign, digits, power, rfl, hs, hd, hp⟩ := h
  obtain @⟨sign', digits', power', text, hs', hd', hp'⟩ := h'
  obtain ⟨negatives, texts⟩ := hs.unique hs' (hd.unsigned.append _) (hd'.unsigned.append _) text
  obtain ⟨taken, dropped⟩ := ExtDyadic.span_append power hd.unmarked hp.ends
  obtain ⟨taken', dropped'⟩ := ExtDyadic.span_append power' hd'.unmarked hp'.ends
  rw [texts] at taken dropped
  obtain rfl := taken.symm.trans taken'
  obtain rfl := dropped.symm.trans dropped'
  obtain ⟨whole, fraction⟩ := hd.span
  obtain ⟨whole', fraction'⟩ := hd'.span
  have powers := hp.unique hp'
  cases l
  cases l'
  simp_all

/-- Words hold the power of ten that a literal writes, that of its last digit, and the exponent of
its number in normal form. -/
structure InRange (l : Literal) : Prop where
  power : InWord l.power
  place : InWord (l.power - l.fraction.length)
  exponent : ∀ v : Decimal, v.Normal → v.value = l.value → InWord v.exponent

/-- The number of a literal is its digits in normal form, and none of them is a negative zero. -/
theorem normalize_number (l : Literal) :
    (l.number.normalize = zero ∨ l.number.normalize.Normal) ∧
      l.number.normalize.value = l.value := by
  rw [← l.value_number]
  rcases Nat.eq_zero_or_pos l.number.mantissa with none | positive
  · have zero : l.number.normalize = Decimal.zero := if_pos none
    refine ⟨.inl zero, ?_⟩
    rw [zero, value_of_mantissa rfl, value_of_mantissa none]
  · obtain ⟨normal, same, sign⟩ := normalize_spec positive
    exact ⟨.inr normal, by rw [Decimal.value, Decimal.value, same, sign]⟩

theorem InRange.read (h : l.InRange) : l.read = .ok l.number.normalize := by
  obtain ⟨normal, same⟩ := l.normalize_number
  refine read_eq_ok_iff.mpr ⟨h.place, ?_, rfl⟩
  rcases normal with zero | normal
  · rw [zero]
    decide
  · exact h.exponent _ normal same

end Literal

/-! ## 4. Written numbers -/

theorem isBlank_digit {c : Char} (h : isDigit c = true) : Text.isBlank c = false := by
  obtain ⟨low, high⟩ := Numeral.isDigit_iff.mp h
  unfold Text.isBlank
  simp
  omega

theorem SignText.unblank (h : SignText cs negative) : ∀ c ∈ cs, Text.isBlank c = false := by
  intro c hc
  cases h with
  | none => cases hc
  | plus =>
    rw [List.mem_singleton.mp hc]
    rfl
  | minus =>
    rw [List.mem_singleton.mp hc]
    rfl

theorem PointText.unblank (h : PointText cs whole fraction) :
    ∀ c ∈ cs, Text.isBlank c = false := by
  have digits (c : Char) (hc : c ∈ whole ++ fraction) : Text.isBlank c = false :=
    isBlank_digit (h.digits c hc)
  intro c hc
  rcases h.text with rfl | ⟨rfl, rfl⟩
  · rcases List.mem_append.mp hc with hc | hc
    · exact digits c (List.mem_append_left _ hc)
    · rcases List.mem_cons.mp hc with rfl | hc
      · rfl
      · exact digits c (List.mem_append_right _ hc)
  · exact digits c (List.mem_append_left _ hc)

theorem PowerText.unblank (h : PowerText cs k) : ∀ c ∈ cs, Text.isBlank c = false := by
  intro c hc
  cases h with
  | none => cases hc
  | marked hm h =>
    obtain ⟨hs, _, digits⟩ := h
    rcases List.mem_cons.mp hc with rfl | hc
    · rcases hm with rfl | rfl <;> rfl
    · rcases List.mem_append.mp hc with hc | hc
      · exact hs.unblank c hc
      · exact isBlank_digit (digits c hc)

theorem trim_of_unblank (h : ∀ c ∈ cs, Text.isBlank c = false) : Text.trim cs = cs := by
  have kept {ds : List Char} (h : ∀ c ∈ ds, Text.isBlank c = false) :
      ds.dropWhile Text.isBlank = ds := by
    cases ds with
    | nil => rfl
    | cons c r => exact List.dropWhile_cons_of_neg (by simp [h c List.mem_cons_self])
  unfold Text.trim
  rw [kept h, kept fun c hc => h c (List.mem_reverse.mp hc), List.reverse_reverse]

/-- There are no blanks on the sides of a literal. -/
theorem Literal.WrittenAs.trim {l : Literal} (h : l.WrittenAs cs) : Text.trim cs = cs := by
  obtain ⟨rfl, hs, hd, hp⟩ := h
  refine trim_of_unblank fun c hc => ?_
  rcases List.mem_append.mp hc with hc | hc
  · exact hs.unblank c hc
  · exact (List.mem_append.mp hc).elim (hd.unblank c) (hp.unblank c)

theorem integerText_ofInt (n : Int) : IntegerText (Numeral.ofInt n).toList n := by
  have written {sign : List Char} {negative : Bool} (hs : SignText sign negative) :
      IntegerText (sign ++ Numeral.digits 10 n.natAbs)
        (if negative = true then -(n.natAbs : Int) else n.natAbs) := by
    have text := IntegerText.intro hs (Numeral.digits_ne_nil n.natAbs) (Numeral.isDigit_of_mem _)
    rwa [Numeral.value_digits] at text
  unfold Numeral.ofInt Numeral.ofNat Numeral.render
  split
  · rw [String.toList_append, String.toList_ofList, String.toList_ofList]
    have minus := written .minus
    rwa [if_pos rfl, show -(n.natAbs : Int) = n by omega] at minus
  · rw [String.toList_ofList]
    have plain := written .none
    rwa [if_neg Bool.false_ne_true, show (n.natAbs : Int) = n by omega] at plain

/-- A text that writes a number is a literal of that number behind the sign. -/
theorem written_literal (h : ExtDyadic.Writes cs v) (word : InWord v.exponent)
    (lead : InWord (v.exponent + v.digitCount - 1)) :
    ∃ l : Literal, l.WrittenAs ((if v.negative then ['-'] else []) ++ cs) ∧ InWord l.power ∧
      InWord l.number.exponent ∧ l.value = v.value := by
  obtain ⟨whole, fraction, rest, spelled, magnitude, place, form⟩ := h
  have power : PowerText rest (ExtDyadic.writtenExponent rest) ∧
      InWord (ExtDyadic.writtenExponent rest) := by
    rcases form with rfl | rfl
    · exact ⟨.none, by decide⟩
    · rw [ExtDyadic.writtenExponent_ofInt]
      exact ⟨.marked (.inl rfl) (integerText_ofInt _), lead⟩
  have place : InWord (ExtDyadic.writtenExponent rest - fraction.length) := by
    rcases place with place | place
    · rwa [place]
    · rw [place]
      decide
  have sign : SignText (if v.negative then ['-'] else []) v.negative := by
    cases v.negative with
    | true => exact .minus
    | false => exact .none
  have nonempty : whole ++ fraction ≠ [] := List.append_ne_nil_of_left_ne_nil spelled.nonempty _
  refine ⟨⟨v.negative, whole, fraction, ExtDyadic.writtenExponent rest⟩, ?_, power.2, place, ?_⟩
  · rcases spelled.text with rfl | ⟨none, rfl⟩
    · have text : whole ++ '.' :: (fraction ++ rest) = (whole ++ '.' :: fraction) ++ rest := by
        rw [List.append_assoc, List.cons_append]
      exact .intro (congrArg _ text) sign ⟨.inl rfl, nonempty, spelled.digits⟩ power.1
    · exact .intro rfl sign ⟨.inr ⟨none, rfl⟩, nonempty, spelled.digits⟩ power.1
  · rw [← Literal.value_number, Decimal.value, Decimal.value]
    exact congrArg (signed v.negative) magnitude

/-- The text of a number in normal form is a literal of that number. -/
theorem text_literal (hv : v = zero ∨ v.Normal) (word : InWord v.exponent)
    (lead : InWord (v.exponent + v.digitCount - 1)) (precision : Nat) :
    ∃ l : Literal, l.WrittenAs (v.text precision).toList ∧ InWord l.power ∧
      InWord l.number.exponent ∧ l.value = v.value := by
  rcases hv with rfl | normal
  · have zero : PointText ['0', '.'] ['0'] [] :=
      ⟨.inl rfl, nofun, fun c hc => by
        rw [List.append_nil] at hc
        rw [List.mem_singleton.mp hc]
        rfl⟩
    have text : (Decimal.zero.text precision).toList = [] ++ (['0', '.'] ++ []) := by
      have none : Decimal.zero.mantissa = 0 := rfl
      rw [Decimal.text, if_pos none]
      rfl
    refine ⟨⟨false, ['0'], [], 0⟩, .intro text .none zero .none, by decide, by decide, ?_⟩
    rw [← Literal.value_number, value_of_mantissa rfl, value_of_mantissa rfl]
  · obtain ⟨cs, text, writes⟩ := ExtDyadic.text_writes normal.pos precision
    rw [text, String.toList_ofList]
    exact written_literal writes word lead

/-- The text of a number in normal form is read as that number. -/
theorem parse_text (hv : v = zero ∨ v.Normal) (word : InWord v.exponent)
    (lead : InWord (v.exponent + v.digitCount - 1)) (precision : Nat) :
    parse (v.text precision) = .ok (some v) := by
  obtain ⟨l, written, power, place, same⟩ := text_literal hv word lead precision
  obtain ⟨normal, value⟩ := l.normalize_number
  have known : l.number.normalize = v := eq_of_value normal hv (value.trans same)
  rw [Literal.WrittenAs.parse_eq (written.trim.symm ▸ written) power,
    Literal.read_eq_ok_iff.mpr ⟨place, known.symm ▸ word, known.symm⟩]
  rfl

/-- The text of a number is written if a word holds the place above its leading digit. -/
theorem render_eq_text (h : v.mantissa = 0 ∨ InWord (v.exponent + v.digitCount)) (precision : Nat) :
    v.render precision = .ok (v.text precision) := by
  unfold render
  split
  · rfl
  · rw [Word.hold_eq_ok_iff.mpr ⟨inRange_iff_inWord.mpr (h.resolve_left ‹_›), rfl⟩]
    rfl

theorem render_eq_overflow (hv : v.mantissa ≠ 0) (h : ¬ InWord (v.exponent + v.digitCount))
    (precision : Nat) : v.render precision = .error .overflow := by
  rw [render, if_neg hv, Word.hold, if_neg (mt inRange_iff_inWord.mp h)]
  rfl

/-- A number in normal form has a text, which is read as that number, unless the place above its
leading digit is the first one beyond the word. -/
theorem render_cases (hv : v = zero ∨ v.Normal) (word : InWord v.exponent)
    (lead : InWord (v.exponent + v.digitCount - 1)) (precision : Nat) :
    if v.exponent + v.digitCount = 9223372036854775808 then
      v.render precision = .error .overflow
    else ∃ text, v.render precision = .ok text ∧ parse text = .ok (some v) := by
  have count : 0 < v.digitCount := List.length_pos_iff.mpr (Numeral.digits_ne_nil _)
  have fits : ¬ v.exponent + v.digitCount = 9223372036854775808 ↔
      InWord (v.exponent + v.digitCount) := by
    unfold InWord at *
    omega
  split
  · rename_i last
    refine render_eq_overflow ?_ (fun held => fits.mpr held last) precision
    rcases hv with rfl | normal
    · cases last
    · exact normal.pos.ne'
  · rename_i below
    exact ⟨_, render_eq_text (.inr (fits.mp below)) precision, parse_text hv word lead precision⟩

section

variable {text : String}
  (range : ∀ l : Literal, l.WrittenAs (Text.trim text.toList) → l.InRange)

include range

theorem parse_of_written {l : Literal} (written : l.WrittenAs (Text.trim text.toList)) :
    parse text = .ok (some l.number.normalize) := by
  rw [written.parse_eq (range l written).power, (range l written).read]
  rfl

/-- What is read is the number of a literal between the blanks. -/
theorem written_of_parse (h : parse text = .ok (some v)) :
    ∃ l : Literal, l.WrittenAs (Text.trim text.toList) ∧ l.number.normalize = v := by
  rcases parse_cases text with none | ⟨l, written, _⟩
  · cases none.symm.trans h
  · exact ⟨l, written,
      Option.some.inj (Except.ok.inj ((parse_of_written range written).symm.trans h))⟩

theorem parse_eq_none_iff :
    parse text = .ok none ↔ ¬ ∃ l : Literal, l.WrittenAs (Text.trim text.toList) := by
  constructor
  · rintro none ⟨l, written⟩
    cases none.symm.trans (parse_of_written range written)
  · intro missing
    rcases parse_cases text with none | ⟨l, written, _⟩
    · exact none
    · exact absurd ⟨l, written⟩ missing

end

/-- Reading and writing decimal numbers. A number in normal form is read back from its text, in each
precision, and it has one unless the place above its leading digit is beyond the word. A text is
read if and only if there is a literal between its blanks, as far as words hold the powers of ten,
and what is read is in normal form, no negative zero, and the number that the literal denotes. -/
theorem text_round_trip (precision : Nat) :
    (∀ v : Decimal, (v = zero ∨ v.Normal) → InWord v.exponent →
      InWord (v.exponent + v.digitCount - 1) →
      if v.exponent + v.digitCount = 9223372036854775808 then
        v.render precision = .error .overflow
      else ∃ text, v.render precision = .ok text ∧ parse text = .ok (some v)) ∧
    ∀ text : String, (∀ l : Literal, l.WrittenAs (Text.trim text.toList) → l.InRange) →
      ((∃ v, parse text = .ok (some v)) ↔
        ∃ l : Literal, l.WrittenAs (Text.trim text.toList)) ∧
      (parse text = .ok none ↔ ¬ ∃ l : Literal, l.WrittenAs (Text.trim text.toList)) ∧
      ∀ v, parse text = .ok (some v) → (v = zero ∨ v.Normal) ∧ (v.value = 0 → v.negative = false) ∧
        ∀ l : Literal, l.WrittenAs (Text.trim text.toList) → v.value = l.value := by
  refine ⟨fun v hv word lead => render_cases hv word lead precision, fun text range =>
    ⟨⟨?_, ?_⟩, parse_eq_none_iff range, fun v h => ?_⟩⟩
  · rintro ⟨v, h⟩
    obtain ⟨l, written, _⟩ := written_of_parse range h
    exact ⟨l, written⟩
  · rintro ⟨l, written⟩
    exact ⟨_, parse_of_written range written⟩
  · obtain ⟨l, written, rfl⟩ := written_of_parse range h
    obtain ⟨normal, value⟩ := l.normalize_number
    refine ⟨normal, fun none => ?_, fun l' written' => ?_⟩
    · rcases normal with zero | normal
      · rw [zero]
        rfl
      · exact absurd none (value_ne_zero normal)
    · rw [value, written.unique written']

/-- The leading digit of `1e9223372036854775807` is in the last place that a word holds, and the
number has no text. -/
theorem render_overflow :
    (⟨false, 1, 9223372036854775807⟩ : Decimal).Normal ∧ InWord 9223372036854775807 ∧
      (⟨false, 1, 9223372036854775807⟩ : Decimal).digitCount = 1 ∧
      ∀ precision, render ⟨false, 1, 9223372036854775807⟩ precision = .error .overflow := by
  have one : Numeral.digits 10 1 = ['1'] := by decide +kernel
  have count : (⟨false, 1, 9223372036854775807⟩ : Decimal).digitCount = 1 := by
    rw [digitCount, one]
    rfl
  refine ⟨by decide, by decide, count, render_eq_overflow (by decide) ?_⟩
  rw [count]
  decide

theorem text_round_trip_half_thousand :
    (∃ text, (⟨true, 125, -9⟩ : Decimal).render 12 = .ok text ∧
        parse text = .ok (some ⟨true, 125, -9⟩)) ∧
      ∃ v, parse " -0.50E+3 " = .ok (some v) ∧ v.value = -500 := by
  obtain ⟨written, read⟩ := text_round_trip 12
  refine ⟨(if_neg (by decide +kernel)).mp <|
    written ⟨true, 125, -9⟩ (.inr (by decide)) (by decide) (by decide), ?_⟩
  let l : Literal := ⟨true, ['0'], ['5', '0'], 3⟩
  have number : l.value = -500 := by
    rw [← l.value_number]
    show (⟨true, 50, 1⟩ : Decimal).value = -500
    norm_num [Decimal.value, magnitude, signed]
  have literal : l.WrittenAs (Text.trim " -0.50E+3 ".toList) := by
    have digits : PointText ['0', '.', '5', '0'] ['0'] ['5', '0'] :=
      ⟨.inl rfl, by simp, by simp [isDigit]⟩
    have power : IntegerText ['+', '3'] 3 := .intro .plus (by simp) (by simp [isDigit])
    exact .intro rfl .minus digits (.marked (.inr rfl) power)
  have range : l.InRange := by
    refine ⟨by decide, by decide, fun v normal same => ?_⟩
    have known : v = ⟨true, 5, 2⟩ := by
      refine eq_of_value (.inr normal) (.inr (by decide)) (same.trans (number.trans ?_))
      norm_num [Decimal.value, magnitude, signed]
    rw [known]
    decide
  obtain ⟨found, right⟩ := read " -0.50E+3 " fun l' written' => literal.unique written' ▸ range
  obtain ⟨v, h⟩ := found.mpr ⟨l, literal⟩
  exact ⟨v, h, ((right.2 v h).2.2 l literal).trans number⟩

end StackCalc.Decimal
