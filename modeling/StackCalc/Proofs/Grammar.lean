import StackCalc.Proofs.Numerals
import StackCalc.Value.Printer

/-! # The grammar of expressions

How a text with infix operators is read: sums and products group to the left, powers to the right,
and parentheses around anything. A text is read in one way at most. The text of an expression whose
constants are integers is read as that expression, so no two of them have the same text. -/

namespace StackCalc

/-! ## 1. Characters -/

/-- The operators that are written between their operands. -/
inductive Infix where
  | add | sub | mul | div | pow
deriving DecidableEq

namespace Infix

def char : Infix → Char
  | add => '+'
  | sub => '-'
  | mul => '*'
  | div => '/'
  | pow => '^'

def name (op : Infix) : String := String.singleton op.char

/-- How tightly an operator binds. -/
def level : Infix → Nat
  | add | sub => 1
  | mul | div => 2
  | pow => 3

/-- The level of the left operand. Sums and products group to the left. -/
def leftLevel : Infix → Nat
  | add | sub => 1
  | mul | div => 2
  | pow => 4

/-- The level of the right operand. Powers group to the right. -/
def rightLevel : Infix → Nat
  | add | sub => 2
  | mul | div | pow => 3

/-- Operands come in chains but for those of powers. -/
theorem chained_or_pow (op : Infix) :
    (op.level < 3 ∧ op.leftLevel = op.level ∧ op.rightLevel = op.level + 1) ∨ op = pow := by
  cases op <;> decide

theorem precedence_name (op : Infix) : Expr.precedence? op.name = some op.level := by
  cases op <;> decide

theorem char_injective {op op' : Infix} (h : op.char = op'.char) : op = op' := by
  cases op <;> cases op' <;> first | rfl | cases h

end Infix

/-! ## 2. Reading -/

namespace Grammar

/-- The characters of names and numerals: all but the operators and parentheses. -/
def isWord (c : Char) : Bool := c ∉ ['+', '-', '*', '/', '^', '(', ')']

/-- The expression that a word stands for: an integer, or else a variable. -/
def ofWord (word : List Char) : Expr :=
  if word.all Numeral.isDigit then .const (.integer (Numeral.value word))
  else .var (String.ofList word)

/-- Reads a word, or a numeral with its sign. -/
def atom? : List Char → Option (Expr × List Char)
  | '-' :: cs =>
    let word := cs.takeWhile isWord
    if word ≠ [] ∧ word.all Numeral.isDigit then
      some (.const (.integer (-Numeral.value word)), cs.dropWhile isWord)
    else none
  | cs =>
    let word := cs.takeWhile isWord
    if word ≠ [] then some (ofWord word, cs.dropWhile isWord) else none

mutual

/-- Some characters begin with the text of an expression on a level, and others come after it. The
levels are those of sums, products, powers, and of operands. -/
inductive Reads : Nat → List Char → Expr → List Char → Prop
  | atom {cs rest : List Char} {e : Expr} (h : atom? cs = some (e, rest)) : Reads 4 cs e rest
  | group {cs rest : List Char} {e : Expr} (h : Reads 1 cs e (')' :: rest)) :
      Reads 4 ('(' :: cs) e rest
  | base {cs rest : List Char} {e : Expr} (h : Reads 4 cs e rest)
      (last : ∀ after, rest ≠ '^' :: after) : Reads 3 cs e rest
  | power {cs mid rest : List Char} {l r : Expr} (left : Reads 4 cs l ('^' :: mid))
      (right : Reads 3 mid r rest) : Reads 3 cs (.apply Infix.pow.name [l, r]) rest
  | chain {k : Nat} (hk : k < 3) {cs mid rest : List Char} {first e : Expr}
      (h : Reads (k + 1) cs first mid) (others : Continues k first mid e rest) : Reads k cs e rest

/-- An expression on a level is continued by further operands. -/
inductive Continues : Nat → Expr → List Char → Expr → List Char → Prop
  | stop {k : Nat} {e : Expr} {cs : List Char}
      (last : ∀ op : Infix, op.level = k → ∀ after, cs ≠ op.char :: after) : Continues k e cs e cs
  | next {k : Nat} (op : Infix) (level : op.level = k) {cs mid rest : List Char} {l r e : Expr}
      (right : Reads (k + 1) cs r mid) (others : Continues k (.apply op.name [l, r]) mid e rest) :
      Continues k l (op.char :: cs) e rest

end

theorem atom_open (cs : List Char) : atom? ('(' :: cs) = none := rfl

mutual

/-- A text is read in one way at most. -/
theorem Reads.unique : ∀ {k : Nat} {cs rest rest' : List Char} {e e' : Expr},
    Reads k cs e rest → Reads k cs e' rest' → e = e' ∧ rest = rest'
  | _, _, _, _, _, _, .atom h, h' => by
    cases h' with
    | atom h' => exact Prod.mk.inj (Option.some.inj (h.symm.trans h'))
    | group _ => cases (atom_open _).symm.trans h
    | chain hk _ _ => omega
  | _, _, _, _, _, _, .group h, h' => by
    cases h' with
    | atom h' => cases (atom_open _).symm.trans h'
    | group h' =>
      obtain ⟨same, rest⟩ := h.unique h'
      exact ⟨same, (List.cons.inj rest).2⟩
    | chain hk _ _ => omega
  | _, _, _, _, _, _, .base h last, h' => by
    cases h' with
    | base h' _ => exact h.unique h'
    | power left _ => exact absurd (h.unique left).2 (last _)
    | chain hk _ _ => omega
  | _, _, _, _, _, _, .power left right, h' => by
    cases h' with
    | base h' last => exact absurd (left.unique h').2.symm (last _)
    | power left' right' =>
      obtain ⟨rfl, mid⟩ := left.unique left'
      cases mid
      obtain ⟨rfl, rest⟩ := right.unique right'
      exact ⟨rfl, rest⟩
    | chain hk _ _ => omega
  | _, _, _, _, _, _, .chain hk h others, h' => by
    cases h' with
    | atom _ => omega
    | group _ => omega
    | base _ _ => omega
    | power _ _ => omega
    | chain _ h' others' =>
      obtain ⟨rfl, rfl⟩ := h.unique h'
      exact others.unique others'

theorem Continues.unique : ∀ {k : Nat} {cs rest rest' : List Char} {l e e' : Expr},
    Continues k l cs e rest → Continues k l cs e' rest' → e = e' ∧ rest = rest'
  | _, _, _, _, _, _, _, .stop last, h' => by
    cases h' with
    | stop _ => exact ⟨rfl, rfl⟩
    | next op level _ _ => exact absurd rfl (last op level _)
  | _, _, _, _, _, _, _, .next op level right others, h' => by
    generalize same : op.char :: _ = cs at h'
    cases h' with
    | stop last => exact absurd same.symm (last op level _)
    | next op' level' right' others' =>
      obtain ⟨char, rfl⟩ := List.cons.inj same
      cases Infix.char_injective char
      obtain ⟨rfl, rfl⟩ := right.unique right'
      exact others.unique others'

end

/-! ## 3. Texts that are read -/

/-- What may come after an expression on a level: nothing that a word goes on with, and no operator
of that level or above it. -/
def Ends (k : Nat) (cs : List Char) : Prop :=
  ∀ c ∈ cs.head?, isWord c = false ∧ ∀ op : Infix, op.char = c → op.level < k

theorem ends_nil (k : Nat) : Ends k [] := fun _ h => nomatch h

theorem ends_close (k : Nat) (cs : List Char) : Ends k (')' :: cs) := by
  intro c hc
  cases hc
  exact ⟨rfl, fun op h => by cases op <;> cases h⟩

theorem ends_operator {k : Nat} {op : Infix} (h : op.level < k) (cs : List Char) :
    Ends k (op.char :: cs) := by
  intro c hc
  cases hc
  refine ⟨by cases op <;> rfl, fun op' same => ?_⟩
  rwa [Infix.char_injective same]

theorem Ends.mono {j k : Nat} {cs : List Char} (h : Ends j cs) (hjk : j ≤ k) : Ends k cs :=
  fun c hc => ⟨(h c hc).1, fun op same => Nat.lt_of_lt_of_le ((h c hc).2 op same) hjk⟩

/-- No operator of the level comes after it. -/
theorem Ends.ne_operator {k : Nat} {cs : List Char} (h : Ends k cs) {op : Infix} (hk : k ≤ op.level)
    (after : List Char) : cs ≠ op.char :: after := by
  rintro rfl
  have below := (h op.char rfl).2 op rfl
  omega

/-- Characters that are read as an expression on a level, whatever comes after them, and that
further operands may follow on the levels of sums and products. -/
structure Writes (k : Nat) (text : List Char) (e : Expr) : Prop where
  read : ∀ rest, Ends k rest → Reads k (text ++ rest) e rest
  continued : k < 3 → ∀ mid x rest, Ends (k + 1) mid → Continues k e mid x rest →
    Reads k (text ++ mid) x rest

namespace Writes

variable {k : Nat} {text : List Char} {e : Expr}

/-- Without further operands the expression is read as it is. -/
theorem of_continued (continued : ∀ mid x rest, Ends (k + 1) mid → Continues k e mid x rest →
    Reads k (text ++ mid) x rest) : Writes k text e := by
  refine ⟨fun rest ends => ?_, fun _ => continued⟩
  refine continued rest e rest (ends.mono (Nat.le_succ k)) (.stop fun op level after => ?_)
  exact ends.ne_operator (Nat.le_of_eq level.symm) after

/-- An operand is a power, a product and a sum of one operand. -/
theorem lower (hk : k < 4) (h : Writes (k + 1) text e) : Writes k text e := by
  by_cases chained : k < 3
  · exact of_continued fun mid _ _ ends others => .chain chained (h.read mid ends) others
  · obtain rfl : k = 3 := by omega
    refine ⟨fun rest ends => ?_, fun h => absurd h chained⟩
    have last (after : List Char) : rest ≠ '^' :: after := by
      exact ends.ne_operator (Nat.le_refl Infix.pow.level) after
    exact .base (h.read rest (ends.mono (Nat.le_succ 3))) last

theorem down {j : Nat} (hk : k ≤ 4) (h : Writes k text e) (hjk : j ≤ k) : Writes j text e := by
  induction hjk with
  | refl => exact h
  | step _ ih => exact ih (by omega) (h.lower (by omega))

/-- An expression in parentheses is an operand. -/
theorem group (h : Writes 1 text e) : Writes 4 ('(' :: text ++ [')']) e := by
  refine ⟨fun rest _ => ?_, fun h => absurd h (by omega)⟩
  have inside := h.read (')' :: rest) (ends_close 1 rest)
  have same : '(' :: text ++ [')'] ++ rest = '(' :: (text ++ ')' :: rest) := by simp
  rw [same]
  exact .group inside

end Writes

/-! ## 4. Words and numerals -/

/-- Characters of words come up to the first that is none. -/
theorem span_word {word rest : List Char} (h : ∀ c ∈ word, isWord c = true)
    (ends : ∀ c ∈ rest.head?, isWord c = false) :
    (word ++ rest).takeWhile isWord = word ∧ (word ++ rest).dropWhile isWord = rest := by
  rw [List.takeWhile_append_of_pos h, List.dropWhile_append_of_pos h]
  cases rest with
  | nil => simp
  | cons c rest =>
    have other : isWord c = false := ends c rfl
    simp [other]

theorem atom_word {word rest : List Char} (some : word ≠ []) (h : ∀ c ∈ word, isWord c = true)
    (ends : ∀ c ∈ rest.head?, isWord c = false) :
    atom? (word ++ rest) = .some (ofWord word, rest) := by
  obtain ⟨taken, dropped⟩ := span_word h ends
  obtain ⟨c, cs, rfl⟩ := List.exists_cons_of_ne_nil some
  have unsigned : c ≠ '-' := by
    rintro rfl
    cases h '-' List.mem_cons_self
  rw [List.cons_append] at taken dropped ⊢
  unfold atom?
  split
  · cases ‹_ :: _ = '-' :: _›
    exact absurd rfl unsigned
  · rw [taken, dropped]
    rfl

theorem atom_signed {word rest : List Char} (some : word ≠ []) (h : ∀ c ∈ word, isWord c = true)
    (digits : word.all Numeral.isDigit = true) (ends : ∀ c ∈ rest.head?, isWord c = false) :
    atom? ('-' :: (word ++ rest)) = .some (.const (.integer (-Numeral.value word)), rest) := by
  obtain ⟨taken, dropped⟩ := span_word h ends
  simp only [atom?, taken, dropped, digits]
  exact if_pos ⟨some, trivial⟩

theorem isWord_of_isDigit {c : Char} (h : Numeral.isDigit c = true) : isWord c = true := by
  obtain ⟨lower, upper⟩ := Numeral.isDigit_iff.mp h
  refine decide_eq_true fun mem => ?_
  have code : c.toNat ∈ [43, 45, 42, 47, 94, 40, 41] := List.mem_map_of_mem (f := Char.toNat) mem
  simp only [List.mem_cons, List.not_mem_nil, or_false] at code
  omega

end Grammar

/-- The names of variables: of word characters, and not the numeral of a number. -/
structure IsName (name : String) : Prop where
  word : ∀ c ∈ name.toList, Grammar.isWord c = true
  other : ∃ c ∈ name.toList, Numeral.isDigit c = false

namespace Expr

/-- Expressions with infix operators over variables and integers. -/
inductive Integral : Expr → Prop
  | var {name : String} (h : IsName name) : (Expr.var name).Integral
  | integer (n : Int) : (Expr.const (.integer n)).Integral
  | apply (op : Infix) {l r : Expr} (left : l.Integral) (right : r.Integral) :
      (Expr.apply op.name [l, r]).Integral

/-- The text of an operand on a level: in parentheses if its own operator binds less tightly. -/
def charsAt (k : Nat) (e : Expr) : List Char :=
  match e.outerPrecedence with
  | some p => if p < k then '(' :: e.text.toList ++ [')'] else e.text.toList
  | none => e.text.toList

theorem charsAt_binary (k : Nat) (op : Infix) (l r : Expr) :
    (Expr.apply op.name [l, r]).charsAt k =
      if op.level < k then '(' :: (Expr.apply op.name [l, r]).text.toList ++ [')']
      else (Expr.apply op.name [l, r]).text.toList := by
  have own : (Expr.apply op.name [l, r]).outerPrecedence = some op.level := op.precedence_name
  rw [charsAt, own]

/-- Operands are put in parentheses below a level that depends on the side that they are on. -/
theorem toList_operandText {outer k : Nat} {groups : Bool} (e : Expr)
    (h : ∀ p, (p < outer ∨ (p = outer ∧ !groups)) ↔ p < k) :
    (operandText outer groups (e.outerPrecedence, e.text)).toList = e.charsAt k := by
  unfold operandText charsAt
  cases e.outerPrecedence with
  | none => rfl
  | some p =>
    dsimp only
    simp only [h]
    split <;> simp

theorem text_binary (op : Infix) (l r : Expr) : (Expr.apply op.name [l, r]).text.toList =
    l.charsAt op.leftLevel ++ op.char :: r.charsAt op.rightLevel := by
  have left (p : Nat) : (p < op.level ∨ (p = op.level ∧ !decide (op.level ≠ 3))) ↔
      p < op.leftLevel := by
    cases op with
    | pow => simp [Infix.level, Infix.leftLevel]; omega
    | _ => simp [Infix.level, Infix.leftLevel]
  have right (p : Nat) : (p < op.level ∨ (p = op.level ∧ !decide (op.level = 3))) ↔
      p < op.rightLevel := by
    cases op with
    | pow => simp [Infix.level, Infix.rightLevel]
    | _ => simp [Infix.level, Infix.rightLevel]; omega
  simp only [text, operands, applyText, op.precedence_name]
  rw [String.toList_append, String.toList_append, toList_operandText l left,
    toList_operandText r right]
  simp [Infix.name]

/-- The text of an integer: its digits, after a sign if it is negative. -/
theorem text_integer (n : Int) : (Expr.const (.integer n)).text.toList =
    (if n < 0 then ['-'] else []) ++ Numeral.digits 10 n.natAbs := by
  show (integerText n 10).toList = _
  have base : basePrefix 10 = "" := rfl
  rw [integerText, base, String.append_empty, String.toList_append, Numeral.render,
    String.toList_ofList]
  split <;> simp

end Expr

/-! ## 5. Expressions over integers -/

namespace Grammar

open StackCalc.Expr

theorem atom_integer (n : Int) {rest : List Char} (ends : ∀ c ∈ rest.head?, isWord c = false) :
    atom? ((Expr.const (.integer n)).text.toList ++ rest) = some (.const (.integer n), rest) := by
  have digits := Numeral.isDigit_of_mem n.natAbs
  have word : ∀ c ∈ Numeral.digits 10 n.natAbs, isWord c = true :=
    fun c hc => isWord_of_isDigit (digits c hc)
  have numeral : (Numeral.digits 10 n.natAbs).all Numeral.isDigit = true :=
    List.all_eq_true.mpr digits
  rw [text_integer]
  by_cases negative : n < 0
  · have read := atom_signed (Numeral.digits_ne_nil _) word numeral ends
    rw [Numeral.value_digits, show -(n.natAbs : Int) = n by omega] at read
    rw [if_pos negative]
    exact read
  · rw [if_neg negative, List.nil_append, atom_word (Numeral.digits_ne_nil _) word ends, ofWord,
      if_pos numeral, Numeral.value_digits, show (n.natAbs : Int) = n by omega]

theorem atom_var {name : String} (h : IsName name) {rest : List Char}
    (ends : ∀ c ∈ rest.head?, isWord c = false) :
    atom? ((Expr.var name).text.toList ++ rest) = some (.var name, rest) := by
  obtain ⟨c, hc, other⟩ := h.other
  have named : ¬ name.toList.all Numeral.isDigit = true := fun all => by
    rw [List.all_eq_true.mp all c hc] at other
    cases other
  show atom? (name.toList ++ rest) = _
  rw [atom_word (List.ne_nil_of_mem hc) h.word ends, ofWord, if_neg named, String.ofList_toList]

/-- Operands that are read on the levels of an operator make an expression on its own level. -/
theorem writes_binary (op : Infix) {left right : List Char} {l r : Expr}
    (hl : Writes op.leftLevel left l) (hr : Writes op.rightLevel right r) :
    Writes op.level (left ++ op.char :: right) (.apply op.name [l, r]) := by
  rcases op.chained_or_pow with ⟨chained, first, second⟩ | rfl
  · rw [first] at hl
    rw [second] at hr
    refine .of_continued fun mid x rest ends others => ?_
    have whole := hl.continued chained (op.char :: (right ++ mid)) x rest
      (ends_operator (Nat.lt_succ_self _) _) (.next op rfl (hr.read mid ends) others)
    simpa using whole
  · refine ⟨fun rest ends => ?_, fun h => absurd h (by decide)⟩
    rw [List.append_assoc, List.cons_append]
    exact .power (hl.read _ (ends_operator (by decide) _)) (hr.read rest ends)

/-- Every expression over integers is read from its text, on every level. -/
theorem writes_charsAt {e : Expr} (h : e.Integral) : ∀ k ≤ 4, Writes k (e.charsAt k) e := by
  have operand {e : Expr} (alone : e.outerPrecedence = none)
      (read : ∀ {rest : List Char}, (∀ c ∈ rest.head?, isWord c = false) →
        atom? (e.text.toList ++ rest) = some (e, rest)) : ∀ k ≤ 4, Writes k (e.charsAt k) e := by
    intro k hk
    have writes : Writes 4 e.text.toList e :=
      ⟨fun rest ends => .atom (read fun c hc => (ends c hc).1), fun h => absurd h (by omega)⟩
    rw [charsAt, alone]
    exact writes.down (Nat.le_refl 4) hk
  induction h with
  | var name => exact operand rfl (atom_var name)
  | integer n => exact operand rfl (atom_integer n)
  | @apply op l r left right ihl ihr =>
    intro k hk
    have own : Writes op.level (Expr.apply op.name [l, r]).text.toList (.apply op.name [l, r]) := by
      rw [text_binary]
      exact writes_binary op (ihl _ (by cases op <;> decide)) (ihr _ (by cases op <;> decide))
    have whole := own.down (j := 1) (by cases op <;> decide) (by cases op <;> decide)
    rw [charsAt_binary]
    split
    · exact whole.group.down (Nat.le_refl 4) hk
    · exact own.down (by cases op <;> decide) (by omega)

/-- No two expressions over integers have the same text. -/
theorem integral_text_injective {d e : Expr} (hd : d.Integral) (he : e.Integral)
    (same : d.text = e.text) : d = e := by
  have read {x : Expr} (hx : x.Integral) : Reads 1 x.text.toList x [] := by
    have outer : x.charsAt 1 = x.text.toList := by
      cases hx with
      | var | integer => rfl
      | apply op => rw [charsAt_binary, if_neg (by cases op <;> decide)]
    have writes := (writes_charsAt hx 1 (by decide)).read [] (ends_nil 1)
    rwa [outer, List.append_nil] at writes
  have hd := read hd
  rw [same] at hd
  exact (hd.unique (read he)).1

end Grammar
end StackCalc
