import StackCalc.Proofs.Lockstep

/-! # Arithmetic in words

With words of some width, integer arithmetic is that of a machine whose stack holds bit vectors of
the width. Each step wraps its result, and the flags of the word tell whether the exact result was
out of range. -/

namespace StackCalc.WordMachine

open Session

/-! ## 1. The reference machine -/

/-- The operations on words. -/
inductive Op where
  | add | sub | mul | neg | square | and | or | xor | not | shiftLeft | shiftRight
deriving DecidableEq

def Op.keyword : Op → String
  | .add => "+"
  | .sub => "-"
  | .mul => "*"
  | .neg => "neg"
  | .square => "sq"
  | .and => "and"
  | .or => "or"
  | .xor => "xor"
  | .not => "not"
  | .shiftLeft => "shl"
  | .shiftRight => "shr"

/-- Integers of any size are pushed and operations called by name. -/
inductive Command where
  | literal (n : Int)
  | call (op : Op)

def Command.instruction : Command → Instruction
  | .literal n => .number (.integer n) .none
  | .call op => .keyword op.keyword

/-- What a step stores: a bit vector, and the exact integer that it is the wrapped form of. Where
the bits themselves are combined there is no such integer. -/
structure Result (w : Word) where
  vector : BitVec w.bits
  exact : Option Int := none
deriving DecidableEq

variable {w : Word}

/-- Whether a result was out of range before it was wrapped. -/
def Result.wrapped (r : Result w) : Bool := r.exact.any fun n => !w.inRange n

/-- The distance of a shift. -/
def distance (n : Int) : Option Nat := if 0 ≤ n ∧ n ≤ 2 ^ 20 then some n.toNat else none

/-- A function of the top vector, and the vectors below. -/
def unary (f : BitVec w.bits → Result w) :
    List (BitVec w.bits) → Option (Result w × List (BitVec w.bits))
  | a :: s => some (f a, s)
  | [] => none

/-- A function of the top two vectors, the lower one first, and the vectors below. -/
def binary (f : BitVec w.bits → BitVec w.bits → Option (Result w)) :
    List (BitVec w.bits) → Option (Result w × List (BitVec w.bits))
  | b :: a :: s => (f a b).map (·, s)
  | _ => none

def Op.step (w : Word) : Op → List (BitVec w.bits) → Option (Result w × List (BitVec w.bits))
  | .add => binary fun a b => some ⟨a + b, some (w.read a + w.read b)⟩
  | .sub => binary fun a b => some ⟨a - b, some (w.read a - w.read b)⟩
  | .mul => binary fun a b => some ⟨a * b, some (w.read a * w.read b)⟩
  | .neg => unary fun a => ⟨-a, some (-w.read a)⟩
  | .square => unary fun a => ⟨a * a, some (w.read a * w.read a)⟩
  | .and => binary fun a b => some { vector := a &&& b }
  | .or => binary fun a b => some { vector := a ||| b }
  | .xor => binary fun a b => some { vector := a ^^^ b }
  | .not => unary fun a => { vector := ~~~a }
  | .shiftLeft => binary fun a b =>
    (distance (w.read b)).map fun n => ⟨a <<< n, some (w.read a * 2 ^ n)⟩
  | .shiftRight => binary fun a b =>
    (distance (w.read b)).map fun n => { vector := w.shiftRight a n }

/-- What a command stores, and the vectors that it leaves below. -/
def Command.step (w : Word) :
    Command → List (BitVec w.bits) → Option (Result w × List (BitVec w.bits))
  | .literal n, s => some (⟨.ofInt w.bits n, some n⟩, s)
  | .call op, s => op.step w s

/-- The stack after a command. Where it is not defined, nothing happens. -/
def Command.after (w : Word) (c : Command) (s : List (BitVec w.bits)) : List (BitVec w.bits) :=
  match c.step w s with
  | some (r, rest) => r.vector :: rest
  | none => s

/-- The stack after some commands. -/
def run (w : Word) (commands : List Command) : List (BitVec w.bits) :=
  commands.foldl (fun s c => c.after w s) []

/-- The value of a bit vector. -/
def value (w : Word) (x : BitVec w.bits) : Value := .integer (w.read x)

/-! ## 2. Functions of integers -/

/-- The integer that is computed for a result: the exact one if there is one, and else the reading
of the vector. -/
def Result.Of (r : Result w) (n : Int) : Prop :=
  match r.exact with
  | some k => n = k ∧ BitVec.ofInt w.bits n = r.vector
  | none => n = w.read r.vector

/-- The integer of a result, or a failure where there is none. -/
def Computes (x : Except Error Operand) : Option (Result w) → Prop :=
  Gives Value.integer (fun n r => r.Of n) x

/-- Shifts take the distances up to the largest one, and refuse all others. -/
theorem shiftDistance_eq (op : String) (n : Int) :
    (∃ e, Catalogue.shiftDistance op n = .error e ∧ distance n = none) ∨
      ∃ k, Catalogue.shiftDistance op n = .ok k ∧ distance n = some k := by
  by_cases index : 0 ≤ n ∧ n < Value.indexBound
  · have taken : (Value.integer n).toIndex "shift" = .ok n.toNat := if_pos index
    by_cases large : Catalogue.maxShift < n.toNat
    · refine .inl ⟨.invalidArgument (.shiftTooLarge op n.toNat Catalogue.maxShift), ?_, ?_⟩
      · rw [Catalogue.shiftDistance, taken, ok_bind, if_pos large]
        rfl
      · rw [Catalogue.maxShift] at large
        exact if_neg (by omega)
    · refine .inr ⟨n.toNat, ?_, ?_⟩
      · rw [Catalogue.shiftDistance, taken, ok_bind, if_neg large]
        rfl
      · rw [Catalogue.maxShift] at large
        exact if_pos (by omega)
  · have refused : (Value.integer n).toIndex "shift" =
        .error (.invalidArgument (.indexOutOfRange "shift" n)) := if_neg index
    refine .inl ⟨.invalidArgument (.indexOutOfRange "shift" n), ?_, ?_⟩
    · rw [Catalogue.shiftDistance, refused]
      rfl
    · rw [Value.indexBound] at index
      exact if_neg (by omega)

/-! ## 3. Lock step -/

/-- A session that shows the stack after a step, and whose flag of the word is raised if the result
was wrapped. -/
def Fits (style : NumberStyle) : Result style.word × List (BitVec style.word.bits) →
    Session → Prop
  | (r, rest), m => m.Shows style ((r.vector :: rest).map (value style.word)) ∧
      m.flags.overflow = (style.signed && r.wrapped) ∧
      m.flags.carry = (!style.signed && r.wrapped)

section
variable {m : Session} {style : NumberStyle} {stack : List (BitVec style.word.bits)}
  (hw : 0 < style.wordBits)

include hw

/-- How the integer of a result is stored. -/
theorem store_result {r : Result style.word} {n : Int} (hr : r.Of n) :
    let e := Entry.store (.integer n) .none style
    e.value = value style.word r.vector ∧ e.flags.overflow = (style.signed && r.wrapped) ∧
      e.flags.carry = (!style.signed && r.wrapped) := by
  have reduced : (Value.integer n).reduce = .integer n := rfl
  rw [Entry.store_word hw reduced]
  obtain ⟨x, exact⟩ := r
  cases exact with
  | some k =>
    obtain ⟨rfl, hx⟩ := hr
    exact ⟨congrArg (value style.word) hx, Bool.and_comm _ _, Bool.and_comm _ _⟩
  | none =>
    have hn : n = style.word.read x := hr
    have inRange : style.word.inRange n = true := hn ▸ Word.inRange_read hw x
    refine ⟨?_, ?_, ?_⟩
    · rw [hn, Word.ofInt_read]
      rfl
    · simp [inRange, Result.wrapped]
    · simp [inRange, Result.wrapped]

theorem fits_of_stores {i : Instruction} {rest : List (BitVec style.word.bits)} {n : Int}
    {r : Result style.word} (hr : r.Of n)
    (h : Stores i m style (.integer n) (rest.map (value style.word))) :
    Fits style (r, rest) (runOne i m).2 := by
  obtain ⟨stored, overflow, carry⟩ := store_result hw hr
  refine ⟨?_, h.flags ▸ overflow, h.flags ▸ carry⟩
  rw [List.map_cons, ← stored]
  exact h.shown

variable (hm : m.Shows style (stack.map (value style.word)))

include hm

theorem follows_unary (op : Operation) {name : String} {s : Signature}
    {f : Settings → Operand → Except Error Operand}
    {g : BitVec style.word.bits → Result style.word} (hop : op ∈ Registry.operations)
    (hrun : op.action = .primitive (Calc.unary name s f)) (hargs : op.minArgs = 1)
    (hc : ∀ a, Computes (s.apply name (Calc.ofSingle name f) m.settings
      [.plain (value style.word a)]) (some (g a))) :
    Follows (Fits style) (.keyword op.name) m (unary g stack) := by
  match stack with
  | [] => exact refuses_few 1 hop hrun hargs hm (by simp)
  | a :: rest =>
    have enough : 1 ≤ ((a :: rest).map (value style.word)).length := by simp
    show Follows (Fits style) (.keyword op.name) m ((some (g a)).map (·, rest))
    exact follows_applied 1 hop hrun hargs hm enough (hc a) fun _ _ => fits_of_stores hw

theorem follows_binary (op : Operation) {name : String} {s : Signature}
    {f : Settings → Operand → Operand → Except Error Operand}
    {g : BitVec style.word.bits → BitVec style.word.bits → Option (Result style.word)}
    (hop : op ∈ Registry.operations) (hrun : op.action = .primitive (Calc.binary name s f))
    (hargs : op.minArgs = 2)
    (hc : ∀ a b, Computes (s.apply name (Calc.ofPair name f) m.settings
      [.plain (value style.word a), .plain (value style.word b)]) (g a b)) :
    Follows (Fits style) (.keyword op.name) m (binary g stack) := by
  match stack with
  | [] => exact refuses_few 2 hop hrun hargs hm (by simp)
  | [_] => exact refuses_few 2 hop hrun hargs hm (by simp)
  | b :: a :: rest =>
    have enough : 2 ≤ ((b :: a :: rest).map (value style.word)).length := by simp
    exact follows_applied 2 hop hrun hargs hm enough (hc a b) fun _ _ => fits_of_stores hw

theorem word_settings : Catalogue.word? m.settings = some style.word := by
  rw [Catalogue.word?, hm.style, if_neg (Nat.ne_of_gt hw)]
  rfl

/-- A bitwise operation combines the bits of two vectors. -/
theorem follows_bitwise (op : Operation) {name : String} {f : Int → Int → Int}
    {g : BitVec style.word.bits → BitVec style.word.bits → BitVec style.word.bits}
    (hop : op ∈ Catalogue.integers) (hrun : op.action = .primitive (Catalogue.bitwise name f))
    (hargs : op.minArgs = 2)
    (hf : ∀ a b, style.word.ofPattern (f (style.word.pattern (style.word.read a))
      (style.word.pattern (style.word.read b))) = style.word.read (g a b)) :
    Follows (Fits style) (.keyword op.name) m
      (binary (fun a b => some { vector := g a b }) stack) := by
  refine follows_binary hw hm op (Registry.mem_of_integers hop) hrun hargs fun a b => ?_
  refine ⟨_, rfl, ?_⟩
  show _ = style.word.read (g a b)
  rw [word_settings hw hm]
  exact hf a b

/-- A shift takes its distance from the top and refuses what is none. -/
theorem follows_shift (op : Operation) {name : String} {f : Settings → Int → Nat → Int}
    {g : BitVec style.word.bits → Nat → Result style.word}
    (hop : op ∈ Catalogue.integers)
    (hrun : op.action = .primitive (Catalogue.onIntegers name fun s a n =>
      (Catalogue.shiftDistance name n).map (f s a)))
    (hargs : op.minArgs = 2) (hf : ∀ a n, (g a n).Of (f m.settings (style.word.read a) n)) :
    Follows (Fits style) (.keyword op.name) m
      (binary (fun a b => (distance (style.word.read b)).map (g a)) stack) := by
  refine follows_binary hw hm op (Registry.mem_of_integers hop) hrun hargs fun a b => ?_
  rcases shiftDistance_eq name (style.word.read b) with ⟨e, he, hd⟩ | ⟨n, hn, hd⟩
  · rw [hd]
    refine ⟨e, ?_⟩
    show (Except.map _ (Catalogue.shiftDistance name (style.word.read b)) >>= _) = _
    rw [he]
    rfl
  · rw [hd]
    refine ⟨f m.settings (style.word.read a) n, ?_, hf a n⟩
    show (Except.map _ (Catalogue.shiftDistance name (style.word.read b)) >>= _) = _
    rw [hn]
    rfl

theorem follows_call (op : Op) :
    Follows (Fits style) (.keyword op.keyword) m (op.step style.word stack) := by
  cases op with
  | add =>
    exact follows_binary hw hm Catalogue.add
      (Registry.mem_of_numeric (by simp [Catalogue.numeric])) rfl rfl fun a b =>
        ⟨_, rfl, rfl, by rw [BitVec.ofInt_add, Word.ofInt_read, Word.ofInt_read]⟩
  | sub =>
    exact follows_binary hw hm Catalogue.sub
      (Registry.mem_of_numeric (by simp [Catalogue.numeric])) rfl rfl fun a b =>
        ⟨_, rfl, rfl, by rw [Int.sub_eq_add_neg, BitVec.ofInt_add, BitVec.ofInt_neg,
          Word.ofInt_read, Word.ofInt_read, ← BitVec.sub_eq_add_neg]⟩
  | mul =>
    exact follows_binary hw hm Catalogue.mul
      (Registry.mem_of_numeric (by simp [Catalogue.numeric])) rfl rfl fun a b =>
        ⟨_, rfl, rfl, by rw [BitVec.ofInt_mul, Word.ofInt_read, Word.ofInt_read]⟩
  | neg =>
    exact follows_unary hw hm Catalogue.neg
      (Registry.mem_of_numeric (by simp [Catalogue.numeric])) rfl rfl fun a =>
        ⟨_, rfl, rfl, by rw [BitVec.ofInt_neg, Word.ofInt_read]⟩
  | square =>
    exact follows_unary hw hm Catalogue.square
      (Registry.mem_of_numeric (by simp [Catalogue.numeric])) rfl rfl fun a =>
        ⟨_, rfl, rfl, by rw [BitVec.ofInt_mul, Word.ofInt_read]⟩
  | and =>
    exact follows_bitwise hw hm Catalogue.bitAnd (by simp [Catalogue.integers]) rfl rfl
      (Word.ofPattern_land hw)
  | or =>
    exact follows_bitwise hw hm Catalogue.bitOr (by simp [Catalogue.integers]) rfl rfl
      (Word.ofPattern_lor hw)
  | xor =>
    exact follows_bitwise hw hm Catalogue.bitXor (by simp [Catalogue.integers]) rfl rfl
      (Word.ofPattern_xor hw)
  | not =>
    refine follows_unary hw hm Catalogue.bitNot
      (Registry.mem_of_integers (by simp [Catalogue.integers])) rfl rfl fun a => ⟨_, rfl, ?_⟩
    show Catalogue.complement m.settings (style.word.read a) = _
    rw [Catalogue.complement, word_settings hw hm]
    exact Word.ofPattern_not hw a
  | shiftLeft =>
    refine follows_shift hw hm Catalogue.shiftLeft (by simp [Catalogue.integers]) rfl rfl
      fun a n => ⟨?_, Word.ofInt_shiftLeft a n⟩
    exact Int.shiftLeft_eq _ _
  | shiftRight =>
    refine follows_shift hw hm Catalogue.shiftRight (by simp [Catalogue.integers]) rfl rfl
      fun a n => ?_
    show Catalogue.shiftedRight m.settings (style.word.read a) n = _
    rw [Catalogue.shiftedRight, word_settings hw hm]
    exact Word.read_shiftRight a n

theorem follows_command (c : Command) :
    Follows (Fits style) c.instruction m (c.step style.word stack) := by
  cases c with
  | literal n =>
    have stores := stores_number hm (.integer n)
    exact ⟨stores.ok, fits_of_stores hw ⟨rfl, rfl⟩ stores⟩
  | call op => exact follows_call hw hm op

/-- One command keeps a session in step, whether it succeeds or not. -/
theorem shows_runOne (c : Command) :
    (runOne c.instruction m).2.Shows style
      ((c.after style.word stack).map (value style.word)) := by
  have followed := follows_command hw hm c
  unfold Command.after
  cases hs : c.step style.word stack with
  | none =>
    rw [hs] at followed
    rw [followed.unchanged]
    exact hm
  | some next =>
    rw [hs] at followed
    exact followed.2.1

end

/-- Integer arithmetic in words is in lock step with bit vectors: after any commands the session
holds the integers in range that have the residues of the reference stack. Any further command
succeeds just where its reference step is defined. It then stores the vector of that step, and the
flag of the word, overflow if it is signed and carry if not, tells whether the exact result was out
of range. -/
theorem lockstep_bits (settings : Settings) (clock : Int) (hw : 0 < settings.style.wordBits)
    (hl : settings.stackLimit = none) (commands : List Command) (next : Command) :
    let w := settings.style.word
    let m := (Session.run (commands.map Command.instruction) (Machine.start settings clock)).2
    m.stack.entries.map Entry.value = (run w commands).map (fun x => .integer (w.read x)) ∧
      (∀ x n, n = w.read x ↔ w.inRange n = true ∧ BitVec.ofInt w.bits n = x) ∧
      (∀ e ∈ m.stack.entries, e.unit = .none) ∧
      ((runOne next.instruction m).1 = .ok () ↔ (next.step w (run w commands)).isSome) ∧
      ∀ r rest, next.step w (run w commands) = some (r, rest) →
        let after := (runOne next.instruction m).2
        after.stack.entries.map Entry.value =
            (r.vector :: rest).map (fun x => .integer (w.read x)) ∧
          after.flags.overflow = (w.signed && r.wrapped) ∧
          after.flags.carry = (!w.signed && r.wrapped) := by
  intro w m
  have shown : m.Shows settings.style ((run w commands).map (value w)) :=
    shows_run (fun c _ _ hm => shows_runOne hw hm c) commands _ []
      (Machine.shows_start settings clock hl)
  have followed := follows_command hw shown next
  refine ⟨shown.values_eq, fun x n => Word.eq_read_iff hw, shown.units_eq,
    followed.succeeds_iff, fun r rest hr => ?_⟩
  rw [hr] at followed
  exact ⟨followed.2.1.values_eq, followed.2.2⟩

/-- In signed words of eight bits 200 is -56, which makes 44 with 100 and 88 when shifted. -/
def doublings : List Command :=
  [.literal 100, .literal 200, .call .add, .literal 1, .call .shiftLeft, .literal 88]

/-- The sum of 88 and 88 wraps to -80 and overflows. -/
theorem lockstep_bits_doublings :
    let m := (Session.run (doublings.map Command.instruction)
      (Machine.start { style := { wordBits := 8 } } 0)).2
    let after := (runOne (Command.call .add).instruction m).2
    m.stack.entries.map Entry.value = [.integer 88, .integer 88] ∧
      after.stack.entries.map Entry.value = [.integer (-80)] ∧
      after.flags.overflow = true ∧ after.flags.carry = false := by
  have vectors : run ⟨8, true⟩ doublings = [88, 88] := by decide +kernel
  have lockstep := lockstep_bits { style := { wordBits := 8 } } 0 (by decide) rfl doublings
    (.call .add)
  have sum := lockstep.2.2.2.2 ⟨-80, some 176⟩ [] (by decide +kernel)
  exact ⟨lockstep.1.trans (congrArg (List.map _) vectors), sum⟩

end StackCalc.WordMachine
