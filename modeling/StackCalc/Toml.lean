import StackCalc.Numeral

/-!
The part of the TOML format that settings are written in: comments, keys, strings of one line,
numbers, booleans, arrays, inline tables and table headers. A reader takes characters from the
front of the text and leaves the rest; it has no result if the text is not of its form. Readers
that call themselves take a bound on the number of calls, for which the length of the text is
enough.

A document stays shallow: arrays and tables in one another and the parts of a key number at most
`maxDepth`.
-/

namespace StackCalc.Toml

/-- How deep arrays and inline tables may stand in one another, and of how many parts a key may
consist. -/
def maxDepth : Nat := 79

/-- How a table came about, which decides how it may still grow. -/
inductive Origin where
  | header
  | implied
  | dotted
  | inline
deriving DecidableEq, Repr

/-- A value of a document. A float is only known to be one, since no setting is a float. -/
inductive Item where
  | text (s : String)
  | integer (n : Int)
  | float
  | boolean (b : Bool)
  | array (items : List Item)
  | table (origin : Origin) (entries : List (String × Item))

/-- The entries of a table, in the order of the document. -/
abbrev Entries := List (String × Item)

namespace Entries

def replace (key : String) (v : Item) (es : Entries) : Entries :=
  es.map fun e => if e.1 = key then (key, v) else e

/-- Adds a key below a dotted path. Tables on the path come about with it, or have come about in
the same way; a header may have implied them unless they hold the key itself. -/
def insert (key : String) (v : Item) : List String → Entries → Option Entries
  | [], es => if es.any fun e => e.1 = key then none else some (es ++ [(key, v)])
  | p :: ps, es =>
    match es.lookup p with
    | none => (insert key v ps []).map fun sub => es ++ [(p, .table .dotted sub)]
    | some (.table origin sub) =>
      if origin = .dotted ∨ (origin = .implied ∧ ps ≠ []) then
        (insert key v ps sub).map fun sub => replace p (.table origin sub) es
      else none
    | some _ => none

/-- Adds the table of a header. It may have been implied, but not opened, before. -/
def openTable : List String → Entries → Option Entries
  | [], _ => none
  | [key], es =>
    match es.lookup key with
    | none => some (es ++ [(key, .table .header [])])
    | some (.table .implied sub) => some (replace key (.table .header sub) es)
    | some _ => none
  | p :: ps, es =>
    match es.lookup p with
    | none => (openTable ps []).map fun sub => es ++ [(p, .table .implied sub)]
    | some (.table origin sub) =>
      if origin = .inline then none
      else (openTable ps sub).map fun sub => replace p (.table origin sub) es
    | some _ => none

def change (f : Entries → Option Entries) : List String → Entries → Option Entries
  | [], es => f es
  | p :: ps, es =>
    match es.lookup p with
    | some (.table origin sub) =>
      (change f ps sub).map fun sub => replace p (.table origin sub) es
    | _ => none

end Entries

/-! Blanks and comments. -/

def skipBlanks (cs : List Char) : List Char := cs.dropWhile fun c => c = ' ' || c = '\t'

/-- Whether a character may stand in a comment or in a string. -/
def isPrintable (c : Char) : Bool := c = '\t' || (' ' ≤ c && c ≠ '\x7f')

/-- Skips the blanks and the comment before the end of a line. -/
def skipComment (cs : List Char) : List Char :=
  match skipBlanks cs with
  | '#' :: r => r.dropWhile isPrintable
  | r => r

/-- The text after the end of a line, or at the end of the text. -/
def endLine? (cs : List Char) : Option (List Char) :=
  match skipComment cs with
  | [] => some []
  | '\n' :: r | '\r' :: '\n' :: r => some r
  | _ => none

/-- Skips blanks, comments and ends of lines. -/
def skipLines : Nat → List Char → List Char
  | 0, cs => cs
  | fuel + 1, cs =>
    match skipComment cs with
    | '\n' :: r | '\r' :: '\n' :: r => skipLines fuel r
    | r => r

/-! Strings and keys. -/

def hexDigit? (c : Char) : Option Nat :=
  if '0' ≤ c && c ≤ '9' then some (c.toNat - 48)
  else if 'a' ≤ c && c ≤ 'f' then some (c.toNat - 87)
  else if 'A' ≤ c && c ≤ 'F' then some (c.toNat - 55)
  else none

/-- The character with a code point in `n` hexadecimal digits. -/
def codePoint? (n : Nat) (cs : List Char) : Option (Char × List Char) := do
  let ds ← (cs.take n).mapM hexDigit?
  let v := ds.foldl (fun v d => v * 16 + d) 0
  if ds.length = n ∧ v.isValidChar then some (Char.ofNat v, cs.drop n) else none

def escape? : List Char → Option (Char × List Char)
  | 'b' :: r => some ('\x08', r)
  | 't' :: r => some ('\t', r)
  | 'n' :: r => some ('\n', r)
  | 'f' :: r => some ('\x0c', r)
  | 'r' :: r => some ('\r', r)
  | '"' :: r => some ('"', r)
  | '\\' :: r => some ('\\', r)
  | 'u' :: r => codePoint? 4 r
  | 'U' :: r => codePoint? 8 r
  | _ => none

/-- The rest of a string in double quotes, in reverse before `acc`. -/
def basicString? : Nat → List Char → List Char → Option (String × List Char)
  | 0, _, _ => none
  | fuel + 1, acc, cs =>
    match cs with
    | '"' :: r => some (String.ofList acc.reverse, r)
    | '\\' :: r => (escape? r).bind fun (c, r) => basicString? fuel (c :: acc) r
    | c :: r => if isPrintable c then basicString? fuel (c :: acc) r else none
    | [] => none

/-- The rest of a string in single quotes, which has no escapes. -/
def literalString? (cs : List Char) : Option (String × List Char) :=
  let body := cs.takeWhile fun c => isPrintable c && c ≠ '\x27'
  match cs.drop body.length with
  | '\x27' :: r => some (String.ofList body, r)
  | _ => none

/-- Whether a character may stand in a key without quotes. -/
def isBare (c : Char) : Bool :=
  ('a' ≤ c && c ≤ 'z') || ('A' ≤ c && c ≤ 'Z') || ('0' ≤ c && c ≤ '9') || c = '_' || c = '-'

def simpleKey? : List Char → Option (String × List Char)
  | '"' :: r => basicString? (r.length + 1) [] r
  | '\x27' :: r => literalString? r
  | cs =>
    let name := cs.takeWhile isBare
    if name.isEmpty then none else some (String.ofList name, cs.drop name.length)

/-- A key of at most so many parts between points: the path to the last part, and that part. -/
def keyWithin? : Nat → List Char → Option (List String × String × List Char)
  | 0, _ => none
  | parts + 1, cs => do
    let (name, rest) ← simpleKey? (skipBlanks cs)
    match skipBlanks rest with
    | '.' :: r =>
      let (path, last, r) ← keyWithin? parts r
      return (name :: path, last, r)
    | r => return ([], name, r)

/-- A key: the path to its last part, and that part. -/
def key? (cs : List Char) : Option (List String × String × List Char) :=
  keyWithin? maxDepth cs

/-! Numbers. -/

/-- The digits of a numeral in which single underscores may stand between digits. -/
def digits? (isDigit : Char → Bool) (cs : List Char) : Option (List Char) :=
  let groups := cs.splitOn '_'
  if groups.all fun g => !g.isEmpty && g.all isDigit then some groups.flatten else none

/-- The digits of a decimal integer, which has no leading zeros. -/
def wholeDigits? (cs : List Char) : Option (List Char) :=
  (digits? Numeral.isDigit cs).bind fun ds =>
    if ds.head? = some '0' ∧ 1 < ds.length then none else some ds

/-- An integer that fits a signed word of 64 bits. -/
def word? (n : Int) : Option Item :=
  if -9223372036854775808 ≤ n ∧ n ≤ 9223372036854775807 then some (.integer n) else none

def radixInteger? (base : Nat) (cs : List Char) : Option Item := do
  let isDigit := fun (c : Char) => (hexDigit? c).any fun d => d < base
  let ds ← digits? isDigit cs
  word? (ds.foldl (fun v c => v * base + (hexDigit? c).getD 0) 0 : Nat)

/-- Whether `m · 10 ^ e` rounds to a double that is infinite. -/
def overflowsDouble (m : Nat) (e : Int) : Bool :=
  let lead : Int := (Numeral.digits 10 m).length + e
  if m = 0 ∨ lead < 300 then false
  else if 320 < lead then true
  else (Nat.pow 2 1024 - Nat.pow 2 970) * Nat.pow 10 (-e).toNat ≤ m * Nat.pow 10 e.toNat

/-- The sign of a number, and what follows it. -/
def splitSign : List Char → Bool × List Char
  | '-' :: r => (true, r)
  | '+' :: r => (false, r)
  | r => (false, r)

/-- The exponent of a float after its mark, or none at all. -/
def exponent? : List Char → Option Int
  | [] => some 0
  | c :: r =>
    if c ≠ 'e' ∧ c ≠ 'E' then none
    else
      let (negative, ds) := splitSign r
      (digits? Numeral.isDigit ds).map fun ds =>
        let n : Int := Numeral.value ds
        if negative then -n else n

/-- A float: an integer with a fraction or an exponent. -/
def float? (negative : Bool) (cs : List Char) : Option Item := do
  let isBody := fun (c : Char) => Numeral.isDigit c || c = '_'
  let whole := cs.takeWhile isBody
  let rest := cs.dropWhile isBody
  if rest.isEmpty then none
  let ds ← wholeDigits? whole
  let (fraction, rest) ← match rest with
    | '.' :: r => (digits? Numeral.isDigit (r.takeWhile isBody)).map fun f =>
      (f, r.dropWhile isBody)
    | r => some ([], r)
  let e ← exponent? rest
  if !negative && overflowsDouble (Numeral.value (ds ++ fraction)) (e - fraction.length) then none
  return .float

/-- A number or a boolean, given as the characters that can stand in one. -/
def plain? (cs : List Char) : Option Item :=
  match cs with
  | ['t', 'r', 'u', 'e'] => some (.boolean true)
  | ['f', 'a', 'l', 's', 'e'] => some (.boolean false)
  | '0' :: 'x' :: ds => radixInteger? 16 ds
  | '0' :: 'o' :: ds => radixInteger? 8 ds
  | '0' :: 'b' :: ds => radixInteger? 2 ds
  | cs =>
    let (negative, body) := splitSign cs
    if body = ['i', 'n', 'f'] ∨ body = ['n', 'a', 'n'] then some .float
    else
      match wholeDigits? body with
      | some ds =>
        let n : Int := Numeral.value ds
        word? (if negative then -n else n)
      | none => float? negative body

/-- Whether a character may stand in a number or a boolean. -/
def isPlain (c : Char) : Bool := isBare c || c = '+' || c = '.'

/-! Values and documents. -/

mutual

/-- A value in which arrays and inline tables stand in one another at most `depth` deep. -/
def value? : Nat → Nat → List Char → Option (Item × List Char)
  | 0, _, _ => none
  | fuel + 1, depth, cs =>
    match depth, cs with
    | _, '"' :: r => (basicString? (r.length + 1) [] r).map fun (s, r) => (.text s, r)
    | _, '\x27' :: r => (literalString? r).map fun (s, r) => (.text s, r)
    | 0, '[' :: _ | 0, '\x7b' :: _ => none
    | depth + 1, '[' :: r => (items? fuel depth r).map fun (items, r) => (.array items, r)
    | depth + 1, '\x7b' :: r =>
      match skipBlanks r with
      | '\x7d' :: r => some (.table .inline [], r)
      | r => (fields? fuel depth [] r).map fun (es, r) => (.table .inline es, r)
    | _, cs => (plain? (cs.takeWhile isPlain)).map fun v => (v, cs.dropWhile isPlain)

/-- The rest of an array. A comma may stand after the last item. -/
def items? : Nat → Nat → List Char → Option (List Item × List Char)
  | 0, _, _ => none
  | fuel + 1, depth, cs =>
    match skipLines (cs.length + 1) cs with
    | ']' :: r => some ([], r)
    | cs => do
      let (v, r) ← value? fuel depth cs
      match skipLines (r.length + 1) r with
      | ']' :: r => return ([v], r)
      | ',' :: r =>
        let (vs, r) ← items? fuel depth r
        return (v :: vs, r)
      | _ => none

/-- The rest of an inline table with the entries so far. -/
def fields? : Nat → Nat → Entries → List Char → Option (Entries × List Char)
  | 0, _, _, _ => none
  | fuel + 1, depth, es, cs => do
    let (path, name, r) ← key? cs
    let '=' :: r := r | none
    let (v, r) ← value? fuel depth (skipBlanks r)
    let es ← es.insert name v path
    match skipBlanks r with
    | '\x7d' :: r => return (es, r)
    | ',' :: r => fields? fuel depth es r
    | _ => none

end

/-- Reads the lines of a document into the entries so far. Keys belong to the table of the last
header. -/
def lines? : Nat → List String → Entries → List Char → Option Entries
  | 0, _, _, _ => none
  | fuel + 1, table, es, cs =>
    match skipLines (cs.length + 1) cs with
    | [] => some es
    | '[' :: r => do
      let (path, name, r) ← key? r
      let ']' :: r := r | none
      lines? fuel (path ++ [name]) (← es.openTable (path ++ [name])) (← endLine? r)
    | cs => do
      let (path, name, r) ← key? cs
      let '=' :: r := r | none
      let (v, r) ← value? (r.length + 1) maxDepth (skipBlanks r)
      lines? fuel table (← es.change (Entries.insert name v path) table) (← endLine? r)

/-- Reads a document. A byte order mark may stand before it. -/
def parse? (text : String) : Option Entries :=
  let cs := match text.toList with
    | '\uFEFF' :: r => r
    | r => r
  lines? (cs.length + 1) [] [] cs

end StackCalc.Toml
