/-!
Character classes and letter case as the calculator's texts use them.
-/

namespace StackCalc.Text

/-- The characters with the Unicode property White_Space. -/
def isBlank (c : Char) : Bool :=
  let n := c.toNat
  (9 ≤ n && n ≤ 13) || n = 0x20 || n = 0x85 || n = 0xA0 || n = 0x1680
    || (0x2000 ≤ n && n ≤ 0x200A) || n = 0x2028 || n = 0x2029 || n = 0x202F || n = 0x205F
    || n = 0x3000

def trim (cs : List Char) : List Char :=
  ((cs.dropWhile isBlank).reverse.dropWhile isBlank).reverse

/-- The lower case of a character, for the letters whose lower case occurs in the name of an
operation: the ASCII capitals, the kelvin sign, and the Greek capitals sigma and pi. -/
def lowerChar (c : Char) : Char :=
  if c = '\u212A' then 'k'
  else if c = 'Σ' then 'σ'
  else if c = 'Π' then 'π'
  else c.toLower

/-- A name with its case forgotten. -/
def foldCase (name : String) : String :=
  name.map lowerChar

end StackCalc.Text
