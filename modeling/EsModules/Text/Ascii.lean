/-!
# Characters of ASCII

The classes of ASCII characters that sources, URLs and JSON texts are read by, and hexadecimal
digits with their values.  No class has a character outside ASCII.
-/

namespace EsModules.Ascii

/-! ## Classes -/

/-- The characters of ASCII. -/
def isAscii (c : Char) : Bool := c.toNat < 0x80

/-- The letters. -/
def isLetter (c : Char) : Bool := ('a' ≤ c && c ≤ 'z') || ('A' ≤ c && c ≤ 'Z')

/-- The decimal digits. -/
def isDigit (c : Char) : Bool := '0' ≤ c && c ≤ '9'

/-- The letters and digits. -/
def isAlphanumeric (c : Char) : Bool := isLetter c || isDigit c

/-- The characters of a word: letters, digits and the underscore. -/
def isWordChar (c : Char) : Bool := isAlphanumeric c || c == '_'

/-- The characters that end a line. -/
def isLineEnd (c : Char) : Bool := c == '\n' || c == '\r'

/-- The spaces and line ends. -/
def isSpace (c : Char) : Bool :=
  c == ' ' || c == '\t' || c == '\x0b' || c == '\x0c' || isLineEnd c

/-! ## Digits -/

/-- The value of decimal digits. -/
def decimalValue (digits : List Char) : Nat :=
  digits.foldl (fun n c => n * 10 + (c.toNat - 0x30)) 0

/-- A hexadecimal digit, with upper-case letters. -/
def hexDigit (n : Nat) : Char := Char.ofNat (if n < 10 then 0x30 + n else 0x37 + n)

/-- The value of a hexadecimal digit in either case. -/
def hexValue? (c : Char) : Option Nat :=
  let n := c.toNat
  if 0x30 ≤ n && n ≤ 0x39 then some (n - 0x30)
  else if 0x41 ≤ n && n ≤ 0x46 then some (n - 0x37)
  else if 0x61 ≤ n && n ≤ 0x66 then some (n - 0x57)
  else none

end EsModules.Ascii
