import EsModules.Text.Ascii
import EsModules.Text.Utf8

/-!
# Percent-encoding

Bytes that must not stand in a part of a URL are written as a percent sign and two hexadecimal
digits.  Which ASCII characters are written so depends on the part; bytes outside ASCII always
are.
-/

namespace EsModules.PercentEncoding

/-- A byte as a percent sign and two digits. -/
def escape (b : UInt8) : List Char :=
  ['%', Ascii.hexDigit (b.toNat / 16), Ascii.hexDigit (b.toNat % 16)]

/-- A byte, escaped if it is not ASCII or if its character is to be escaped. -/
def encodeByte (escaped : Char → Bool) (b : UInt8) : List Char :=
  if b.toNat < 0x80 && !escaped (Char.ofNat b.toNat) then [Char.ofNat b.toNat] else escape b

/-- Bytes as text. -/
def encodeBytes (escaped : Char → Bool) (bs : List UInt8) : List Char :=
  bs.flatMap (encodeByte escaped)

/-- Text with some of its characters escaped. -/
def encode (escaped : Char → Bool) (cs : List Char) : List Char :=
  encodeBytes escaped (Utf8.encode cs)

/-- The byte that two hexadecimal digits stand for. -/
def hexPair? (a b : Char) : Option UInt8 := do
  let x ← Ascii.hexValue? a
  let y ← Ascii.hexValue? b
  some (UInt8.ofNat (16 * x + y))

/-- The bytes that a text stands for, given how the two characters behind a percent sign are
read; a percent sign with no such pair stands for itself. -/
def decodeWith (pair? : Char → Char → Option UInt8) : List Char → List UInt8
  | [] => []
  | '%' :: a :: b :: r =>
    match pair? a b with
    | some byte => byte :: decodeWith pair? r
    | none => 0x25 :: decodeWith pair? (a :: b :: r)
  | c :: r => String.utf8EncodeChar c ++ decodeWith pair? r

/-- The bytes that a text stands for. -/
def decode (cs : List Char) : List UInt8 := decodeWith hexPair? cs

/-- The byte that two hexadecimal digits, or a plus sign and one digit, stand for. -/
def signedPair? (a b : Char) : Option UInt8 :=
  if a == '+' then (Ascii.hexValue? b).map UInt8.ofNat else hexPair? a b

/-- The text that a text with escapes stands for, where an escape may have a plus sign in the
place of its first digit. -/
def decodeText (cs : List Char) : List Char := Utf8.decodeLossy (decodeWith signedPair? cs)

/-! ## Which characters are escaped -/

/-- The C0 controls and the delete character. -/
def inControls (c : Char) : Bool := c.toNat < 0x20 || c.toNat == 0x7F

/-- What a fragment escapes. -/
def inFragment (c : Char) : Bool := inControls c || " \"<>\x60".toList.contains c

/-- What a path escapes. -/
def inPath (c : Char) : Bool := inFragment c || "#?\x7b\x7d".toList.contains c

/-- What a user name or a password escapes. -/
def inUserInfo (c : Char) : Bool := inPath c || "/:;=@[\\]^|".toList.contains c

/-- What a file name escapes as a segment of a path. -/
def inSegment (c : Char) : Bool := inPath c || "/%\\".toList.contains c

/-- What a query escapes. -/
def inQuery (c : Char) : Bool := inControls c || " \"#<>".toList.contains c

/-- What a query escapes in a URL with a special scheme. -/
def inSpecialQuery (c : Char) : Bool := inQuery c || c == '\''

end EsModules.PercentEncoding
