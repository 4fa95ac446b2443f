/-!
# UTF-8

Texts as bytes, and bytes read back as texts: strictly, or with the replacement character in the
place of every maximal part that is no character.
-/

namespace EsModules.Utf8

/-- The UTF-8 form of a text. -/
def encode (cs : List Char) : List UInt8 := cs.flatMap String.utf8EncodeChar

@[simp] theorem encode_nil : encode [] = [] := rfl

@[simp] theorem encode_cons (c : Char) (cs : List Char) :
    encode (c :: cs) = String.utf8EncodeChar c ++ encode cs := rfl

@[simp] theorem encode_append (a b : List Char) : encode (a ++ b) = encode a ++ encode b := by
  simp [encode]

/-- What a leading byte announces about its character. -/
structure Lead where
  /-- The number of bytes behind the second one. -/
  more : Nat
  /-- The value bits of the leading byte. -/
  bits : Nat
  /-- The least second byte. -/
  low : Nat
  /-- The greatest second byte. -/
  high : Nat

/-- The leading bytes outside ASCII. -/
def lead? (b : UInt8) : Option Lead :=
  let n := b.toNat
  if 0xC2 ≤ n && n ≤ 0xDF then some ⟨0, n - 0xC0, 0x80, 0xBF⟩
  else if n == 0xE0 then some ⟨1, 0, 0xA0, 0xBF⟩
  else if n == 0xED then some ⟨1, 0xD, 0x80, 0x9F⟩
  else if 0xE1 ≤ n && n ≤ 0xEF then some ⟨1, n - 0xE0, 0x80, 0xBF⟩
  else if n == 0xF0 then some ⟨2, 0, 0x90, 0xBF⟩
  else if 0xF1 ≤ n && n ≤ 0xF3 then some ⟨2, n - 0xF0, 0x80, 0xBF⟩
  else if n == 0xF4 then some ⟨2, 4, 0x80, 0x8F⟩
  else none

/-- Whether a byte lies in a range. -/
def inRange (low high : Nat) (b : UInt8) : Bool := low ≤ b.toNat && b.toNat ≤ high

/-- The six bits that a byte behind the leading one gives. -/
def tailBits (b : UInt8) : Nat := b.toNat - 0x80

/-- The characters of a byte string; `none` stands for a maximal part that is no character. -/
def units : List UInt8 → List (Option Char)
  | [] => []
  | b :: r =>
    if b.toNat < 0x80 then some (Char.ofNat b.toNat) :: units r
    else match lead? b with
      | none => none :: units r
      | some l => match r with
        | [] => [none]
        | b2 :: r2 =>
          if !inRange l.low l.high b2 then none :: units (b2 :: r2)
          else if l.more == 0 then some (Char.ofNat (l.bits * 64 + tailBits b2)) :: units r2
          else match r2 with
            | [] => [none]
            | b3 :: r3 =>
              if !inRange 0x80 0xBF b3 then none :: units (b3 :: r3)
              else if l.more == 1 then
                some (Char.ofNat ((l.bits * 64 + tailBits b2) * 64 + tailBits b3)) :: units r3
              else match r3 with
                | [] => [none]
                | b4 :: r4 =>
                  if !inRange 0x80 0xBF b4 then none :: units (b4 :: r4)
                  else
                    some (Char.ofNat
                      (((l.bits * 64 + tailBits b2) * 64 + tailBits b3) * 64 + tailBits b4))
                      :: units r4

/-- The text whose UTF-8 form the bytes are. -/
def decode? (bs : List UInt8) : Option (List Char) := (units bs).mapM id

/-- The text of a byte string, with U+FFFD for each part that is no character. -/
def decodeLossy (bs : List UInt8) : List Char := (units bs).map fun u => u.getD '\uFFFD'

end EsModules.Utf8
