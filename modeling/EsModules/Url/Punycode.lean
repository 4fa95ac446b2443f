import EsModules.Text.Ascii
import EsModules.Text.Basic

/-!
# Punycode

A label of a domain name with characters outside ASCII is written in ASCII: first its ASCII
characters, then, behind a dash, where the others are inserted.  The insertions come in the order
of their code points, each as a number whose digits have a place value that follows the sizes of
the numbers before it.

* `Punycode.encode` and `Punycode.decode?`, whose digits are written by `Punycode.digits` and read
  by `Punycode.readNumber?`.
-/

namespace EsModules.Punycode

/-! ## Numbers -/

/-- The digit for a number below 36. -/
def digit (n : Nat) : Char := Char.ofNat (if n < 26 then 0x61 + n else 0x16 + n)

/-- The number that a digit stands for. -/
def digitValue? (c : Char) : Option Nat :=
  if 'a' ≤ c && c ≤ 'z' then some (c.toNat - 0x61)
  else if 'A' ≤ c && c ≤ 'Z' then some (c.toNat - 0x41)
  else if '0' ≤ c && c ≤ '9' then some (c.toNat - 0x16)
  else none

/-- The least digit after which another one follows, at a position counted in steps of 36. -/
def threshold (position bias : Nat) : Nat := max 1 (min 26 (position - bias))

/-- How often a number is divided by 35 until it is at most 455, and what is left of it. -/
def shrink (n : Nat) : Nat × Nat :=
  if n > 455 then
    let (times, left) := shrink (n / 35)
    (times + 1, left)
  else (0, n)

/-- The bias behind a number, given how many characters there are then. -/
def adapt (isFirst : Bool) (number count : Nat) : Nat :=
  let n := if isFirst then number / 700 else number / 2
  let (times, left) := shrink (n + n / count)
  36 * times + 36 * left / (left + 38)

/-- The digits of a number from a position on. -/
def digits (bias position n : Nat) : List Char :=
  let t := threshold position bias
  if h : n < t then [digit n]
  else digit (t + (n - t) % (36 - t)) :: digits bias (position + 36) ((n - t) / (36 - t))
termination_by n
decreasing_by
  have hpos : 1 ≤ threshold position bias := Nat.le_max_left _ _
  exact Nat.lt_of_le_of_lt (Nat.div_le_self _ _) (by omega)

/-- The least number that is too large for a word; none of that size is read. -/
def wordLimit : Nat := 0x100000000

/-- The sum of a number and the one that digits stand for, given the value of the next place, and
what follows the digits. -/
def readNumber? (bias : Nat) : Nat → Nat → Nat → List Char → Option (Nat × List Char)
  | _, _, _, [] => none
  | position, value, n, c :: r => do
    let d ← digitValue? c
    let n := n + d * value
    let t := threshold position bias
    guard (value < wordLimit && n < wordLimit)
    if d < t then some (n, r) else readNumber? bias (position + 36) (value * (36 - t)) n r

/-! ## Encoding -/

/-- The state between two insertions. -/
structure Encoder where
  /-- The digits so far. -/
  out : List Char
  /-- How many places have been passed since the last insertion. -/
  passed : Nat
  /-- The bias of the next number. -/
  bias : Nat
  /-- How many characters have been placed. -/
  placed : Nat

/-- Passes over a character of the label while those with a code are inserted. -/
def Encoder.step (basic code : Nat) (s : Encoder) (c : Char) : Encoder :=
  if c.toNat < code then { s with passed := s.passed + 1 }
  else if c.toNat == code then
    { out := s.out ++ digits s.bias 36 s.passed
      passed := 0
      bias := adapt (s.placed == basic) s.passed (s.placed + 1)
      placed := s.placed + 1 }
  else s

/-- Inserts all characters with a code, given the least code that may come next. -/
def Encoder.insertAll (label : List Char) (basic : Nat) : Nat → List Nat → Encoder → Encoder
  | _, [], s => s
  | least, code :: codes, s =>
    let s := { s with passed := s.passed + (code - least) * (s.placed + 1) }
    let s := label.foldl (Encoder.step basic code) s
    insertAll label basic (code + 1) codes { s with passed := s.passed + 1 }

/-- The ASCII form of a label. -/
def encode (label : List Char) : List Char :=
  let basic := label.filter Ascii.isAscii
  let codes := (Text.sortDistinct ((label.filter fun c => !Ascii.isAscii c).map ([·]))).flatten
  let start : Encoder := ⟨[], 0, 72, basic.length⟩
  let done := Encoder.insertAll label basic.length 0x80 (codes.map Char.toNat) start
  basic ++ (if basic.isEmpty then [] else ['-']) ++ done.out

/-! ## Decoding -/

/-- Inserts the characters that digits stand for into a label, at most a given number of them. -/
def insertions? : Nat → Bool → Nat → Nat → Nat → List Char → List Char → Option (List Char)
  | _, _, _, _, _, label, [] => some label
  | 0, _, _, _, _, _, _ :: _ => none
  | fuel + 1, isFirst, bias, code, place, label, c :: r => do
    let (n, rest) ← readNumber? bias 36 1 place (c :: r)
    let count := label.length + 1
    let code := code + n / count
    guard code.isValidChar
    insertions? fuel false (adapt isFirst (n - place) count) code (n % count + 1)
      (label.insertIdx (n % count) (Char.ofNat code)) rest

/-- The label with an ASCII form; a dash in front of the form separates nothing. -/
def decode? (text : List Char) : Option (List Char) := do
  let (basic, numbers) := ((Text.splitLast ['-'] text).filter fun (basic, _) => !basic.isEmpty).getD
    ([], text)
  guard (basic.all Ascii.isAscii)
  insertions? numbers.length true 72 0x80 0 basic numbers

end EsModules.Punycode
