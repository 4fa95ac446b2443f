import EsModules.Text.Ascii
import EsModules.Text.Basic
import EsModules.Token

/-!
# Scanners

A scanner reads one construct from the front of its input: a word, a number, a string, a part of
a template, a regular expression, a punctuator or a comment.  Every scanner splits its input:
the text it took followed by the rest is the input again.
-/

namespace EsModules

/-! ## Character classes -/

/-- The blanks outside ASCII that may stand between tokens. -/
def isUnicodeSpace (c : Char) : Bool :=
  let n := c.toNat
  n == 0xA0 || n == 0x1680 || (0x2000 ≤ n && n ≤ 0x200A) || n == 0x2028 || n == 0x2029
    || n == 0x202F || n == 0x205F || n == 0x3000 || n == 0xFEFF

/-- The characters that may stand between tokens. -/
def isSpace (c : Char) : Bool := Ascii.isSpace c || isUnicodeSpace c

/-- The characters outside ASCII. -/
def isNonAscii (c : Char) : Bool := 0x80 ≤ c.toNat

/-- The characters a word can start with; every character outside ASCII counts, also a space. -/
def isWordStart (c : Char) : Bool :=
  Ascii.isLetter c || c == '_' || c == '$' || c == '\\' || isNonAscii c

/-- The characters a word can go on with, apart from escapes. -/
def isWordPart (c : Char) : Bool :=
  Ascii.isWordChar c || c == '$' || (isNonAscii c && !isUnicodeSpace c)

/-! ## Scanners -/

/-- What a scanner read. -/
structure Scan where
  /-- The characters taken. -/
  text : List Char
  /-- The input behind them. -/
  rest : List Char
  /-- By how many bytes the end of the construct lies behind the end of the input. -/
  past : Nat
  deriving DecidableEq, Repr

namespace Scan

/-- A scan with one more character in front. -/
def cons (c : Char) (s : Scan) : Scan := ⟨c :: s.text, s.rest, s.past⟩

/-- A scan with more text in front. -/
def prepend (cs : List Char) (s : Scan) : Scan := ⟨cs ++ s.text, s.rest, s.past⟩

/-- The characters in front that satisfy a test. -/
def takeWhile (p : Char → Bool) (input : List Char) : Scan :=
  ⟨input.takeWhile p, input.dropWhile p, 0⟩

/-- The number of bytes that a scan takes. -/
def width (s : Scan) : Nat := Text.byteLength s.text + s.past

end Scan

/-- A word with its escapes; `inBraces` says that the scan is inside a braced escape, where all
characters up to the closing brace belong to the word. -/
def scanWord : Bool → List Char → Scan
  | true, [] => ⟨[], [], 1⟩
  | true, c :: r => (scanWord (c != '\x7d') r).cons c
  | false, '\\' :: 'u' :: '\x7b' :: r => (scanWord true r).prepend ['\\', 'u', '\x7b']
  | false, c :: r =>
    if isWordPart c || c == '\\' then (scanWord false r).cons c else ⟨[], c :: r, 0⟩
  | false, [] => ⟨[], [], 0⟩

/-- Digits and underscores. -/
def scanDigits (input : List Char) : Scan :=
  Scan.takeWhile (fun c => Ascii.isDigit c || c == '_') input

/-- A fraction: a point and digits, or nothing. -/
def scanFraction : List Char → Scan
  | '.' :: r => (scanDigits r).cons '.'
  | r => ⟨[], r, 0⟩

/-- An exponent, if a digit stands where its first digit should, or nothing. -/
def scanExponent : List Char → Scan
  | e :: s :: d :: r =>
    if (e == 'e' || e == 'E') && (s == '+' || s == '-') && Ascii.isDigit d then
      (scanDigits (d :: r)).prepend [e, s]
    else if (e == 'e' || e == 'E') && Ascii.isDigit s then (scanDigits (s :: d :: r)).cons e
    else ⟨[], e :: s :: d :: r, 0⟩
  | [e, d] =>
    if (e == 'e' || e == 'E') && Ascii.isDigit d then ⟨[e, d], [], 0⟩ else ⟨[], [e, d], 0⟩
  | r => ⟨[], r, 0⟩

/-- The mark of a big integer, or nothing. -/
def scanBigMark : List Char → Scan
  | 'n' :: r => ⟨['n'], r, 0⟩
  | r => ⟨[], r, 0⟩

/-- The letters that stand behind the zero of a number with a radix. -/
def isRadixMark (c : Char) : Bool := "xXoObB".toList.contains c

/-- A number: with a radix mark, or in decimals with fraction, exponent and big integer mark. -/
def scanNumber (input : List Char) : Scan :=
  match input with
  | '0' :: x :: r =>
    if isRadixMark x then
      (Scan.takeWhile Ascii.isWordChar r).prepend ['0', x]
    else decimal input
  | _ => decimal input
where
  /-- A number without a radix mark. -/
  decimal (input : List Char) : Scan :=
    let whole := scanDigits input
    let fraction := scanFraction whole.rest
    let exponent := scanExponent fraction.rest
    let mark := scanBigMark exponent.rest
    mark.prepend (whole.text ++ (fraction.text ++ exponent.text))

/-- A string behind its opening quote, and whether it is closed.  A backslash takes the next
character with it, and a carriage return and line feed together. -/
def scanString (quote : Char) : List Char → Scan × Bool
  | [] => (⟨[], [], 0⟩, false)
  | '\\' :: '\r' :: '\n' :: r =>
    let (s, closed) := scanString quote r
    (s.prepend ['\\', '\r', '\n'], closed)
  | '\\' :: c :: r =>
    let (s, closed) := scanString quote r
    (s.prepend ['\\', c], closed)
  | c :: r =>
    if Ascii.isLineEnd c then (⟨[], c :: r, 0⟩, false)
    else if c == quote then (⟨[c], r, 0⟩, true)
    else
      let (s, closed) := scanString quote r
      (s.cons c, closed)

/-- How a part of a template ends. -/
inductive TemplateEnd
  | closed | substitution | missing
  deriving DecidableEq, Repr

/-- A part of a template, behind the opening quote or behind a substitution. -/
def scanTemplate : List Char → Scan × TemplateEnd
  | [] => (⟨[], [], 0⟩, .missing)
  | '\\' :: c :: r =>
    let (s, e) := scanTemplate r
    (s.prepend ['\\', c], e)
  | '$' :: '\x7b' :: r => (⟨['$', '\x7b'], r, 0⟩, .substitution)
  | c :: r =>
    if c == '\x60' then (⟨[c], r, 0⟩, .closed)
    else
      let (s, e) := scanTemplate r
      (s.cons c, e)

/-- A regular expression behind its opening slash, and whether it is closed; inside a class a
slash does not close it. -/
def scanRegexBody : Bool → List Char → Scan × Bool
  | _, [] => (⟨[], [], 0⟩, false)
  | _, ['\\'] => (⟨['\\'], [], 1⟩, false)
  | inClass, '\\' :: c :: r =>
    if Ascii.isLineEnd c then (⟨['\\'], c :: r, 0⟩, false)
    else
      let (s, closed) := scanRegexBody inClass r
      (s.prepend ['\\', c], closed)
  | inClass, c :: r =>
    if Ascii.isLineEnd c then (⟨[], c :: r, 0⟩, false)
    else if c == '/' && !inClass then (⟨[c], r, 0⟩, true)
    else
      let inClass := c == '[' || (inClass && c != ']')
      let (s, closed) := scanRegexBody inClass r
      (s.cons c, closed)

/-- A regular expression behind its opening slash, with its flags. -/
def scanRegex (input : List Char) : Scan × Bool :=
  let (body, closed) := scanRegexBody false input
  (if closed then (Scan.takeWhile Ascii.isLetter body.rest).prepend body.text else body, closed)

/-- The longest punctuator in front; a question mark and point before a digit do not belong
together. -/
def scanPunct (input : List Char) : Option (Punct × Scan) :=
  Punct.spellings.findSome? fun (mark, spelling) =>
    match Text.dropPrefix? spelling.toList input with
    | none => none
    | some rest =>
      if mark == .questionDot && (rest.head?.map Ascii.isDigit).getD false then none
      else some (mark, ⟨spelling.toList, rest, 0⟩)

/-- The text of a block comment behind its opening, and whether it is closed. -/
def scanBlockComment : List Char → Scan × Bool
  | [] => (⟨[], [], 0⟩, false)
  | '*' :: '/' :: r => (⟨['*', '/'], r, 0⟩, true)
  | c :: r =>
    let (s, closed) := scanBlockComment r
    (s.cons c, closed)

/-- A line comment: all characters before the end of the line. -/
def scanLineComment (input : List Char) : Scan := Scan.takeWhile (fun c => !Ascii.isLineEnd c) input

/-! ## Scanners split their input -/

theorem Scan.takeWhile_text_append_rest (p : Char → Bool) (input : List Char) :
    (Scan.takeWhile p input).text ++ (Scan.takeWhile p input).rest = input :=
  List.takeWhile_append_dropWhile

theorem scanWord_text_append_rest (b : Bool) (input : List Char) :
    (scanWord b input).text ++ (scanWord b input).rest = input := by
  fun_induction scanWord b input <;> simp_all [Scan.cons, Scan.prepend]

theorem scanDigits_text_append_rest (input : List Char) :
    (scanDigits input).text ++ (scanDigits input).rest = input :=
  Scan.takeWhile_text_append_rest _ _

theorem scanFraction_text_append_rest (input : List Char) :
    (scanFraction input).text ++ (scanFraction input).rest = input := by
  unfold scanFraction
  split
  · simp [Scan.cons, scanDigits_text_append_rest]
  · rfl

theorem scanExponent_text_append_rest (input : List Char) :
    (scanExponent input).text ++ (scanExponent input).rest = input := by
  unfold scanExponent
  split
  · split
    · simp [Scan.prepend, scanDigits_text_append_rest]
    · split
      · simp [Scan.cons, scanDigits_text_append_rest]
      · rfl
  · split <;> rfl
  · rfl

theorem scanBigMark_text_append_rest (input : List Char) :
    (scanBigMark input).text ++ (scanBigMark input).rest = input := by
  unfold scanBigMark
  split <;> rfl

theorem scanNumber_decimal_text_append_rest (input : List Char) :
    (scanNumber.decimal input).text ++ (scanNumber.decimal input).rest = input := by
  simp only [scanNumber.decimal, Scan.prepend, List.append_assoc]
  rw [scanBigMark_text_append_rest, scanExponent_text_append_rest, scanFraction_text_append_rest,
    scanDigits_text_append_rest]

theorem scanNumber_text_append_rest (input : List Char) :
    (scanNumber input).text ++ (scanNumber input).rest = input := by
  unfold scanNumber
  split
  · split
    · simp [Scan.prepend, Scan.takeWhile_text_append_rest]
    · exact scanNumber_decimal_text_append_rest _
  · exact scanNumber_decimal_text_append_rest _

theorem scanString_text_append_rest (quote : Char) (input : List Char) :
    (scanString quote input).1.text ++ (scanString quote input).1.rest = input := by
  fun_induction scanString quote input <;> simp_all [Scan.cons, Scan.prepend]

theorem scanTemplate_text_append_rest (input : List Char) :
    (scanTemplate input).1.text ++ (scanTemplate input).1.rest = input := by
  fun_induction scanTemplate input <;> simp_all [Scan.cons, Scan.prepend]

theorem scanRegexBody_text_append_rest (inClass : Bool) (input : List Char) :
    (scanRegexBody inClass input).1.text ++ (scanRegexBody inClass input).1.rest = input := by
  fun_induction scanRegexBody inClass input <;> simp_all [Scan.cons, Scan.prepend]

theorem scanRegex_text_append_rest (input : List Char) :
    (scanRegex input).1.text ++ (scanRegex input).1.rest = input := by
  have h := scanRegexBody_text_append_rest false input
  simp only [scanRegex]
  split
  · simpa [Scan.prepend, Scan.takeWhile_text_append_rest] using h
  · exact h

theorem scanBlockComment_text_append_rest (input : List Char) :
    (scanBlockComment input).1.text ++ (scanBlockComment input).1.rest = input := by
  fun_induction scanBlockComment input <;> simp_all [Scan.cons]

/-- A punctuator is read by its spelling, which stands in front of the rest. -/
theorem scanPunct_eq_some {input : List Char} {m : Punct} {s : Scan}
    (h : scanPunct input = some (m, s)) :
    ∃ spelling, (m, spelling) ∈ Punct.spellings ∧ s.text = spelling.toList ∧
      s.text ++ s.rest = input ∧ s.past = 0 := by
  obtain ⟨⟨mark, spelling⟩, hmem, hs⟩ := List.exists_of_findSome?_eq_some h
  dsimp only at hs
  split at hs
  · simp at hs
  · rename_i rest hrest
    split at hs
    · simp at hs
    · obtain ⟨rfl, rfl⟩ := Prod.mk.inj (Option.some.inj hs)
      exact ⟨spelling, hmem, rfl, Text.dropPrefix?_eq_some_iff.1 hrest, rfl⟩

theorem scanPunct_text_ne_nil {input : List Char} {m : Punct} {s : Scan}
    (h : scanPunct input = some (m, s)) : s.text ≠ [] := by
  obtain ⟨spelling, hmem, htext, -⟩ := scanPunct_eq_some h
  have hne : ∀ entry ∈ Punct.spellings, entry.2.toList ≠ [] := by decide
  exact htext ▸ hne _ hmem

/-! ## Scanners stay within their input -/

/-- A word lies within the input, or it takes all of it and one byte behind it. -/
theorem scanWord_past (b : Bool) (input : List Char) :
    (scanWord b input).past = 0 ∨ (scanWord b input).past = 1 ∧ (scanWord b input).rest = [] := by
  fun_induction scanWord b input <;> simp_all [Scan.cons, Scan.prepend]

theorem scanNumber_past (input : List Char) : (scanNumber input).past = 0 := by
  have hmark : ∀ r, (scanBigMark r).past = 0 := fun r => by unfold scanBigMark; split <;> rfl
  have hdec : (scanNumber.decimal input).past = 0 := by
    simp [scanNumber.decimal, Scan.prepend, hmark]
  unfold scanNumber
  split
  · split
    · rfl
    · exact hdec
  · exact hdec

theorem scanString_past (quote : Char) (input : List Char) :
    (scanString quote input).1.past = 0 := by
  fun_induction scanString quote input <;> simp_all [Scan.cons, Scan.prepend]

theorem scanTemplate_past (input : List Char) : (scanTemplate input).1.past = 0 := by
  fun_induction scanTemplate input <;> simp_all [Scan.cons, Scan.prepend]

theorem scanRegex_past (input : List Char) (h : (scanRegex input).2 = true) :
    (scanRegex input).1.past = 0 := by
  unfold scanRegex at h ⊢
  dsimp only at h ⊢
  rw [if_pos h]
  rfl

theorem scanBlockComment_past (input : List Char) : (scanBlockComment input).1.past = 0 := by
  fun_induction scanBlockComment input <;> simp_all [Scan.cons]

end EsModules
