import EsModules.Unicode.Decomposition
import EsModules.Unicode.Mark

/-!
# Normalization

Two texts that stand for the same letters and marks have one normal form: every character is
taken apart, marks that may change places are put in the order of their classes, and what can be
put together is put together again.

* `Unicode.normalize`, and `normalize_of_ascii`: a text in ASCII is its own normal form.
-/

namespace EsModules.Unicode

/-! ## Order -/

/-- Puts a character in front of an ordered text, behind the marks of lower classes. -/
def insertMark (c : Char) : List Char → List Char
  | [] => [c]
  | d :: r =>
    if 0 < combiningClass d && combiningClass d < combiningClass c then d :: insertMark c r
    else c :: d :: r

/-- A text with the marks between other characters in the order of their classes. -/
def orderMarks (text : List Char) : List Char := text.foldr insertMark []

/-! ## Composition -/

/-- Whether nothing keeps a character from the one in front of the marks before it. -/
def reaches (marks : List Char) (c : Char) : Bool :=
  marks.getLast?.all fun m => combiningClass m < combiningClass c

/-- Puts an ordered text together, given a character and the marks behind it that stay apart. -/
def composeBehind (start : Char) (marks : List Char) : List Char → List Char
  | [] => start :: marks
  | c :: r =>
    match if reaches marks c then composite? start c else none with
    | some d => composeBehind d marks r
    | none =>
      if combiningClass c == 0 then start :: marks ++ composeBehind c [] r
      else composeBehind start (marks ++ [c]) r

/-- Puts an ordered text together. -/
def composeOrdered : List Char → List Char
  | [] => []
  | c :: r => composeBehind c [] r

/-- The normal form of a text. -/
def normalize (text : List Char) : List Char :=
  if text.all Ascii.isAscii then text else composeOrdered (orderMarks (text.flatMap decompose))

@[simp] theorem normalize_of_ascii {text : List Char} (h : text.all Ascii.isAscii = true) :
    normalize text = text := by
  simp only [normalize, h, if_true]

end EsModules.Unicode
