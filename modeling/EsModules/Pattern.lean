import EsModules.Text.Ascii

/-!
# Patterns

A pattern describes texts: it is put together from tests on single characters by sequence,
choice, repetition and the naming of parts.  Patterns say nothing about how a match is looked for.
-/

namespace EsModules

/-- A description of texts, in which parts are named by labels. -/
inductive Pattern (Label : Type)
  /-- The empty text. -/
  | empty
  /-- A character that satisfies a test. -/
  | char (test : Char → Bool)
  /-- One pattern after another. -/
  | seq (first second : Pattern Label)
  /-- One of two patterns, preferably the first. -/
  | alt (first second : Pattern Label)
  /-- A pattern any number of times, preferably often if it is greedy and else seldom. -/
  | many (greedy : Bool) (body : Pattern Label)
  /-- A pattern whose text is remembered under a label. -/
  | capture (label : Label) (body : Pattern Label)
  /-- The empty text on the edge of a word. -/
  | wordEdge
  /-- The empty text at the front of a line. -/
  | lineStart
  /-- The empty text at the end of the whole text. -/
  | textEnd

namespace Pattern

variable {Label : Type}

instance : Append (Pattern Label) := ⟨seq⟩

/-! ## Combinations -/

/-- A given text. -/
def literal : List Char → Pattern Label
  | [] => empty
  | c :: cs => seq (char (· == c)) (literal cs)

/-- A given word. -/
def word (text : String) : Pattern Label := literal text.toList

/-- One of several patterns, preferably an early one; of no patterns, nothing is one. -/
def oneOf : List (Pattern Label) → Pattern Label
  | [] => char fun _ => false
  | [p] => p
  | p :: ps => alt p (oneOf ps)

/-- One of several words, preferably an early one. -/
def oneWord (texts : List String) : Pattern Label := oneOf (texts.map word)

/-- A pattern or nothing, preferably the pattern. -/
def orNothing (p : Pattern Label) : Pattern Label := alt p empty

/-- Any number of characters that satisfy a test, preferably many. -/
def run (test : Char → Bool) : Pattern Label := many true (char test)

/-- At least one character that satisfies a test, preferably many. -/
def run1 (test : Char → Bool) : Pattern Label := char test ++ run test

/-- Any number of characters that satisfy a test, preferably few. -/
def shortRun (test : Char → Bool) : Pattern Label := many false (char test)

/-- At least one character that satisfies a test, preferably few. -/
def shortRun1 (test : Char → Bool) : Pattern Label := char test ++ shortRun test

/-! ## Classes of characters -/

/-- The characters of a line. -/
def isInLine (c : Char) : Bool := c != '\n'

/-- The characters that do not stand in a given text. -/
def isNoneOf (text : String) (c : Char) : Bool := !text.toList.contains c

/-- Any number of spaces. -/
def spaces : Pattern Label := run Ascii.isSpace

/-- At least one space. -/
def spaces1 : Pattern Label := run1 Ascii.isSpace

end Pattern

end EsModules
