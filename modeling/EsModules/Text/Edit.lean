import EsModules.Span

/-!
# Edits

An edit puts a text in the place of a span.  Edits that are given from the front to the back and
do not overlap can be applied together, and all offsets are those of the text before.
-/

namespace EsModules

/-- A span and the text that takes its place. -/
structure Edit where
  /-- What is replaced. -/
  span : Span
  /-- What stands there afterwards. -/
  replacement : List Char
  deriving DecidableEq, Repr

namespace Edit

/-- Whether edits follow one another from an offset on without overlapping. -/
def areOrdered (offset : Nat) : List Edit → Bool
  | [] => true
  | e :: es => offset ≤ e.span.start && areOrdered e.span.stop es

/-- Edits applied to the part of a text that starts at an offset. -/
def applyFrom (offset : Nat) : List Edit → List Char → List Char
  | [], text => text
  | e :: es, text =>
    Text.takeBytes (e.span.start - offset) text ++ e.replacement
      ++ applyFrom e.span.stop es (Text.dropBytes (e.span.stop - offset) text)

/-- Ordered edits applied to a text. -/
def applyAll (es : List Edit) (text : List Char) : List Char := applyFrom 0 es text

end Edit

end EsModules
