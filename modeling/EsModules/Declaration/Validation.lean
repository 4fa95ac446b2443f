import EsModules.Error
import EsModules.Token.Lexer

/-!
# Validation by keywords

A candidate is kept when a real keyword lies within it.  The keywords come from the tokens of the
source, so that text in strings and comments is none.

* `Validator.lexer`: asks the lexer for the keywords.
* `retain`: the candidates that enclose a keyword; the keywords are given in source order and the
  first that does not start in front of the candidate is looked up by halving.
-/

namespace EsModules

/-- A source of the places of keywords. -/
abbrev Validator := List Char → Keyword → Except Error (List Span)

/-- The keywords that the lexer finds. -/
def Validator.lexer : Validator := fun source word =>
  (keywordSpans source word).mapError fun e => match e with
    | .overrun => .fault .overrun
    | e => .rejected e

namespace Validation

/-- The place that halving closes in on, in a list part of a given size behind a base: the last
that satisfies a test, if the test holds up to some place and not from there on. -/
def narrow (test : Nat → Bool) : Nat → Nat → Nat → Nat
  | 0, base, _ => base
  | fuel + 1, base, size =>
    if size ≤ 1 then base
    else
      let half := size / 2
      narrow test fuel (if test (base + half) then base + half else base) (size - half)

/-- How many elements at the front of a list satisfy a test that holds up to some place and not
from there on. -/
def boundary {α : Type} (test : α → Bool) (as : Array α) : Nat :=
  let holds := fun i => as[i]?.any test
  if as.isEmpty then 0
  else
    let base := narrow holds as.size 0 as.size
    if holds base then base + 1 else base

/-- Whether the first keyword that does not start in front of a range lies within it. -/
def enclosesKeyword (keywords : Array Span) (range : Span) : Bool :=
  keywords[boundary (fun k => k.start < range.start) keywords]?.any fun k => k.stop ≤ range.stop

/-- The candidates that enclose a keyword; all of them if the keywords are not known. -/
def retain {α : Type} (place : α → Span) (keywords : Option (List Span)) (candidates : List α) :
    List α :=
  match keywords with
  | none => candidates
  | some keywords => candidates.filter fun c => enclosesKeyword keywords.toArray (place c)

/-- The candidates that a validator keeps; all of them if it fails, and it is not asked if there
are none. -/
def validate {α : Type} (validator : Validator) (source : List Char) (word : Keyword)
    (place : α → Span) (candidates : List α) : Except Fault (List α) :=
  if candidates.isEmpty then .ok []
  else match validator source word with
    | .ok keywords => .ok (retain place (some keywords) candidates)
    | .error (.fault f) => .error f
    | .error _ => .ok (retain place none candidates)

end Validation

end EsModules
