import EsModules.Unicode.Direction
import EsModules.Unicode.Joining
import EsModules.Unicode.Normalization
import EsModules.Url.DomainName.Mapping
import EsModules.Url.Punycode

/-!
# Labels

The parts of a domain name between its points are labels.  A label that is not ASCII has an ASCII
form: its Punycode behind a mark.  Labels must not start with a mark of writing, have joiners only
where letters join, and, in a name that is read from right to left in places, read in one
direction each.
-/

namespace EsModules.DomainName

/-! ## Joiners -/

/-- The character that keeps the letters around it from joining. -/
def nonJoiner : Char := '\u200C'

/-- The character that makes the letters around it join. -/
def joiner : Char := '\u200D'

/-- Whether the first character that is not transparent joins on a side. -/
def joins (side : Unicode.Joining) (text : List Char) : Bool :=
  match (text.map Unicode.joining).dropWhile (· == .transparent) with
  | j :: _ => j == .onBothSides || j == side
  | [] => false

/-- Whether the joiners of a text stand behind a virama or, if they keep letters apart, between
letters that would join; what stands before the text is given backwards. -/
def joinersFit : List Char → List Char → Bool
  | _, [] => true
  | before, c :: r =>
    let behindVirama := before.head?.any Unicode.isVirama
    let betweenLetters := joins .withBehind before && joins .withBefore r
    (c != joiner || behindVirama) && (c != nonJoiner || behindVirama || betweenLetters)
      && joinersFit (c :: before) r

/-! ## Direction -/

/-- Whether a label reads in one direction: it starts with a letter, has no letter of the other
direction, and ends, marks aside, in a letter or a number.  From right to left, the numbers are
of one kind. -/
def readsOneWay : List Char → Bool
  | [] => true
  | c :: r =>
    let directions := r.map Unicode.direction
    let ending := (directions.reverse.dropWhile (· == .nonspacing)).head?
    match Unicode.direction c with
    | .leftToRight =>
      !directions.contains .rightToLeft && !directions.contains .arabicNumber
        && ending.all fun d => d == .leftToRight || d == .europeanNumber
    | .rightToLeft =>
      !directions.contains .leftToRight && ending.all (· != .neutral)
        && !(directions.contains .arabicNumber && directions.contains .europeanNumber)
    | _ => false

/-! ## The ASCII form -/

/-- A label, and how it is written in ASCII. -/
structure Label where
  /-- The characters. -/
  text : List Char
  /-- The characters in ASCII. -/
  ascii : List Char
  deriving DecidableEq, Repr

namespace Label

/-- What an ASCII form starts with. -/
def mark : List Char := "xn--".toList

/-- The most characters that the Punycode of a label has. -/
def maxForm : Nat := 2000

/-- The most characters that a label outside ASCII has. -/
def maxLength : Nat := 1000

/-- The characters that no label holds: controls, blanks and those with a meaning in URLs. -/
def isForbidden (c : Char) : Bool :=
  c ≤ ' ' || c == '\x7F' || "%#/:<>?@[\\]^|".toList.contains c

/-- Whether a text is in the form that it has in a domain name. -/
def isNormalForm (text : List Char) : Bool :=
  text.all (fun c => replacement? c == some [c] && !isForbidden c)
    && Unicode.normalize text == text

/-- The label with a Punycode, which must not end in a dash. -/
def ofForm? (form : List Char) : Option (List Char) := do
  guard (form.getLast?.any (· != '-') && form.length ≤ maxForm)
  (Punycode.decode? form).filter fun text => isNormalForm text && !text.contains '.'

/-- The label that a part of a domain name stands for. -/
def ofText? (text : List Char) : Option Label := do
  let label : Label ← match Text.dropPrefix? mark text with
    | some form => (ofForm? form).map fun decoded => ⟨decoded, text⟩
    | none =>
      if text.all Ascii.isAscii then some ⟨text, text⟩
      else some ⟨text, mark ++ Punycode.encode text⟩
  guard (!label.text.head?.any Unicode.isMark && joinersFit [] label.text)
  guard (label.text.all Ascii.isAscii || label.text.length ≤ maxLength)
  return label

end Label

end EsModules.DomainName
