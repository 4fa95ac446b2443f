import EsModules.Pattern
import EsModules.Text.Edit

/-!
# Searching for patterns

A pattern is matched from a place in a text by trying its choices in their order of preference;
the first way that leads to the end of the pattern is the match.  A search takes the first place
at which there is one.  Several matches are taken one behind the other, so they do not overlap.
-/

namespace EsModules

/-! ## Places -/

/-- A place in a text. -/
structure Cursor where
  /-- The character in front of it, unless it is the front of the text. -/
  before : Option Char
  /-- How many bytes stand in front of it. -/
  pos : Nat
  /-- The text behind it. -/
  rest : List Char
  deriving DecidableEq, Repr

namespace Cursor

/-- The front of a text. -/
def start (text : List Char) : Cursor := ⟨none, 0, text⟩

/-- The place behind the next character. -/
def next? (c : Cursor) : Option Cursor :=
  match c.rest with
  | [] => none
  | a :: rest => some ⟨some a, c.pos + a.utf8Size, rest⟩

/-- Whether a place lies on the edge of a word. -/
def isWordEdge (c : Cursor) : Bool :=
  c.before.any Ascii.isWordChar != c.rest.head?.any Ascii.isWordChar

/-- Whether a place lies at the front of a line. -/
def isLineStart (c : Cursor) : Bool := c.before.all (· == '\n')

theorem next?_length {c c' : Cursor} (h : c.next? = some c') :
    c'.rest.length < c.rest.length := by
  unfold next? at h
  split at h
  · cases h
  · rename_i hr
    cases h
    simp [hr]

end Cursor

/-- The parts of a match that were remembered, the latest first. -/
abbrev Captures (Label : Type) := List (Label × Span)

/-! ## One match -/

namespace Pattern

variable {Label β : Type}

/-- How a matcher is told what has to follow: it goes on from the place that it reaches. -/
abbrev Matcher (Label β : Type) :=
  Cursor → Captures Label → (Cursor → Captures Label → Option β) → Option β

/-- Matches a body again and again, at most a given number of times; a round that takes no
character is not one. -/
def rounds (body : Matcher Label β) (greedy : Bool) : Nat → Matcher Label β
  | 0, c, caps, k => k c caps
  | n + 1, c, caps, k =>
    let again := fun _ : Unit => body c caps fun c' caps' =>
      if c.pos < c'.pos then rounds body greedy n c' caps' k else none
    if greedy then (again ()).orElse fun _ => k c caps
    else (k c caps).orElse again

/-- Matches a pattern at a place and goes on behind it; when what follows fails, the next way to
match is tried. -/
def attempt : Pattern Label → Matcher Label β
  | empty, c, caps, k => k c caps
  | char test, c, caps, k => match c.next? with
    | some c' => if c'.before.any test then k c' caps else none
    | none => none
  | seq p q, c, caps, k => p.attempt c caps fun c' caps' => q.attempt c' caps' k
  | alt p q, c, caps, k => (p.attempt c caps k).orElse fun _ => q.attempt c caps k
  | many greedy p, c, caps, k =>
    rounds (fun c caps k => p.attempt c caps k) greedy c.rest.length c caps k
  | capture label p, c, caps, k =>
    p.attempt c caps fun c' caps' => k c' ((label, ⟨c.pos, c'.pos⟩) :: caps')
  | wordEdge, c, caps, k => if c.isWordEdge then k c caps else none
  | lineStart, c, caps, k => if c.isLineStart then k c caps else none
  | textEnd, c, caps, k => if c.rest.isEmpty then k c caps else none

end Pattern

/-- A match of a pattern. -/
structure Match (Label : Type) where
  /-- The place in front of it. -/
  front : Cursor
  /-- The place behind it. -/
  back : Cursor
  /-- Its remembered parts. -/
  captures : Captures Label
  deriving Repr

namespace Match

variable {Label : Type}

/-- The bytes that a match covers. -/
def span (m : Match Label) : Span := ⟨m.front.pos, m.back.pos⟩

/-- The part of a match that was remembered last under a label. -/
def part? [DecidableEq Label] (m : Match Label) (label : Label) : Option Span :=
  (m.captures.find? fun entry => entry.1 = label).map (·.2)

/-- Where the next search starts: behind the match, but at least one character behind its
front. -/
def resume? (m : Match Label) : Option Cursor :=
  if m.front.pos < m.back.pos then some m.back else m.front.next?

end Match

namespace Pattern

variable {Label : Type}

/-- The preferred match at a place. -/
def matchAt? (p : Pattern Label) (c : Cursor) : Option (Match Label) :=
  p.attempt c [] fun back captures => some ⟨c, back, captures⟩

/-! ## Searching -/

/-- The first match at or behind a place of a text, given by what stands around it. -/
def find? (p : Pattern Label) (before : Option Char) (pos : Nat) :
    List Char → Option (Match Label)
  | [] => p.matchAt? ⟨before, pos, []⟩
  | a :: rest =>
    (p.matchAt? ⟨before, pos, a :: rest⟩).orElse fun _ =>
      find? p (some a) (pos + a.utf8Size) rest

/-- The first match in a text. -/
def first? (p : Pattern Label) (text : List Char) : Option (Match Label) := p.find? none 0 text

/-- Whether a pattern occurs in a text. -/
def occursIn (p : Pattern Label) (text : List Char) : Bool := (p.first? text).isSome

/-- The matches from a place on that are accepted, in at most a given number of searches.  Behind
an accepted match the search goes on; a rejected one hides no other, since the search goes on
one character behind its front. -/
def selectFrom (p : Pattern Label) (accept : Match Label → Bool) :
    Nat → Cursor → List (Match Label)
  | 0, _ => []
  | n + 1, c => match p.find? c.before c.pos c.rest with
    | none => []
    | some m =>
      let onwards := fun c? : Option Cursor => match c? with
        | some c' => selectFrom p accept n c'
        | none => []
      if accept m then m :: onwards m.resume? else onwards m.front.next?

/-- The accepted matches in a text; each search starts further on than the one before. -/
def select (p : Pattern Label) (accept : Match Label → Bool) (text : List Char) :
    List (Match Label) :=
  p.selectFrom accept (text.length + 1) (.start text)

/-- All matches in a text, one behind the other. -/
def matchesIn (p : Pattern Label) (text : List Char) : List (Match Label) :=
  p.select (fun _ => true) text

/-! ## Replacing -/

/-- The edits that put a text in the place of every match. -/
def edits (new : List Char) (found : List (Match Label)) : List Edit :=
  found.map fun m => ⟨m.span, new⟩

/-- A text with every match replaced. -/
def replaceAll (p : Pattern Label) (new text : List Char) : List Char :=
  Edit.applyAll (edits new (p.matchesIn text)) text

/-- A text with its first match replaced. -/
def replaceFirst (p : Pattern Label) (new text : List Char) : List Char :=
  Edit.applyAll (edits new (p.first? text).toList) text

end Pattern

end EsModules
