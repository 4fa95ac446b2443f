import EsModules.Token.Scan

/-!
# The lexer

The lexer cuts source text into tokens without building a syntax tree.  It keeps just enough
context to tell code from strings, templates, regular expressions and comments: whether a slash
may open a regular expression, and which braces and template substitutions are open.  Only a
construct that the input never closes is an error.

The lexer counts bytes by whole offsets (`Lexer.step`).  The tokens, comments and errors that it
gives out have their places in 32-bit words (`Lexer.next`, `Lexer.comments`).

Each token but the last takes at least one byte (`Lexer.next_remaining_lt`), so cutting up a
whole source ends.
-/

namespace EsModules

/-! ## Errors -/

/-- The constructs that can be left open. -/
inductive Unterminated
  | string | template | comment | regex
  deriving DecidableEq, Repr

/-- What a construct is called in a message. -/
def Unterminated.describe : Unterminated → String
  | .string => "string literal"
  | .template => "template literal"
  | .comment => "comment"
  | .regex => "regular expression"

/-- Why the lexer gave no token. -/
inductive LexError
  /-- A construct that starts at an offset is never closed. -/
  | unterminated (what : Unterminated) (offset : Nat)
  /-- A word ends in a braced escape that the input cuts off: its end lies behind the end of the
  input, so it has no text. -/
  | overrun
  deriving DecidableEq, Repr

/-- The text of an error. -/
def LexError.message : LexError → String
  | .unterminated what offset =>
    "unterminated " ++ what.describe ++ " at offset " ++ toString offset
  | .overrun => "word behind the end of input"

/-- The error as it is given out, with its offset in a 32-bit word. -/
def LexError.wrapped : LexError → LexError
  | .unterminated what offset => .unterminated what (offset % 0x100000000)
  | .overrun => .overrun

/-! ## State -/

/-- What an open brace closes: a block, or a substitution of a template. -/
inductive Brace
  | block | template
  deriving DecidableEq, Repr

/-- The lexer between two tokens. -/
structure Lexer where
  /-- The characters not yet touched. -/
  rest : List Char
  /-- The offset of the next byte. -/
  pos : Nat
  /-- How many bytes of the last character taken are still to be given out, each as an unknown
  token; only a space outside ASCII behind a number sign is cut up so. -/
  owed : Nat
  /-- Whether a slash opens a regular expression here. -/
  regexAllowed : Bool
  /-- Whether a word is a property name here. -/
  afterMember : Bool
  /-- The open braces, the innermost first. -/
  braces : List Brace
  /-- The places of the comments read so far, in source order and by whole offsets. -/
  commentPlaces : List Span
  deriving DecidableEq, Repr

namespace Lexer

/-- The comments read so far, in source order, as they are given out. -/
def comments (l : Lexer) : List Span := l.commentPlaces.map Span.wrapped

/-- The number of bytes not yet given out. -/
def remaining (l : Lexer) : Nat := Text.byteLength l.rest + l.owed

/-- The lexer behind what a scanner took. -/
def advance (l : Lexer) (s : Scan) : Lexer := { l with rest := s.rest, pos := l.pos + s.width }

/-- The lexer in front of a source; a first line that starts with a number sign and an
exclamation mark is a comment. -/
def start (source : List Char) : Lexer :=
  let l : Lexer := ⟨source, 0, 0, true, false, [], []⟩
  match source with
  | '#' :: '!' :: _ =>
    let s := scanLineComment source
    { l.advance s with commentPlaces := [⟨0, s.width⟩] }
  | _ => l

/-! ## Spaces and comments -/

/-- What stands between two tokens. -/
structure Trivia where
  /-- The comments, in source order. -/
  comments : List Span
  /-- The offset behind them. -/
  pos : Nat
  /-- The input behind them. -/
  rest : List Char
  /-- The offset of a comment that is never closed. -/
  unclosed : Option Nat
  deriving DecidableEq, Repr

/-- The spaces and comments in front of an input that starts at an offset. -/
def trivia (pos : Nat) : List Char → Trivia
  | [] => ⟨[], pos, [], none⟩
  | '/' :: '/' :: r =>
    let s := (scanLineComment r).prepend ['/', '/']
    let t := trivia (pos + s.width) s.rest
    { t with comments := ⟨pos, pos + s.width⟩ :: t.comments }
  | '/' :: '*' :: r =>
    let body := scanBlockComment r
    let s := body.1.prepend ['/', '*']
    if body.2 then
      let t := trivia (pos + s.width) s.rest
      { t with comments := ⟨pos, pos + s.width⟩ :: t.comments }
    else ⟨[], pos + s.width, s.rest, some pos⟩
  | c :: r => if isSpace c then trivia (pos + c.utf8Size) r else ⟨[], pos, c :: r, none⟩
termination_by input => input.length
decreasing_by
  · have h := congrArg List.length (Scan.takeWhile_text_append_rest (fun c => !Ascii.isLineEnd c) r)
    simp only [List.length_append] at h
    simp only [Scan.prepend, scanLineComment, List.length_cons]
    omega
  · have h := congrArg List.length (scanBlockComment_text_append_rest r)
    simp only [List.length_append] at h
    simp only [Scan.prepend, List.length_cons]
    omega
  · simp

/-! ## One token -/

/-- Reads a word. -/
def readWord (l : Lexer) : Except LexError TokenKind × Lexer :=
  let s := scanWord false l.rest
  if l.afterMember then (.ok .identifier, l.advance s)
  else if s.past > 0 then (.error .overrun, l.advance s)
  else match Keyword.ofSpelling? s.text with
    | some word => (.ok (.keyword word), l.advance s)
    | none => (.ok .identifier, l.advance s)

/-- Reads a private name, given the input behind its number sign. -/
def readPrivateName (l : Lexer) (input : List Char) : Except LexError TokenKind × Lexer :=
  let s := scanWord false input
  match s.text, input with
  | [], c :: r =>
    (.ok .privateName, { l with rest := r, pos := l.pos + 2, owed := c.utf8Size - 1 })
  | _, _ =>
    if s.past > 0 && !l.afterMember then (.error .overrun, l.advance (s.cons '#'))
    else (.ok .privateName, l.advance (s.cons '#'))

/-- Reads a part of a template, given what stands in front of it, and the kinds it has when it
closes the template and when it opens a substitution. -/
def readTemplate (l : Lexer) (opening : Char) (input : List Char)
    (closed opened : TokenKind) : Except LexError TokenKind × Lexer :=
  let (s, e) := scanTemplate input
  let l' := l.advance (s.cons opening)
  match e with
  | .closed => (.ok closed, l')
  | .substitution => (.ok opened, { l' with braces := .template :: l'.braces })
  | .missing => (.error (.unterminated .template l.pos), l')

/-- Reads a punctuator or an unknown character. -/
def readMark (l : Lexer) : Except LexError TokenKind × Lexer :=
  match scanPunct l.rest, l.rest with
  | some (mark, s), _ => (.ok (.punct mark), l.advance s)
  | none, c :: r => (.ok .unknown, l.advance ⟨[c], r, 0⟩)
  | none, [] => (.ok .unknown, l)

/-! ### By the first character

How a token is read is told by its first character, and by the one behind it if that is a point or a
number sign.  What is shown of the ways to read a token is shown start by start. -/

/-- What the first character of a token starts. -/
inductive Start
  | word | number | string | template | privateName | regex | openBrace | closeBrace | mark

/-- What a character starts, given whether a digit stands behind it, whether a word does, and
whether a regular expression may stand here. -/
def Start.of (c : Char) (digit word regex : Bool) : Start :=
  if isWordStart c then .word
  else if Ascii.isDigit c || (c == '.' && digit) then .number
  else if c == '"' || c == '\'' then .string
  else if c == '\x60' then .template
  else if c == '#' && word then .privateName
  else if c == '/' && regex then .regex
  else if c == '\x7b' then .openBrace
  else if c == '\x7d' then .closeBrace
  else .mark

/-- What the first character of an input starts. -/
def starts (l : Lexer) (c : Char) (r : List Char) : Start :=
  .of c ((r.head?.map Ascii.isDigit).getD false) ((r.head?.map isWordStart).getD false)
    l.regexAllowed

/-- Reads a closing brace, or behind that of a substitution the next part of its template. -/
def readClosing (l : Lexer) (c : Char) (r : List Char) : Except LexError TokenKind × Lexer :=
  match l.braces with
  | .template :: braces =>
    { l with braces := braces }.readTemplate c r .templateTail .templateMiddle
  | _ => (.ok (.punct .rBrace), { l.advance ⟨[c], r, 0⟩ with braces := l.braces.tail })

/-- Reads a token that starts in a given way, given its first character and what stands behind. -/
def readFrom (l : Lexer) (c : Char) (r : List Char) : Start → Except LexError TokenKind × Lexer
  | .word => l.readWord
  | .number => (.ok .number, l.advance (scanNumber (c :: r)))
  | .string =>
    let (s, closed) := scanString c r
    (if closed then .ok .string else .error (.unterminated .string l.pos), l.advance (s.cons c))
  | .template => l.readTemplate c r .noSubstitutionTemplate .templateHead
  | .privateName => l.readPrivateName r
  | .regex =>
    let (s, closed) := scanRegex r
    (if closed then .ok .regex else .error (.unterminated .regex l.pos), l.advance (s.cons c))
  | .openBrace =>
    (.ok (.punct .lBrace), { l.advance ⟨[c], r, 0⟩ with braces := .block :: l.braces })
  | .closeBrace => l.readClosing c r
  | .mark => l.readMark

/-- Reads the token that starts right here, where no space or comment stands. -/
def read (l : Lexer) : Except LexError TokenKind × Lexer :=
  match l.rest with
  | [] =>
    if l.braces.contains .template then (.error (.unterminated .template l.pos), l)
    else (.ok .eof, l)
  | c :: r => l.readFrom c r (l.starts c r)

/-- The lexer behind a token of a given kind. -/
def after (l : Lexer) (kind : TokenKind) : Lexer :=
  { l with regexAllowed := kind.allowsRegexAfter, afterMember := kind.isMemberAccess }

/-- Reads the next token, with its place by whole offsets. -/
def step (l : Lexer) : Except LexError Token × Lexer :=
  if l.owed > 0 then
    (.ok ⟨.unknown, ⟨l.pos, l.pos + 1⟩⟩,
      { l with pos := l.pos + 1, owed := l.owed - 1 }.after .unknown)
  else
    let t := trivia l.pos l.rest
    let l' :=
      { l with pos := t.pos, rest := t.rest, commentPlaces := l.commentPlaces ++ t.comments }
    match t.unclosed with
    | some offset => (.error (.unterminated .comment offset), l')
    | none => match l'.read with
      | (.error e, l'') => (.error e, l'')
      | (.ok .eof, l'') => (.ok ⟨.eof, ⟨l'.pos, l''.pos⟩⟩, l'')
      | (.ok kind, l'') => (.ok ⟨kind, ⟨l'.pos, l''.pos⟩⟩, l''.after kind)

/-- Reads the next token.  At the end of the input, and after an error, it can be called again. -/
def next (l : Lexer) : Except LexError Token × Lexer :=
  match l.step with
  | (.ok t, l') => (.ok t.wrapped, l')
  | (.error e, l') => (.error e.wrapped, l')

/-! ## The starts of tokens -/

/-- What is known of a character by what it starts. -/
def Start.Tells (c : Char) (word regex : Bool) : Start → Prop
  | .word => isWordStart c = true
  | .number => isWordStart c = false ∧ (Ascii.isDigit c = true ∨ c = '.')
  | .string => c = '"' ∨ c = '\''
  | .template => c = '\x60'
  | .privateName => c = '#' ∧ word = true
  | .regex => c = '/' ∧ regex = true
  | .openBrace => c = '\x7b'
  | .closeBrace => c = '\x7d'
  | .mark => isWordStart c = false ∧ (c = '#' → word = false)

theorem Start.tells_of (c : Char) (digit word regex : Bool) :
    (Start.of c digit word regex).Tells c word regex := by
  unfold Start.of
  by_cases hword : isWordStart c = true
  · rw [if_pos hword]
    exact hword
  by_cases hnumber : (Ascii.isDigit c || (c == '.' && digit)) = true
  · rw [if_neg hword, if_pos hnumber]
    simp only [Bool.or_eq_true, Bool.and_eq_true, beq_iff_eq] at hnumber
    exact ⟨Bool.eq_false_iff.2 hword, hnumber.imp_right And.left⟩
  by_cases hstring : (c == '"' || c == '\'') = true
  · rw [if_neg hword, if_neg hnumber, if_pos hstring]
    simp only [Bool.or_eq_true, beq_iff_eq] at hstring
    exact hstring
  by_cases htemplate : (c == '\x60') = true
  · rw [if_neg hword, if_neg hnumber, if_neg hstring, if_pos htemplate]
    exact beq_iff_eq.1 htemplate
  rw [if_neg hword, if_neg hnumber, if_neg hstring, if_neg htemplate]
  by_cases hsharp : (c == '#' && word) = true
  · rw [if_pos hsharp]
    simp only [Bool.and_eq_true, beq_iff_eq] at hsharp
    exact hsharp
  by_cases hregex : (c == '/' && regex) = true
  · rw [if_neg hsharp, if_pos hregex]
    simp only [Bool.and_eq_true, beq_iff_eq] at hregex
    exact hregex
  by_cases hopen : (c == '\x7b') = true
  · rw [if_neg hsharp, if_neg hregex, if_pos hopen]
    exact beq_iff_eq.1 hopen
  by_cases hclose : (c == '\x7d') = true
  · rw [if_neg hsharp, if_neg hregex, if_neg hopen, if_pos hclose]
    exact beq_iff_eq.1 hclose
  rw [if_neg hsharp, if_neg hregex, if_neg hopen, if_neg hclose]
  exact ⟨Bool.eq_false_iff.2 hword, fun hc => by simpa [hc] using hsharp⟩

/-- A token is read in the way in which it starts. -/
theorem read_cons {l : Lexer} {c : Char} {r : List Char} (hl : l.rest = c :: r) :
    l.read = l.readFrom c r (l.starts c r) := by
  unfold read
  rw [hl]

theorem read_of_isWordStart {l : Lexer} {c : Char} {r : List Char} (hl : l.rest = c :: r)
    (hc : isWordStart c = true) : l.read = l.readWord := by
  rw [read_cons hl, starts, Start.of, if_pos hc]
  rfl

theorem read_of_isDigit {l : Lexer} {c : Char} {r : List Char} (hl : l.rest = c :: r)
    (hc : Ascii.isDigit c = true) (hword : isWordStart c = false) :
    l.read = (.ok .number, l.advance (scanNumber l.rest)) := by
  rw [read_cons hl, starts, Start.of, hword, hc, hl]
  rfl

theorem read_closeBrace {l : Lexer} {r : List Char} (hl : l.rest = '\x7d' :: r)
    (hbraces : .template ∉ l.braces) :
    l.read = (.ok (.punct .rBrace),
      { l.advance ⟨['\x7d'], r, 0⟩ with braces := l.braces.tail }) := by
  have hclose : l.read = l.readClosing '\x7d' r := read_cons hl
  rw [hclose, readClosing]
  cases hb : l.braces with
  | nil => rfl
  | cons brace braces =>
    cases brace with
    | block => rfl
    | template => exact absurd (hb ▸ List.mem_cons_self) hbraces

/-- How a token starts, what that tells of its first character, and how it is read. -/
theorem exists_start {l : Lexer} {c : Char} {r : List Char} (hl : l.rest = c :: r) :
    ∃ start, l.starts c r = start ∧
      start.Tells c ((r.head?.map isWordStart).getD false) l.regexAllowed ∧
      l.read = l.readFrom c r start :=
  ⟨l.starts c r, rfl, Start.tells_of _ _ _ _, read_cons hl⟩

/-! ## The ways to read a token

One call of the lexer gives out a byte that is still owed, or it skips what stands in front of the
next token and reads that.  Whatever holds of all these ways holds of every call. -/

/-- The ways to read a token that starts right here, each with the lexer behind it. -/
inductive Reads (l : Lexer) : TokenKind → Lexer → Prop
  | eof : l.rest = [] → Brace.template ∉ l.braces → Reads l .eof l
  | property {c r} : l.rest = c :: r → isWordStart c = true → l.afterMember = true →
      Reads l .identifier (l.advance (scanWord false l.rest))
  | keyword {c r w} : l.rest = c :: r → isWordStart c = true → l.afterMember = false →
      (scanWord false l.rest).past = 0 →
      Keyword.ofSpelling? (scanWord false l.rest).text = some w →
      Reads l (.keyword w) (l.advance (scanWord false l.rest))
  | name {c r} : l.rest = c :: r → isWordStart c = true → l.afterMember = false →
      (scanWord false l.rest).past = 0 →
      Keyword.ofSpelling? (scanWord false l.rest).text = none →
      Reads l .identifier (l.advance (scanWord false l.rest))
  | number {c r} : l.rest = c :: r → Ascii.isDigit c = true ∨ c = '.' →
      Reads l .number (l.advance (scanNumber l.rest))
  | string {q r} : l.rest = q :: r → q = '"' ∨ q = '\'' → (scanString q r).2 = true →
      Reads l .string (l.advance ((scanString q r).1.cons q))
  | template {r} : l.rest = '\x60' :: r → (scanTemplate r).2 = .closed →
      Reads l .noSubstitutionTemplate (l.advance ((scanTemplate r).1.cons '\x60'))
  | templateHead {r} : l.rest = '\x60' :: r → (scanTemplate r).2 = .substitution →
      Reads l .templateHead
        { l.advance ((scanTemplate r).1.cons '\x60') with braces := .template :: l.braces }
  | privateName {c r} : l.rest = '#' :: c :: r → isWordStart c = true →
      (scanWord false (c :: r)).text ≠ [] →
      (l.afterMember = false → (scanWord false (c :: r)).past = 0) →
      Reads l .privateName (l.advance ((scanWord false (c :: r)).cons '#'))
  | splitName {c r} : l.rest = '#' :: c :: r → isWordStart c = true →
      (scanWord false (c :: r)).text = [] →
      Reads l .privateName { l with rest := r, pos := l.pos + 2, owed := c.utf8Size - 1 }
  | regex {r} : l.rest = '/' :: r → l.regexAllowed = true → (scanRegex r).2 = true →
      Reads l .regex (l.advance ((scanRegex r).1.cons '/'))
  | openBrace {r} : l.rest = '\x7b' :: r →
      Reads l (.punct .lBrace) { l.advance ⟨['\x7b'], r, 0⟩ with braces := .block :: l.braces }
  | templateTail {r braces} : l.rest = '\x7d' :: r → l.braces = .template :: braces →
      (scanTemplate r).2 = .closed →
      Reads l .templateTail
        ({ l with braces := braces }.advance ((scanTemplate r).1.cons '\x7d'))
  | templateMiddle {r braces} : l.rest = '\x7d' :: r → l.braces = .template :: braces →
      (scanTemplate r).2 = .substitution →
      Reads l .templateMiddle (l.advance ((scanTemplate r).1.cons '\x7d'))
  | closeBrace {r} : l.rest = '\x7d' :: r → l.braces.head? ≠ some .template →
      Reads l (.punct .rBrace) { l.advance ⟨['\x7d'], r, 0⟩ with braces := l.braces.tail }
  | punct {m s} : scanPunct l.rest = some (m, s) → Reads l (.punct m) (l.advance s)
  | unknown {c r} : l.rest = c :: r → isWordStart c = false → scanPunct l.rest = none →
      Reads l .unknown (l.advance ⟨[c], r, 0⟩)

theorem reads_of_readWord {l l' : Lexer} {k : TokenKind} {c : Char} {r : List Char}
    (hl : l.rest = c :: r) (hc : isWordStart c = true) (h : l.readWord = (.ok k, l')) :
    Reads l k l' := by
  unfold readWord at h
  dsimp only at h
  split at h
  · rename_i hm
    obtain ⟨hk, rfl⟩ := Prod.mk.inj h
    exact Except.ok.inj hk ▸ .property hl hc hm
  · rename_i hm
    split at h
    · cases (Prod.mk.inj h).1
    · rename_i hpast
      split at h
      · rename_i w hw
        obtain ⟨hk, rfl⟩ := Prod.mk.inj h
        exact Except.ok.inj hk ▸ .keyword hl hc (by simpa using hm) (by omega) hw
      · rename_i hw
        obtain ⟨hk, rfl⟩ := Prod.mk.inj h
        exact Except.ok.inj hk ▸ .name hl hc (by simpa using hm) (by omega) hw

theorem reads_of_readPrivateName {l l' : Lexer} {k : TokenKind} {c : Char} {r : List Char}
    (hl : l.rest = '#' :: c :: r) (hc : isWordStart c = true)
    (h : l.readPrivateName (c :: r) = (.ok k, l')) : Reads l k l' := by
  unfold readPrivateName at h
  dsimp only at h
  split at h
  · rename_i c' r' htext heq
    obtain ⟨rfl, rfl⟩ := List.cons.inj heq
    obtain ⟨hk, rfl⟩ := Prod.mk.inj h
    exact Except.ok.inj hk ▸ .splitName hl hc htext
  · rename_i hne
    split at h
    · cases (Prod.mk.inj h).1
    · rename_i hpast
      obtain ⟨hk, rfl⟩ := Prod.mk.inj h
      refine Except.ok.inj hk ▸ .privateName hl hc (fun ht => hne c r ht rfl) fun hm => ?_
      simp only [hm, Bool.not_false, Bool.and_true, decide_eq_true_eq] at hpast
      omega

theorem reads_of_readMark {l l' : Lexer} {k : TokenKind} {c : Char} {r : List Char}
    (hl : l.rest = c :: r) (hc : isWordStart c = false) (h : l.readMark = (.ok k, l')) :
    Reads l k l' := by
  unfold readMark at h
  split at h
  · rename_i m s hs
    obtain ⟨hk, rfl⟩ := Prod.mk.inj h
    exact Except.ok.inj hk ▸ .punct hs
  · rename_i c' r' hs hr
    obtain ⟨hk, rfl⟩ := Prod.mk.inj h
    obtain ⟨rfl, rfl⟩ := List.cons.inj (hl.symm.trans hr)
    exact Except.ok.inj hk ▸ .unknown hr hc hs
  · rename_i hr
    cases hl.symm.trans hr

/-- A part of a template ends at the mark that closes the template or at a substitution. -/
theorem readTemplate_eq_ok {l l' : Lexer} {k closed opened : TokenKind} {opening : Char}
    {input : List Char} (h : l.readTemplate opening input closed opened = (.ok k, l')) :
    (scanTemplate input).2 = .closed ∧ k = closed ∧
        l' = l.advance ((scanTemplate input).1.cons opening) ∨
      (scanTemplate input).2 = .substitution ∧ k = opened ∧
        l' = { l.advance ((scanTemplate input).1.cons opening) with
          braces := .template :: l.braces } := by
  unfold readTemplate at h
  dsimp only at h
  split at h
  · rename_i hend
    obtain ⟨hk, rfl⟩ := Prod.mk.inj h
    exact .inl ⟨hend, (Except.ok.inj hk).symm, rfl⟩
  · rename_i hend
    obtain ⟨hk, rfl⟩ := Prod.mk.inj h
    exact .inr ⟨hend, (Except.ok.inj hk).symm, rfl⟩
  · cases (Prod.mk.inj h).1

theorem reads_of_readClosing {l l' : Lexer} {k : TokenKind} {r : List Char}
    (hl : l.rest = '\x7d' :: r) (h : l.readClosing '\x7d' r = (.ok k, l')) : Reads l k l' := by
  unfold readClosing at h
  split at h
  · rename_i braces hb
    rcases readTemplate_eq_ok h with ⟨hend, rfl, rfl⟩ | ⟨hend, rfl, rfl⟩
    · exact .templateTail hl hb hend
    · have hsame : ({ ({ l with braces := braces } : Lexer).advance
            ((scanTemplate r).1.cons '\x7d') with braces := .template :: braces } : Lexer)
          = l.advance ((scanTemplate r).1.cons '\x7d') := by
        simp [advance, ← hb]
      exact hsame ▸ .templateMiddle hl hb hend
  · rename_i hb
    obtain ⟨hk, rfl⟩ := Prod.mk.inj h
    refine Except.ok.inj hk ▸ .closeBrace hl fun hhead => ?_
    obtain ⟨braces, hbraces⟩ := List.head?_eq_some_iff.1 hhead
    exact hb braces hbraces

/-- Every token that is read is read in one of the listed ways. -/
theorem reads_of_read {l l' : Lexer} {k : TokenKind} (h : l.read = (.ok k, l')) :
    Reads l k l' := by
  cases hl : l.rest with
  | nil =>
    unfold read at h
    rw [hl] at h
    dsimp only at h
    split at h
    · cases (Prod.mk.inj h).1
    · rename_i hb
      obtain ⟨hk, rfl⟩ := Prod.mk.inj h
      exact Except.ok.inj hk ▸ .eof hl (by simpa using hb)
  | cons c r =>
    obtain ⟨start, -, htells, hread⟩ := exists_start hl
    rw [hread] at h
    cases start with
    | word => exact reads_of_readWord hl htells h
    | number =>
      obtain ⟨hk, rfl⟩ := Prod.mk.inj h
      rw [← hl]
      exact Except.ok.inj hk ▸ .number hl htells.2
    | string =>
      obtain ⟨hk, rfl⟩ := Prod.mk.inj h
      split at hk
      · rename_i hclosed
        exact Except.ok.inj hk ▸ .string hl htells hclosed
      · cases hk
    | template =>
      obtain rfl : c = '\x60' := htells
      rcases readTemplate_eq_ok h with ⟨hend, rfl, rfl⟩ | ⟨hend, rfl, rfl⟩
      · exact .template hl hend
      · exact .templateHead hl hend
    | privateName =>
      obtain ⟨rfl, hword⟩ := htells
      cases r with
      | nil => cases hword
      | cons d r => exact reads_of_readPrivateName hl hword h
    | regex =>
      obtain ⟨rfl, hallowed⟩ := htells
      obtain ⟨hk, rfl⟩ := Prod.mk.inj h
      split at hk
      · rename_i hclosed
        exact Except.ok.inj hk ▸ .regex hl hallowed hclosed
      · cases hk
    | openBrace =>
      obtain rfl : c = '\x7b' := htells
      obtain ⟨hk, rfl⟩ := Prod.mk.inj h
      exact Except.ok.inj hk ▸ .openBrace hl
    | closeBrace =>
      obtain rfl : c = '\x7d' := htells
      exact reads_of_readClosing hl h
    | mark => exact reads_of_readMark hl htells.1 h

/-- The lexer behind the spaces and comments in front of it. -/
def skip (l : Lexer) : Lexer :=
  let t := trivia l.pos l.rest
  { l with pos := t.pos, rest := t.rest, commentPlaces := l.commentPlaces ++ t.comments }

/-- The tokens that a call can give, each with the lexer behind it. -/
inductive Gives (l : Lexer) : Token → Lexer → Prop
  | owed : 0 < l.owed → Gives l ⟨.unknown, ⟨l.pos, l.pos + 1⟩⟩
      ({ l with pos := l.pos + 1, owed := l.owed - 1 }.after .unknown)
  | eof {l'} : l.owed = 0 → (trivia l.pos l.rest).unclosed = none → Reads l.skip .eof l' →
      Gives l ⟨.eof, ⟨l.skip.pos, l'.pos⟩⟩ l'
  | read {k l'} : l.owed = 0 → (trivia l.pos l.rest).unclosed = none → k ≠ .eof →
      Reads l.skip k l' → Gives l ⟨k, ⟨l.skip.pos, l'.pos⟩⟩ (l'.after k)

/-- Every token that a call gives is given in one of the listed ways. -/
theorem gives_of_step {l l' : Lexer} {t : Token} (h : l.step = (.ok t, l')) : Gives l t l' := by
  unfold step at h
  split at h
  · rename_i howed
    obtain ⟨ht, rfl⟩ := Prod.mk.inj h
    exact Except.ok.inj ht ▸ .owed howed
  · rename_i howed
    dsimp only at h
    split at h
    · cases (Prod.mk.inj h).1
    · rename_i hclosed
      split at h
      · cases (Prod.mk.inj h).1
      · rename_i l'' hread
        obtain ⟨ht, rfl⟩ := Prod.mk.inj h
        exact Except.ok.inj ht ▸ .eof (by omega) hclosed (reads_of_read hread)
      · rename_i k l'' hne hread
        obtain ⟨ht, rfl⟩ := Prod.mk.inj h
        exact Except.ok.inj ht ▸ .read (by omega) hclosed
          (fun hk => hne (by rw [← hk])) (reads_of_read hread)

/-! ## Progress -/

/-- What lies between two states of the lexer: the text taken, and by how many bytes the second
stands behind the end of the input. -/
structure Between (l l' : Lexer) (text : List Char) (past : Nat) : Prop where
  rest : l.rest = text ++ l'.rest
  pos : l'.pos + l'.owed = l.pos + Text.byteLength text + past
  past : past = 0 ∨ past = 1 ∧ l'.rest = [] ∧ l'.owed = 0
  owed : l'.owed = 0 ∨ ∃ front c, text = front ++ [c] ∧ l'.owed < c.utf8Size

theorem between_advance {l : Lexer} {s : Scan} (howed : l.owed = 0)
    (hs : s.text ++ s.rest = l.rest) (hpast : s.past = 0 ∨ s.past = 1 ∧ s.rest = []) :
    Between l (l.advance s) s.text s.past where
  rest := hs.symm
  pos := by simp only [advance, howed, Scan.width]; omega
  past := hpast.imp_right fun h => ⟨h.1, h.2, howed⟩
  owed := .inl howed

/-- The open braces have no part in what lies between two states. -/
theorem Between.withBraces {l l' : Lexer} {text : List Char} {past : Nat}
    (h : Between l l' text past) (braces : List Brace) :
    Between l { l' with braces := braces } text past :=
  ⟨h.rest, h.pos, h.past, h.owed⟩

theorem scanWord_text_ne_nil {c : Char} {r : List Char} (hc : isWordStart c = true)
    (hspace : isUnicodeSpace c = false) : (scanWord false (c :: r)).text ≠ [] := by
  have hpart : isWordPart c = true ∨ c = '\\' := by
    simp only [isWordStart, Bool.or_eq_true, beq_iff_eq] at hc
    simp only [isWordPart, Ascii.isWordChar, Ascii.isAlphanumeric, hspace, Bool.not_false,
      Bool.and_true, Bool.or_eq_true, beq_iff_eq]
    grind
  unfold scanWord
  split <;> simp_all [Scan.cons, Scan.prepend]

theorem scanNumber_text_ne_nil {c : Char} {r : List Char} (hc : Ascii.isDigit c = true ∨ c = '.') :
    (scanNumber (c :: r)).text ≠ [] := by
  have hdec : (scanNumber.decimal (c :: r)).text ≠ [] := by
    rcases hc with hc | hc
    · simp [scanNumber.decimal, Scan.prepend, scanDigits, Scan.takeWhile, hc]
    · subst hc
      simp [scanNumber.decimal, Scan.prepend, scanDigits, Scan.takeWhile, Ascii.isDigit,
        scanFraction, Scan.cons]
  unfold scanNumber
  split
  · split
    · simp [Scan.prepend]
    · exact hdec
  · exact hdec

/-- Every way to read a token but the end takes some text from the front of the input. -/
theorem Reads.between {l l' : Lexer} {k : TokenKind} (h : Reads l k l') (hk : k ≠ .eof)
    (howed : l.owed = 0) (hspace : ∀ c ∈ l.rest.head?, isUnicodeSpace c = false) :
    ∃ text past, text ≠ [] ∧ Between l l' text past := by
  have word {c r} (hl : l.rest = c :: r) (hc : isWordStart c = true) :
      ∃ text past, text ≠ [] ∧ Between l (l.advance (scanWord false l.rest)) text past :=
    ⟨_, _, hl ▸ scanWord_text_ne_nil hc (hspace c (by simp [hl])),
      between_advance howed (scanWord_text_append_rest _ _) (scanWord_past _ _)⟩
  -- a scanner that is called behind the first character, which belongs to the token
  have behind {c r} {s : Scan} (hl : l.rest = c :: r) (hs : s.text ++ s.rest = r)
      (hpast : s.past = 0 ∨ s.past = 1 ∧ s.rest = []) :
      ∃ text past, text ≠ [] ∧ Between l (l.advance (s.cons c)) text past :=
    ⟨_, _, List.cons_ne_nil c s.text,
      between_advance howed (by simp [Scan.cons, hl, hs]) hpast⟩
  have template {c r} (hl : l.rest = c :: r) :
      ∃ text past, text ≠ [] ∧ Between l (l.advance ((scanTemplate r).1.cons c)) text past :=
    behind hl (scanTemplate_text_append_rest r) (.inl (scanTemplate_past r))
  have single {c r} (hl : l.rest = c :: r) :
      ∃ text past, text ≠ [] ∧ Between l (l.advance ⟨[c], r, 0⟩) text past :=
    ⟨_, _, List.cons_ne_nil c [], between_advance howed (by simp [hl]) (.inl rfl)⟩
  cases h with
  | eof => exact absurd rfl hk
  | property hl hc => exact word hl hc
  | keyword hl hc => exact word hl hc
  | name hl hc => exact word hl hc
  | number hl hc =>
    exact ⟨_, _, hl ▸ scanNumber_text_ne_nil hc,
      between_advance howed (scanNumber_text_append_rest _) (.inl (scanNumber_past _))⟩
  | string hl _ _ => exact behind hl (scanString_text_append_rest _ _) (.inl (scanString_past _ _))
  | template hl _ => exact template hl
  | templateHead hl _ =>
    obtain ⟨text, past, hne, hb⟩ := template hl
    exact ⟨text, past, hne, hb.withBraces _⟩
  | privateName hl _ _ _ =>
    exact behind hl (scanWord_text_append_rest _ _) (scanWord_past _ _)
  | @splitName c r hl _ _ =>
    have hc := c.utf8Size_pos
    have hsharp : ('#' : Char).utf8Size = 1 := rfl
    refine ⟨['#', c], 0, by simp, by simp [hl], ?_, .inl rfl,
      .inr ⟨['#'], c, rfl, by dsimp only; omega⟩⟩
    simp only [Text.byteLength_cons, Text.byteLength_nil, hsharp]
    omega
  | regex hl _ hclosed =>
    exact behind hl (scanRegex_text_append_rest _) (.inl (scanRegex_past _ hclosed))
  | openBrace hl =>
    obtain ⟨text, past, hne, hb⟩ := single hl
    exact ⟨text, past, hne, hb.withBraces _⟩
  | @templateTail r braces hl _ _ =>
    obtain ⟨text, past, hne, hb⟩ := template hl
    exact ⟨text, past, hne, hb.withBraces braces⟩
  | templateMiddle hl _ _ => exact template hl
  | closeBrace hl _ =>
    obtain ⟨text, past, hne, hb⟩ := single hl
    exact ⟨text, past, hne, hb.withBraces _⟩
  | punct hs =>
    obtain ⟨-, -, -, hsplit, hpast⟩ := scanPunct_eq_some hs
    exact ⟨_, _, scanPunct_text_ne_nil hs, between_advance howed hsplit (.inl hpast)⟩
  | unknown hl _ _ => exact single hl

/-- Reading a token adds no comment. -/
theorem Reads.commentPlaces {l l' : Lexer} {k : TokenKind} (h : Reads l k l') :
    l'.commentPlaces = l.commentPlaces := by
  cases h <;> rfl

theorem Between.remaining_lt {l l' : Lexer} {text : List Char} {past : Nat}
    (h : Between l l' text past) (hne : text ≠ []) : l'.remaining < l.remaining := by
  have hrest := congrArg Text.byteLength h.rest
  simp only [Text.byteLength_append] at hrest
  have howed : l'.owed < Text.byteLength text := by
    rcases h.owed with howed | ⟨front, c, rfl, hlt⟩
    · obtain ⟨c, cs, rfl⟩ := List.exists_cons_of_ne_nil hne
      have hc := c.utf8Size_pos
      simp only [Text.byteLength_cons]
      omega
    · simp only [Text.byteLength_append, Text.byteLength_cons, Text.byteLength_nil]
      omega
  simp only [remaining]
  omega

theorem Between.pos_lt {l l' : Lexer} {text : List Char} {past : Nat}
    (h : Between l l' text past) (hne : text ≠ []) : l.pos < l'.pos := by
  have hpos := h.pos
  rcases h.owed with howed | ⟨front, c, rfl, hlt⟩
  · obtain ⟨c, cs, rfl⟩ := List.exists_cons_of_ne_nil hne
    have hc := c.utf8Size_pos
    simp only [Text.byteLength_cons] at hpos
    omega
  · simp only [Text.byteLength_append, Text.byteLength_cons, Text.byteLength_nil] at hpos
    omega

theorem trivia_rest_le (pos : Nat) (input : List Char) :
    Text.byteLength (trivia pos input).rest ≤ Text.byteLength input := by
  fun_induction trivia pos input with
  | case1 => simp
  | case2 pos r s t ih =>
    have h := congrArg Text.byteLength
      (Scan.takeWhile_text_append_rest (fun c => !Ascii.isLineEnd c) r)
    simp only [Text.byteLength_append] at h
    simp only [s, Scan.prepend, scanLineComment] at ih
    simp only [t, s, Scan.prepend, scanLineComment, Text.byteLength_cons]
    omega
  | case3 pos r body s hclosed t ih =>
    have h := congrArg Text.byteLength (scanBlockComment_text_append_rest r)
    simp only [Text.byteLength_append] at h
    simp only [s, body, Scan.prepend] at ih
    simp only [t, s, body, Scan.prepend, Text.byteLength_cons]
    omega
  | case4 pos r body s hopen =>
    have h := congrArg Text.byteLength (scanBlockComment_text_append_rest r)
    simp only [Text.byteLength_append] at h
    simp only [s, body, Scan.prepend, Text.byteLength_cons]
    omega
  | case5 pos c r _ _ hc ih => simp only [Text.byteLength_cons]; omega
  | case6 => simp

theorem trivia_rest_head (pos : Nat) (input : List Char) (h : (trivia pos input).unclosed = none) :
    ∀ c ∈ (trivia pos input).rest.head?, isSpace c = false := by
  fun_induction trivia pos input with
  | case1 => simp
  | case2 pos r s t ih => exact ih h
  | case3 pos r body s hclosed t ih => exact ih h
  | case4 => simp at h
  | case5 pos c r _ _ hc ih => exact ih h
  | case6 => simp_all

/-- No space is left in front of a token. -/
theorem skip_rest_head {l : Lexer} (h : (trivia l.pos l.rest).unclosed = none) :
    ∀ c ∈ l.skip.rest.head?, isUnicodeSpace c = false := by
  intro c hc
  have hspace := trivia_rest_head l.pos l.rest h c hc
  simp only [isSpace, Bool.or_eq_false_iff] at hspace
  exact hspace.2

/-- Every token but the last takes at least one byte. -/
theorem step_remaining_lt {l l' : Lexer} {t : Token} (h : l.step = (.ok t, l'))
    (hk : t.kind ≠ .eof) : l'.remaining < l.remaining := by
  cases gives_of_step h with
  | owed howed =>
    simp only [remaining, after]
    omega
  | eof => exact absurd rfl hk
  | @read k l'' howed hclosed _ hreads =>
    obtain ⟨text, past, hne, hb⟩ := hreads.between hk howed (skip_rest_head hclosed)
    have hlt : l''.remaining < l.skip.remaining := hb.remaining_lt hne
    have hskip : Text.byteLength l.skip.rest ≤ Text.byteLength l.rest := trivia_rest_le _ _
    simp only [remaining, after, skip] at hlt hskip ⊢
    omega

theorem next_snd (l : Lexer) : l.next.2 = l.step.2 := by
  unfold next
  split
  · rename_i hstep
    rw [hstep]
  · rename_i hstep
    rw [hstep]

/-- A token is given out with its place in 32-bit words. -/
theorem next_eq_ok {l l' : Lexer} {t : Token} :
    l.next = (.ok t, l') ↔ ∃ t', l.step = (.ok t', l') ∧ t = t'.wrapped := by
  unfold next
  constructor
  · intro h
    split at h
    · rename_i t' l'' hstep
      obtain ⟨ht, rfl⟩ := Prod.mk.inj h
      exact ⟨t', hstep, (Except.ok.inj ht).symm⟩
    · cases (Prod.mk.inj h).1
  · rintro ⟨t', hstep, rfl⟩
    rw [hstep]

theorem next_remaining_lt {l l' : Lexer} {t : Token} (h : l.next = (.ok t, l'))
    (hk : t.kind ≠ .eof) : l'.remaining < l.remaining := by
  obtain ⟨t', hstep, rfl⟩ := next_eq_ok.1 h
  exact step_remaining_lt hstep hk

/-! ## A whole source -/

/-- The tokens from here to the end of the input, and all comments. -/
def tokens (l : Lexer) : Except LexError (List Token × List Span) :=
  match _h : l.next with
  | (.error e, _) => .error e
  | (.ok t, l') =>
    if _hk : t.kind = .eof then .ok ([], l'.comments)
    else (tokens l').map fun (ts, cs) => (t :: ts, cs)
termination_by l.remaining
decreasing_by exact next_remaining_lt _h _hk

end Lexer

/-- The tokens and the comments of a source, each in source order. -/
def tokenize (source : List Char) : Except LexError (List Token × List Span) :=
  (Lexer.start source).tokens

/-- The places of a reserved word in a source. -/
def keywordSpans (source : List Char) (word : Keyword) : Except LexError (List Span) :=
  (tokenize source).map fun (tokens, _) =>
    (tokens.filter fun t => t.kind == .keyword word).map Token.span

/-- The comments of a source. -/
def commentSpans (source : List Char) : Except LexError (List Span) :=
  (tokenize source).map Prod.snd

end EsModules
