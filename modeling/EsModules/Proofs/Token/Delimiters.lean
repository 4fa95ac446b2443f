import EsModules.Proofs.Token.Gaps
import EsModules.Proofs.Token.Reserved
import Mathlib.Data.List.TakeWhile

/-!
# Where literals and comments end

A string or a part of a template ends at the first of its marks that no backslash escapes, a block
comment at the first end behind its opening, and a line comment at the end of its line.  The
scanners step over a backslash together with what follows it; which marks that passes over is told
by the number of backslashes in front of them, so the texts of the tokens are described by it alone.

* `Text.Escapes`: a text ends with an odd number of backslashes.
* `Steps`: the steps of a scanner over the body of a literal; `Steps.escapes`: every mark that they
  pass over is escaped.
* `Enclosed`: a literal in which every mark but the last is escaped, and the last is not.
* `scanString_steps`, `scanTemplate_steps`, `scanBlockComment_first`: what the scanners read.
* `Literal`, `Span.HoldsComment`: literals and comments that end where they should.
* `tokenize_delimited`: those of a source of less than 4 GiB do.
-/

namespace EsModules

/-! ## Backslashes in front of a place -/

namespace Text

/-- How many backslashes a text ends with. -/
def backslashes (text : List Char) : Nat := (text.reverse.takeWhile (· == '\\')).length

/-- A text ends with an odd number of backslashes, so that it escapes what follows it. -/
def Escapes (text : List Char) : Prop := backslashes text % 2 = 1

variable {text : List Char} {c : Char}

theorem escapes_append_backslash : Escapes (text ++ ['\\']) ↔ ¬ Escapes text := by
  have h : backslashes (text ++ ['\\']) = backslashes text + 1 := by simp [backslashes]
  unfold Escapes
  omega

theorem not_escapes_append (h : c ≠ '\\') : ¬ Escapes (text ++ [c]) := by
  simp [Escapes, backslashes, h]

theorem not_escapes_singleton (h : c ≠ '\\') : ¬ Escapes [c] :=
  @not_escapes_append [] c h

/-- A backslash that is not escaped escapes one character and no more. -/
theorem not_escapes_escape (h : ¬ Escapes text) : ¬ Escapes (text ++ ['\\', c]) := by
  have hodd := escapes_append_backslash.2 h
  have hsplit : text ++ ['\\', c] = (text ++ ['\\']) ++ [c] := by simp
  rw [hsplit]
  by_cases hc : c = '\\'
  · subst hc
    exact fun hboth => escapes_append_backslash.1 hboth hodd
  · exact not_escapes_append hc

end Text

open Text

/-! ## Bodies of literals -/

/-- The steps of a scanner over the body of a literal, in front of the closing: a character at
which no mark starts, a backslash with the character behind it, or one with a line break. -/
inductive Steps (marks : List (List Char)) (closing : List Char) : List Char → Prop
  | nil : Steps marks closing []
  | plain {c : Char} {body : List Char} : c ≠ '\\' →
      (∀ mark ∈ marks, ¬ mark <+: c :: (body ++ closing)) → Steps marks closing body →
      Steps marks closing (c :: body)
  | escape {c : Char} {body : List Char} : Steps marks closing body →
      Steps marks closing ('\\' :: c :: body)
  | lineBreak {body : List Char} : Steps marks closing body →
      Steps marks closing ('\\' :: '\r' :: '\n' :: body)

/-- Marks that a scanner can tell: each has a first character that is no backslash, the only one
that starts with a line feed is the line feed, and none lies within the closing behind its start. -/
structure AreTold (marks : List (List Char)) (closing : List Char) : Prop where
  ne_nil : ∀ mark ∈ marks, mark ≠ []
  head_ne : ∀ mark ∈ marks, mark.head? ≠ some '\\'
  lineFeed : ∀ mark ∈ marks, mark.head? = some '\n' → mark = ['\n']
  not_infix : ∀ mark ∈ marks, ¬ mark <:+: closing.tail

/-- A literal with its opening and closing: the closing is not escaped, and every mark in front of
it is, be it that a line feed follows an escaped carriage return. -/
def Enclosed (marks : List (List Char)) (opening : Char) (closing text : List Char) : Prop :=
  ∃ body, text = opening :: (body ++ closing) ∧ ¬ Escapes (opening :: body) ∧
    ∀ front mark back, mark ∈ marks → body ++ closing = front ++ (mark ++ back) → front ≠ body →
      Escapes (opening :: front) ∨
        mark = ['\n'] ∧ ∃ before, front = before ++ ['\r'] ∧ Escapes (opening :: before)

namespace Steps

variable {marks : List (List Char)} {closing body before : List Char}

/-- The closing is not escaped. -/
theorem not_escapes (h : Steps marks closing body) (hbefore : ¬ Escapes before) :
    ¬ Escapes (before ++ body) := by
  induction h generalizing before with
  | nil => rwa [List.append_nil]
  | plain hc _ _ ih => simpa using ih (@not_escapes_append before _ hc)
  | @escape c body _ ih => simpa using ih (@not_escapes_escape before c hbefore)
  | lineBreak _ ih =>
    have hbreak : ¬ Escapes (before ++ ['\\', '\r'] ++ ['\n']) := not_escapes_append (by decide)
    simpa using ih hbreak

/-- Every mark that is passed over is escaped, or it is the line feed of an escaped line break. -/
theorem escapes (h : Steps marks closing body) (htold : AreTold marks closing)
    (hbefore : ¬ Escapes before) {front mark back : List Char} (hmark : mark ∈ marks)
    (hsplit : body ++ closing = front ++ (mark ++ back)) (hne : front ≠ body) :
    Escapes (before ++ front) ∨
      mark = ['\n'] ∧ ∃ first, before ++ front = first ++ ['\r'] ∧ Escapes first := by
  obtain ⟨d, mark', rfl⟩ := List.exists_cons_of_ne_nil (htold.ne_nil mark hmark)
  have hd : d ≠ '\\' := fun hd => htold.head_ne _ hmark (congrArg some hd)
  induction h generalizing before front with
  | nil =>
    -- a mark behind the start of the closing would lie within it
    obtain ⟨c, front, rfl⟩ := List.exists_cons_of_ne_nil hne
    refine absurd ⟨front, back, ?_⟩ (htold.not_infix _ hmark)
    rw [List.nil_append] at hsplit
    simp [hsplit]
  | @plain c body hc hno _ ih =>
    cases front with
    | nil => exact absurd ⟨back, hsplit.symm⟩ (hno _ hmark)
    | cons c' front =>
      simp only [List.cons_append, List.cons.injEq] at hsplit
      obtain ⟨rfl, hsplit⟩ := hsplit
      have hnext := ih (@not_escapes_append before c hc) (fun h => hne (h ▸ rfl)) hsplit
      simpa using hnext
  | @escape c body _ ih =>
    rcases front with _ | ⟨a, _ | ⟨c', front⟩⟩
    · exact absurd (List.cons.inj hsplit).1.symm hd
    · obtain ⟨rfl, -⟩ := List.cons.inj hsplit
      exact .inl (escapes_append_backslash.2 hbefore)
    · simp only [List.cons_append, List.cons.injEq] at hsplit
      obtain ⟨rfl, rfl, hsplit⟩ := hsplit
      have hnext := ih (@not_escapes_escape before c hbefore) (fun h => hne (h ▸ rfl)) hsplit
      simpa using hnext
  | @lineBreak body _ ih =>
    rcases front with _ | ⟨a, _ | ⟨b, _ | ⟨c, front⟩⟩⟩
    · exact absurd (List.cons.inj hsplit).1.symm hd
    · obtain ⟨rfl, -⟩ := List.cons.inj hsplit
      exact .inl (escapes_append_backslash.2 hbefore)
    · simp only [List.cons_append, List.nil_append, List.cons.injEq] at hsplit
      obtain ⟨rfl, rfl, rfl, -⟩ := hsplit
      exact .inr ⟨htold.lineFeed _ hmark rfl, before ++ ['\\'], by simp,
        escapes_append_backslash.2 hbefore⟩
    · simp only [List.cons_append, List.cons.injEq] at hsplit
      obtain ⟨rfl, rfl, rfl, hsplit⟩ := hsplit
      have hbreak : ¬ Escapes (before ++ ['\\', '\r'] ++ ['\n']) := not_escapes_append (by decide)
      have hnext := ih hbreak (fun h => hne (h ▸ rfl)) hsplit
      simpa using hnext

/-- A body behind its opening and in front of its closing. -/
theorem enclosed (h : Steps marks closing body) (htold : AreTold marks closing) {opening : Char}
    (hopening : opening ≠ '\\') :
    Enclosed marks opening closing (opening :: (body ++ closing)) := by
  have hbefore : ¬ Escapes [opening] := not_escapes_singleton hopening
  refine ⟨body, rfl, h.not_escapes hbefore, fun front mark back hmark hsplit hne => ?_⟩
  refine (h.escapes htold hbefore hmark hsplit hne).imp_right ?_
  rintro ⟨hfeed, first, hfirst, hodd⟩
  cases first with
  | nil => exact absurd hodd (by simp [Escapes, backslashes])
  | cons c first =>
    obtain ⟨rfl, rfl⟩ := List.cons.inj hfirst
    exact ⟨hfeed, first, rfl, hodd⟩

end Steps

/-! ## What the scanners read -/

/-- What a string in a quote must not pass over. -/
def stringMarks (quote : Char) : List (List Char) := [[quote], ['\n'], ['\r']]

/-- What a part of a template must not pass over. -/
def templateMarks : List (List Char) := [['\x60'], ['$', '\x7b']]

/-- What a part of a template ends with. -/
def TemplateEnd.closing : TemplateEnd → List Char
  | closed => ['\x60']
  | substitution => ['$', '\x7b']
  | missing => []

theorem areTold_stringMarks {quote : Char} (h : quote = '"' ∨ quote = '\'') :
    AreTold (stringMarks quote) [quote] := by
  rcases h with rfl | rfl <;> exact ⟨by decide, by decide, by decide, by decide⟩

theorem areTold_templateMarks (e : TemplateEnd) : AreTold templateMarks e.closing := by
  cases e <;> exact ⟨by decide, by decide, by decide, by decide⟩

/-- A mark of one character starts a text only if that is its first one. -/
theorem not_prefix_cons {c d : Char} (h : d ≠ c) (r : List Char) : ¬ [c] <+: d :: r :=
  fun hmark => h (List.cons_prefix_cons.1 hmark).1.symm

/-- A string is read up to the first of its marks that is not escaped. -/
theorem scanString_steps {quote : Char} {input : List Char}
    (h : (scanString quote input).2 = true) :
    ∃ body, (scanString quote input).1.text = body ++ [quote] ∧
      Steps (stringMarks quote) [quote] body := by
  fun_induction scanString quote input with
  | case1 => cases h
  | case2 r s closed hs ih =>
    rw [hs] at ih
    obtain ⟨body, htext, hsteps⟩ := ih h
    exact ⟨'\\' :: '\r' :: '\n' :: body, congrArg ('\\' :: '\r' :: '\n' :: ·) htext,
      .lineBreak hsteps⟩
  | case3 c r hbreak s closed hs ih =>
    rw [hs] at ih
    obtain ⟨body, htext, hsteps⟩ := ih h
    exact ⟨'\\' :: c :: body, congrArg ('\\' :: c :: ·) htext, .escape hsteps⟩
  | case4 => cases h
  | case5 c r hbreak hescape hline hc =>
    obtain rfl : c = quote := by simpa using hc
    exact ⟨[], rfl, .nil⟩
  | case6 c r hbreak hescape hline hc s closed hs ih =>
    rw [hs] at ih
    obtain ⟨body, htext, hsteps⟩ := ih h
    have hback : c ≠ '\\' := by
      rintro rfl
      cases r with
      | nil =>
        obtain ⟨-, rfl⟩ := Prod.mk.inj hs
        cases h
      | cons d r => exact hescape d r rfl rfl
    simp only [Ascii.isLineEnd, Bool.or_eq_true, beq_iff_eq, not_or] at hline
    have hquote : c ≠ quote := by simpa using hc
    refine ⟨c :: body, congrArg (c :: ·) htext, .plain hback ?_ hsteps⟩
    simp only [stringMarks, List.forall_mem_cons]
    exact ⟨not_prefix_cons hquote _, not_prefix_cons hline.1 _, not_prefix_cons hline.2 _,
      fun m hm => absurd hm List.not_mem_nil⟩

/-- A part of a template is read up to the first of its marks that is not escaped. -/
theorem scanTemplate_steps {input : List Char} (h : (scanTemplate input).2 ≠ .missing) :
    ∃ body, (scanTemplate input).1.text = body ++ (scanTemplate input).2.closing ∧
      Steps templateMarks (scanTemplate input).2.closing body := by
  fun_induction scanTemplate input with
  | case1 => exact absurd rfl h
  | case2 c r s e hs ih =>
    rw [hs] at ih
    obtain ⟨body, htext, hsteps⟩ := ih h
    exact ⟨'\\' :: c :: body, congrArg ('\\' :: c :: ·) htext, .escape hsteps⟩
  | case3 r => exact ⟨[], rfl, .nil⟩
  | case4 c r hescape hmark hc =>
    obtain rfl : c = '\x60' := by simpa using hc
    exact ⟨[], rfl, .nil⟩
  | case5 c r hescape hmark hc s e hs ih =>
    rw [hs] at ih
    obtain ⟨body, htext, hsteps⟩ := ih h
    have hback : c ≠ '\\' := by
      rintro rfl
      cases r with
      | nil =>
        obtain ⟨-, rfl⟩ := Prod.mk.inj hs
        exact h rfl
      | cons d r => exact hescape d r rfl rfl
    have hquote : c ≠ '\x60' := by simpa using hc
    refine ⟨c :: body, congrArg (c :: ·) htext, .plain hback ?_ hsteps⟩
    simp only [templateMarks, List.forall_mem_cons]
    refine ⟨not_prefix_cons hquote _, ?_, fun m hm => absurd hm List.not_mem_nil⟩
    -- what follows the character in its token follows it in the input
    rintro ⟨back, hback⟩
    have hsplit := scanTemplate_text_append_rest r
    rw [hs, htext] at hsplit
    simp only [List.cons_append, List.nil_append, List.cons.injEq] at hback
    obtain ⟨rfl, hbody⟩ := hback
    exact hmark (back ++ s.rest) rfl (by rw [← hsplit, ← hbody, List.cons_append])

/-! ## Comments -/

/-- A block comment: the first end behind its opening is its own. -/
def IsBlockComment (text : List Char) : Prop :=
  ∃ body, text = '/' :: '*' :: (body ++ ['*', '/']) ∧
    ∀ front back, body ++ ['*', '/'] = front ++ '*' :: '/' :: back → front = body

/-- A line comment and what follows it: it goes on to the end of its line or of the input. -/
structure IsLineComment (text back : List Char) : Prop where
  inLine : ∀ c ∈ text, c ≠ '\n' ∧ c ≠ '\r'
  stops : ∀ c r, back = c :: r → c = '\n' ∨ c = '\r'

/-- A span holds a comment of a source: a block comment, or a line comment that is opened by two
slashes or stands in front of the first line with a number sign and an exclamation mark. -/
def Span.HoldsComment (source : List Char) (s : Span) : Prop :=
  ∃ front text back, source = front ++ (text ++ back) ∧ s.start = byteLength front ∧
    s.stop = byteLength front + byteLength text ∧
    (IsBlockComment text ∨ IsLineComment text back ∧
      (['/', '/'] <+: text ∨ front = [] ∧ ['#', '!'] <+: text))

/-- A block comment is read up to its first end. -/
theorem scanBlockComment_first {input : List Char} (h : (scanBlockComment input).2 = true) :
    ∃ body, (scanBlockComment input).1.text = body ++ ['*', '/'] ∧
      ∀ front back, body ++ ['*', '/'] = front ++ '*' :: '/' :: back → front = body := by
  fun_induction scanBlockComment input with
  | case1 => cases h
  | case2 r =>
    refine ⟨[], rfl, fun front back hsplit => ?_⟩
    have hlength := congrArg List.length hsplit
    simp only [List.nil_append, List.length_append, List.length_cons, List.length_nil] at hlength
    exact List.eq_nil_of_length_eq_zero (by omega)
  | case3 c r hend s closed hs ih =>
    have hsplit := scanBlockComment_text_append_rest r
    rw [hs] at ih hsplit
    obtain ⟨body, htext, hfirst⟩ := ih h
    refine ⟨c :: body, congrArg (c :: ·) htext, fun front back hfront => ?_⟩
    cases front with
    | nil =>
      simp only [List.cons_append, List.nil_append, List.cons.injEq] at hfront
      refine absurd ?_ (hend (back ++ s.rest) hfront.1)
      rw [← hsplit, htext, hfront.2, List.cons_append]
    | cons d front =>
      simp only [List.cons_append, List.cons.injEq] at hfront
      obtain ⟨rfl, hfront⟩ := hfront
      rw [hfirst front back hfront]

theorem isLineComment_scanLineComment (input : List Char) :
    IsLineComment (scanLineComment input).text (scanLineComment input).rest := by
  constructor
  · intro c hc
    have h := List.mem_takeWhile_imp hc
    simpa [Ascii.isLineEnd] using h
  · intro c r hrest
    have h := List.head?_dropWhile_not (fun c => !Ascii.isLineEnd c) input
    rw [show input.dropWhile (fun c => !Ascii.isLineEnd c) = c :: r from hrest] at h
    simpa [Ascii.isLineEnd, or_iff_not_imp_left] using h

namespace Lexer

/-- What is skipped in front of a token holds comments. -/
theorem trivia_holdsComment {source front input : List Char} {pos : Nat}
    (hs : source = front ++ input) (hpos : pos = byteLength front) :
    ∀ s ∈ (trivia pos input).comments, s.HoldsComment source := by
  fun_induction trivia pos input generalizing front with
  | case1 => exact fun s hs => absurd hs List.not_mem_nil
  | case2 pos r x t =>
    rename_i ih
    have hsplit : x.text ++ x.rest = '/' :: '/' :: r :=
      congrArg ('/' :: '/' :: ·) (Scan.takeWhile_text_append_rest _ r)
    rw [← hsplit] at hs
    refine List.forall_mem_cons.2 ⟨⟨front, x.text, x.rest, hs, hpos, ?_, .inr ⟨?_, .inl ?_⟩⟩, ?_⟩
    · rw [hpos]; rfl
    · obtain ⟨hline, hstops⟩ := isLineComment_scanLineComment r
      refine ⟨?_, hstops⟩
      show ∀ c ∈ '/' :: '/' :: (scanLineComment r).text, c ≠ '\n' ∧ c ≠ '\r'
      simpa only [List.forall_mem_cons] using ⟨by decide, by decide, hline⟩
    · exact ⟨(scanLineComment r).text, rfl⟩
    · refine @ih (front ++ x.text) (by rw [hs, List.append_assoc]) ?_
      rw [hpos, byteLength_append]
      rfl
  | case3 pos r body x hclosed t =>
    rename_i ih
    have hsplit : x.text ++ x.rest = '/' :: '*' :: r :=
      congrArg ('/' :: '*' :: ·) (scanBlockComment_text_append_rest r)
    have hwidth : x.width = byteLength x.text := by
      rw [Scan.width, show x.past = 0 from scanBlockComment_past r, Nat.add_zero]
    rw [← hsplit] at hs
    refine List.forall_mem_cons.2 ⟨⟨front, x.text, x.rest, hs, hpos, ?_, .inl ?_⟩, ?_⟩
    · rw [hpos, hwidth]
    · obtain ⟨inner, htext, hfirst⟩ := scanBlockComment_first hclosed
      exact ⟨inner, congrArg ('/' :: '*' :: ·) htext, hfirst⟩
    · refine @ih (front ++ x.text) (by rw [hs, List.append_assoc]) ?_
      rw [hpos, hwidth, byteLength_append]
  | case4 => exact fun s hs => absurd hs List.not_mem_nil
  | case5 pos c r _ _ _ ih =>
    refine @ih (front ++ [c]) (by rw [hs]; simp) ?_
    rw [hpos, byteLength_append]
    rfl
  | case6 => exact fun s hs => absurd hs List.not_mem_nil

/-- A first line that is a comment is held as one. -/
theorem start_holdsComment (source : List Char) :
    ∀ s ∈ (start source).commentPlaces, s.HoldsComment source := by
  unfold start
  dsimp only
  split
  · rename_i rest
    have hsplit : (scanLineComment ('#' :: '!' :: rest)).text ++
        (scanLineComment ('#' :: '!' :: rest)).rest = '#' :: '!' :: rest :=
      Scan.takeWhile_text_append_rest _ _
    refine List.forall_mem_cons.2 ⟨⟨[], (scanLineComment ('#' :: '!' :: rest)).text,
      (scanLineComment ('#' :: '!' :: rest)).rest, hsplit.symm, rfl, ?_, ?_⟩,
      fun s hs => absurd hs List.not_mem_nil⟩
    · simp only [Scan.width, scanLineComment, Scan.takeWhile, byteLength_nil]
      omega
    · refine .inr ⟨isLineComment_scanLineComment _, .inr ⟨rfl, ?_⟩⟩
      exact ⟨rest.takeWhile fun c => !Ascii.isLineEnd c, rfl⟩
  · exact fun s hs => absurd hs List.not_mem_nil

end Lexer

/-! ## Literals -/

/-- Whether a token is a literal with a closing: a string or a part of a template. -/
def TokenKind.isEnclosed : TokenKind → Bool
  | string | noSubstitutionTemplate | templateHead | templateMiddle | templateTail => true
  | _ => false

/-- The literals of each kind that end where they should. -/
inductive Literal : TokenKind → List Char → Prop
  | string {quote : Char} {text : List Char} : quote = '"' ∨ quote = '\'' →
      Enclosed (stringMarks quote) quote [quote] text → Literal .string text
  | template {text : List Char} : Enclosed templateMarks '\x60' ['\x60'] text →
      Literal .noSubstitutionTemplate text
  | head {text : List Char} : Enclosed templateMarks '\x60' ['$', '\x7b'] text →
      Literal .templateHead text
  | middle {text : List Char} : Enclosed templateMarks '\x7d' ['$', '\x7b'] text →
      Literal .templateMiddle text
  | tail {text : List Char} : Enclosed templateMarks '\x7d' ['\x60'] text →
      Literal .templateTail text

namespace Lexer

variable {source : List Char} {l l' : Lexer} {k : TokenKind}

/-- A literal that is read ends where it should, and its span covers it. -/
theorem Reads.literal {front : List Char} (h : Reads l k l') (hk : k.isEnclosed = true)
    (hs : source = front ++ l.rest) (hpos : l.pos = byteLength front) :
    ∃ text, Span.Covers source text ⟨l.pos, l'.pos⟩ ∧ Literal k text := by
  have template {c : Char} {r : List Char} {e : TemplateEnd} (hl : l.rest = c :: r)
      (hc : c ≠ '\\') (hend : (scanTemplate r).2 = e) (he : e ≠ .missing) :
      ∃ text, Span.Covers source text ⟨l.pos, (l.advance ((scanTemplate r).1.cons c)).pos⟩ ∧
        Enclosed templateMarks c e.closing text := by
    obtain ⟨body, htext, hsteps⟩ := @scanTemplate_steps r (by rwa [hend])
    rw [hend] at htext hsteps
    have hsplit : c :: (scanTemplate r).1.text ++ (scanTemplate r).1.rest = l.rest :=
      hl ▸ congrArg (c :: ·) (scanTemplate_text_append_rest r)
    have hcovers := covers_advance hs hpos (s := (scanTemplate r).1.cons c) hsplit
      (scanTemplate_past r)
    refine ⟨_, hcovers, ?_⟩
    show Enclosed templateMarks c e.closing (c :: (scanTemplate r).1.text)
    rw [htext]
    exact hsteps.enclosed (areTold_templateMarks e) hc
  cases h with
  | @string q r hl hq hclosed =>
    obtain ⟨body, htext, hsteps⟩ := scanString_steps hclosed
    have hsplit : q :: (scanString q r).1.text ++ (scanString q r).1.rest = l.rest :=
      hl ▸ congrArg (q :: ·) (scanString_text_append_rest q r)
    have hcovers := covers_advance hs hpos (s := (scanString q r).1.cons q) hsplit
      (scanString_past q r)
    refine ⟨_, hcovers, .string hq ?_⟩
    show Enclosed (stringMarks q) q [q] (q :: (scanString q r).1.text)
    rw [htext]
    refine hsteps.enclosed (areTold_stringMarks hq) ?_
    rcases hq with rfl | rfl <;> decide
  | template hl hend =>
    obtain ⟨text, hcovers, henclosed⟩ := template hl (by decide) hend nofun
    exact ⟨text, hcovers, .template henclosed⟩
  | templateHead hl hend =>
    obtain ⟨text, hcovers, henclosed⟩ := template hl (by decide) hend nofun
    exact ⟨text, hcovers, .head henclosed⟩
  | templateMiddle hl _ hend =>
    obtain ⟨text, hcovers, henclosed⟩ := template hl (by decide) hend nofun
    exact ⟨text, hcovers, .middle henclosed⟩
  | templateTail hl _ hend =>
    obtain ⟨text, hcovers, henclosed⟩ := template hl (by decide) hend nofun
    exact ⟨text, hcovers, .tail henclosed⟩
  | _ => cases hk

end Lexer

/-! ## Whole sources -/

/-- **Literals and comments end where they should**, in a source of less than 4 GiB. -/
theorem tokenize_delimited {source : List Char} {tokens : List Token} {comments : List Span}
    (h : tokenize source = .ok (tokens, comments)) (hsize : byteLength source < 2 ^ 32 - 1) :
    (∀ t ∈ tokens, t.kind.isEnclosed = true →
      ∃ text, t.span.Covers source text ∧ Literal t.kind text) ∧
    ∀ s ∈ comments, s.HoldsComment source := by
  have hlexemes := (tokenize_eq_ok_of_lt hsize).1 h
  constructor
  · intro t ht hk
    cases origin_of_lexemize hlexemes t ht with
    | read hs hpos _ hreads hspan => exact hspan ▸ hreads.literal hk hs hpos
    | piece _ _ _ hpiece =>
      rw [hpiece] at hk
      cases hk
  · obtain ⟨l, hrun, rfl⟩ := Lexer.run_of_lexemes hlexemes
    refine hrun.forall_comments (fun front rest hs _ => ?_) (Lexer.start_tiles source).1
      (Lexer.start_holdsComment source)
    exact Lexer.trivia_holdsComment hs rfl

/-- An escaped line break in a string, dollar signs in front of a substitution, and comments that
hold the marks of one another. -/
theorem tokenize_delimited_escapes :
    ∃ tokens comments,
      tokenize "'a\\\r\n\\\\'\x60$\\$\x7b$$\x7bb\x7d\x60/*/**///".toList = .ok (tokens, comments) ∧
      tokens.map Token.kind = [.string, .templateHead, .identifier, .templateTail] ∧
      comments = [⟨19, 25⟩, ⟨25, 27⟩] ∧
      ∀ s ∈ comments, s.HoldsComment "'a\\\r\n\\\\'\x60$\\$\x7b$$\x7bb\x7d\x60/*/**///".toList :=
  have h : tokenize "'a\\\r\n\\\\'\x60$\\$\x7b$$\x7bb\x7d\x60/*/**///".toList =
      .ok ([⟨.string, ⟨0, 8⟩⟩, ⟨.templateHead, ⟨8, 16⟩⟩, ⟨.identifier, ⟨16, 17⟩⟩,
        ⟨.templateTail, ⟨17, 19⟩⟩], [⟨19, 25⟩, ⟨25, 27⟩]) := by
    decide +kernel
  ⟨_, _, h, rfl, rfl, (tokenize_delimited h (by decide)).2⟩

/-- A string behind 4 GiB of blanks. -/
def farString : List Char := List.replicate (2 ^ 32) ' ' ++ "'a'".toList

/-- Behind 4 GiB a string is not where its token is said to be. -/
theorem tokenize_delimited_behind : ¬ ∀ (source : List Char) (tokens : List Token)
    (comments : List Span), tokenize source = .ok (tokens, comments) →
    (∀ t ∈ tokens, t.kind.isEnclosed = true →
      ∃ text, t.span.Covers source text ∧ Literal t.kind text) ∧
    ∀ s ∈ comments, s.HoldsComment source := by
  intro h
  have htokens : tokenize farString = .ok ([⟨.string, ⟨0, 3⟩⟩], []) := by
    rw [tokenize_eq_lexemize, farString, lexemize_replicate_space (by decide)]
    decide +kernel
  obtain ⟨text, hcovers, hliteral⟩ := (h _ _ _ htokens).1 ⟨.string, ⟨0, 3⟩⟩ List.mem_cons_self rfl
  cases hliteral with
  | @string quote text hquote henclosed =>
    obtain ⟨body, rfl, -⟩ := henclosed
    have hhead := hcovers.head?_eq (c := quote) rfl
    rw [farString, List.head?_append, List.head?_replicate, if_neg (by decide),
      Option.some_or] at hhead
    rcases hquote with rfl | rfl <;> exact absurd hhead (by decide)

end EsModules
