import EsModules.Proofs.Declaration.WrittenTokens

/-!
# Texts put together from tokens, spaces and comments

A text that is put together piece by piece is read piece by piece.  Each piece is followed by
something else, so what is said about a piece mentions what stands behind it.

* `Filler`: a space or a comment, with what makes it one.
* `Lexer.Passes`: a lexer in front of a text comes to its end, and none of the tokens on the way
  stands for a given reserved word unless something holds.
* `Lexer.Passes.append`: texts in a row.
* `Lexer.passes_fillers`, `Lexer.passes_word`, `Lexer.passes_comma`, `Lexer.passes_string`: pieces.
-/

namespace EsModules

/-! ## Spaces and comments -/

/-- What may stand between two tokens: a space, a comment up to the end of its line, or a comment
up to the first mark that closes it. -/
inductive Filler
  | space (c : Char) (isSpace : isSpace c = true)
  | line (body : List Char) (ending : Char) (inLine : ∀ c ∈ body, Ascii.isLineEnd c = false)
      (ends : Ascii.isLineEnd ending = true)
  | block (body : List Char) (closed : ¬ "*/".toList <:+: body)

namespace Filler

/-- The text of a filler. -/
def text : Filler → List Char
  | space c _ => [c]
  | line body ending _ _ => "//".toList ++ body ++ [ending]
  | block body _ => "/*".toList ++ body ++ "*/".toList

/-- Whether a filler is a comment. -/
def isComment : Filler → Bool
  | space _ _ => false
  | line _ _ _ _ | block _ _ => true

/-- The text of fillers in a row. -/
def texts (fs : List Filler) : List Char := fs.flatMap text

@[simp] theorem texts_nil : texts [] = [] := rfl

@[simp] theorem texts_cons (f : Filler) (fs : List Filler) : texts (f :: fs) = f.text ++ texts fs :=
  rfl

theorem texts_append (fs gs : List Filler) : texts (fs ++ gs) = texts fs ++ texts gs :=
  List.flatMap_append

theorem text_ne_nil (f : Filler) : f.text ≠ [] := by
  cases f <;> simp [text]

/-- A filler starts with a space or with the mark that comments start with. -/
theorem head?_text (f : Filler) : ∀ c ∈ f.text.head?, isSpace c = true ∨ c = '/' := by
  cases f with
  | space c hspace =>
    rintro _ ⟨⟩
    exact .inl hspace
  | line | block =>
    rintro _ ⟨⟩
    exact .inr rfl

theorem head?_texts {fs : List Filler} (hne : fs ≠ []) (s : List Char) :
    ∀ c ∈ (texts fs ++ s).head?, isSpace c = true ∨ c = '/' := by
  obtain ⟨f, fs, rfl⟩ := List.exists_cons_of_ne_nil hne
  intro c hc
  rw [texts_cons, List.append_assoc, List.head?_append_of_ne_nil _ f.text_ne_nil] at hc
  exact f.head?_text c hc

end Filler

theorem isSpace_of_isLineEnd {c : Char} (h : Ascii.isLineEnd c = true) : isSpace c = true := by
  simp [isSpace, Ascii.isSpace, h]

/-- A comment that is not closed before goes up to the mark that closes it. -/
theorem scanBlockComment_closed {body : List Char} (h : ¬ "*/".toList <:+: body) (r : List Char) :
    scanBlockComment (body ++ ("*/".toList ++ r)) = (⟨body ++ "*/".toList, r, 0⟩, true) := by
  induction body with
  | nil => rfl
  | cons c body ih =>
    have hbody : ¬ "*/".toList <:+: body :=
      fun hin => h (hin.trans (List.suffix_cons c body).isInfix)
    rw [List.cons_append, scanBlockComment]
    · rw [ih hbody]
      rfl
    · rintro r' rfl hr
      cases body with
      | nil => cases hr
      | cons d body =>
        obtain ⟨rfl, -⟩ := List.cons.inj hr
        exact h ⟨[], body, rfl⟩

/-- A comment goes up to the first line end. -/
theorem scanLineComment_ended {body : List Char} (h : ∀ c ∈ body, Ascii.isLineEnd c = false)
    {ending : Char} (hending : Ascii.isLineEnd ending = true) (r : List Char) :
    scanLineComment (body ++ ending :: r) = ⟨body, ending :: r, 0⟩ := by
  have hbody : ∀ c ∈ body, (!Ascii.isLineEnd c) = true := fun c hc => by rw [h c hc]; rfl
  have hstop : ∀ c ∈ (ending :: r).head?, (!Ascii.isLineEnd c) = false := by simpa using hending
  rw [scanLineComment, Scan.takeWhile, Text.takeWhile_append_stop hbody hstop,
    Text.dropWhile_append_stop hbody hstop]

/-! ## Words -/

theorem isSpace_of_isWordPart {c : Char} (h : isWordPart c = true) : isSpace c = false := by
  simp only [isWordPart, Bool.or_eq_true, Bool.and_eq_true, Bool.not_eq_true'] at h
  rcases h with h | ⟨hascii, hunicode⟩
  · have hname : isNameChar c = true := by simpa [isNameChar] using h
    refine isSpace_of_isCalm (Bool.or_eq_true_iff.2 (.inl hname)) ?_
    exact ne_of_isNameChar hname rfl
  · have hspace : Ascii.isSpace c = false := by
      simp only [isNonAscii, decide_eq_true_eq] at hascii
      have hne : ∀ d : Char, d.toNat < 0x80 → c ≠ d := by
        rintro d hd rfl
        omega
      simp [Ascii.isSpace, Ascii.isLineEnd, hne]
    rw [isSpace, hspace, hunicode]
    rfl

/-- A word as the lexer reads it: the first character starts words, all belong to words or start
their escapes, and none is a blank. -/
structure Word where
  /-- Its text. -/
  text : List Char
  head : text.head?.any isWordStart = true
  parts : ∀ c ∈ text, isWordPart c = true ∨ c = '\\'
  bare : ∀ c ∈ text, Text.isBlank c = false

/-- A name as the lexer reads it. -/
def Identifier.word (i : Identifier) : Word where
  text := i.text
  head := by
    have h := i.isIdentifier
    obtain ⟨c, r, hcr⟩ := List.exists_cons_of_ne_nil i.text_ne_nil
    have hname : isNameChar c = true := i.isNameChar_of_mem (by simp [hcr])
    rw [hcr] at h ⊢
    simp only [EsModules.isIdentifier, List.head?_cons, Option.any_some, Bool.and_eq_true,
      Bool.not_eq_true'] at h
    simp only [isNameChar, Ascii.isWordChar, Ascii.isAlphanumeric, h.2, Bool.or_false] at hname
    simp only [List.head?_cons, Option.any_some, isWordStart, Bool.or_eq_true]
    simp only [Bool.or_eq_true] at hname
    tauto
  parts c hc := by
    have h := i.isNameChar_of_mem hc
    unfold isNameChar at h
    exact .inl (Bool.or_eq_true_iff.2 (.inl h))
  bare c hc := isBlank_of_isNameChar (i.isNameChar_of_mem hc)

/-- Behind a word stands a character that does not belong to it. -/
def EndsWord (s : List Char) : Prop :=
  ∀ c ∈ s.head?, isWordPart c = false ∧ c ≠ '\\' ∧ c ≠ '\x7b'

/-- A word goes up to the character behind it; a bracket there must not be that of an escape. -/
theorem scanWord_of_parts {text s : List Char} (hparts : ∀ c ∈ text, isWordPart c = true ∨ c = '\\')
    (hs : ∀ c ∈ s.head?, isWordPart c = false ∧ c ≠ '\\' ∧ (c = '\x7b' → '\\' ∉ text)) :
    scanWord false (text ++ s) = ⟨text, s, 0⟩ := by
  induction text with
  | nil =>
    cases s with
    | nil => rfl
    | cons c s =>
      obtain ⟨hpart, hback, -⟩ := hs c rfl
      rw [List.nil_append, scanWord_cons hback, if_neg (by simp [hpart])]
  | cons c text ih =>
    obtain ⟨hc, htext⟩ := List.forall_mem_cons.1 hparts
    have hs' : ∀ d ∈ s.head?, isWordPart d = false ∧ d ≠ '\\' ∧ (d = '\x7b' → '\\' ∉ text) :=
      fun d hd => ⟨(hs d hd).1, (hs d hd).2.1, fun h hmem =>
        (hs d hd).2.2 h (List.mem_cons_of_mem c hmem)⟩
    rw [List.cons_append, scanWord]
    · rw [ih htext hs', if_pos (by simpa using hc)]
      rfl
    · -- an escape in braces would have a brace in the word or behind it
      rintro r rfl hr
      rcases text with _ | ⟨c, _ | ⟨d, text⟩⟩
      · exact absurd (hs 'u' (congrArg List.head? hr)).1 (by decide)
      · exact (hs '\x7b' (congrArg List.head? (List.cons.inj hr).2)).2.2 rfl List.mem_cons_self
      · obtain ⟨rfl, -⟩ := List.cons.inj (List.cons.inj hr).2
        exact absurd (htext _ (List.mem_cons_of_mem _ List.mem_cons_self)) (by decide)

theorem Word.scanWord_append (w : Word) {s : List Char} (hs : EndsWord s) :
    scanWord false (w.text ++ s) = ⟨w.text, s, 0⟩ :=
  scanWord_of_parts w.parts fun c hc =>
    ⟨(hs c hc).1, (hs c hc).2.1, fun h => absurd h (hs c hc).2.2⟩

/-- A word starts with a character that is no space, and neither a slash nor a backquote. -/
theorem Word.exists_cons (w : Word) : ∃ c r, w.text = c :: r ∧ isWordStart c = true ∧
    isSpace c = false := by
  obtain ⟨text, hhead, hparts, -⟩ := w
  cases text with
  | nil => cases hhead
  | cons c r =>
    refine ⟨c, r, rfl, hhead, ?_⟩
    rcases hparts c List.mem_cons_self with h | rfl
    · exact isSpace_of_isWordPart h
    · decide

namespace Lexer

variable {l l' : Lexer} {s u v : List Char} {Q Q' : Prop}

/-- A filler is skipped, with its comment if it is one. -/
theorem trivia_filler (f : Filler) (pos : Nat) (r : List Char) :
    ∃ cs, trivia pos (f.text ++ r) =
      { trivia (pos + Text.byteLength f.text) r with
        comments := cs ++ (trivia (pos + Text.byteLength f.text) r).comments } := by
  cases f with
  | space c hspace => exact ⟨[], trivia_of_space hspace pos r⟩
  | line body ending hbody hending =>
    have hscan := scanLineComment_ended hbody hending r
    have hwidth : pos + Text.byteLength (Filler.line body ending hbody hending).text =
        pos + Text.byteLength ("//".toList ++ body) + ending.utf8Size := by
      rw [Filler.text, Text.byteLength_append, ← Nat.add_assoc]
      rfl
    have hassoc : (Filler.line body ending hbody hending).text ++ r =
        '/' :: '/' :: (body ++ ending :: r) := by simp [Filler.text]
    refine ⟨[⟨pos, pos + Text.byteLength ("//".toList ++ body)⟩], ?_⟩
    rw [hwidth, hassoc, trivia, hscan, ← trivia_of_space (isSpace_of_isLineEnd hending)]
    rfl
  | block body hclosed =>
    have hscan := scanBlockComment_closed hclosed r
    refine ⟨[⟨pos, pos + Text.byteLength ("/*".toList ++ body ++ "*/".toList)⟩], ?_⟩
    have hassoc : Filler.text (.block body hclosed) ++ r =
        '/' :: '*' :: (body ++ ("*/".toList ++ r)) := by simp [Filler.text]
    rw [hassoc, trivia]
    simp only [hscan, Scan.prepend, Scan.width]
    rfl

/-- A filler is skipped. -/
theorem leads_filler (f : Filler) (h : l.InFront (f.text ++ s)) :
    ∃ l', Leads l [] l' ∧ l'.InFront s ∧ l'.limit = l.limit := by
  obtain ⟨cs, hcs⟩ := trivia_filler f l.pos s
  let behind : Lexer :=
    { l with
      rest := s, pos := l.pos + Text.byteLength f.text, commentPlaces := l.commentPlaces ++ cs }
  refine ⟨behind, leads_of_step_eq (step_eq_of_skip h.owed h.owed ?_ ?_), ⟨rfl, h.owed, h.braces⟩,
    ?_⟩
  · rw [h.rest, hcs]
  · rw [skip, skip, h.rest, hcs]
    simp [behind]
  · simp only [limit, behind, h.rest, Text.byteLength_append]
    omega

/-! ## Passing a text -/

/-- A lexer in front of a text comes to its end, where another text stands, and if one of the tokens
on the way stands for `export`, then something holds. -/
def Passes (Q : Prop) (u s : List Char) : Prop :=
  ∀ l : Lexer, l.InFront (u ++ s) → ∃ ts l', Leads l ts l' ∧ l'.InFront s ∧ l'.limit = l.limit ∧
    ∀ t ∈ ts, t.kind = .keyword .exportKw → Q

theorem passes_nil : Passes Q [] s :=
  fun l h => ⟨[], l, leads_of_step_eq rfl, h, rfl, fun _ ht => absurd ht List.not_mem_nil⟩

theorem Passes.mono (h : Passes Q u s) (hQ : Q → Q') : Passes Q' u s := by
  intro l hl
  obtain ⟨ts, l', hleads, hfront, hlimit, hwords⟩ := h l hl
  exact ⟨ts, l', hleads, hfront, hlimit, fun t ht hk => hQ (hwords t ht hk)⟩

/-- Texts in a row are passed one after the other. -/
theorem Passes.append (h : Passes Q u (v ++ s)) (h' : Passes Q v s) : Passes Q (u ++ v) s := by
  intro l hl
  obtain ⟨ts, l₁, hleads, hfront, hlimit, hwords⟩ := h l (List.append_assoc u v s ▸ hl)
  obtain ⟨ts', l₂, hleads', hfront', hlimit', hwords'⟩ := h' l₁ hfront
  refine ⟨ts ++ ts', l₂, hleads.trans hleads', hfront', hlimit'.trans hlimit, fun t ht => ?_⟩
  exact (List.mem_append.1 ht).elim (hwords t) (hwords' t)

theorem passes_filler (f : Filler) : Passes Q f.text s := by
  intro l hl
  obtain ⟨l', hleads, hfront, hlimit⟩ := leads_filler f hl
  exact ⟨[], l', hleads, hfront, hlimit, fun _ ht => absurd ht List.not_mem_nil⟩

theorem passes_fillers (fs : List Filler) : Passes Q (Filler.texts fs) s := by
  induction fs with
  | nil => exact passes_nil
  | cons f fs ih => exact (passes_filler f).append ih

/-! ## Single tokens -/

/-- A text that is read as one token is passed. -/
theorem passes_of_read {c : Char} (hspace : isSpace c = false) (hslash : c ≠ '/')
    (hread : ∀ l : Lexer, l.InFront (c :: u ++ s) → ∃ k b,
      l.read = (.ok k, { l.advance ⟨c :: u, s, 0⟩ with braces := b }) ∧ k ≠ .eof ∧
        Brace.template ∉ b ∧ (k = .keyword .exportKw → Q)) : Passes Q (c :: u) s := by
  intro l hl
  obtain ⟨k, b, hread, hk, hb, hword⟩ := hread l hl
  have hnext := step_of_read_here hl hspace hslash hread hk
  refine ⟨_, _, leads_of_step hnext hk, ⟨rfl, hl.owed, hb⟩, ?_, fun t ht hkind => ?_⟩
  · exact limit_advance (x := ⟨c :: u, s, 0⟩) hl.rest.symm rfl
  · obtain rfl := List.mem_singleton.1 ht
    exact hword hkind

/-- A word is passed; its token stands for `export` only if the word is that. -/
theorem passes_word (w : Word) (hs : EndsWord s) : Passes (w.text = "export".toList) w.text s := by
  obtain ⟨c, r, hw, hstart, hspace⟩ := w.exists_cons
  have hslash : c ≠ '/' := by
    rintro rfl
    cases hstart
  rw [hw]
  refine passes_of_read hspace hslash fun l hl => ?_
  have hrest : l.rest = w.text ++ s := hl.rest.trans (by rw [hw])
  have hscan : scanWord false l.rest = ⟨w.text, s, 0⟩ := hrest ▸ w.scanWord_append hs
  have hread : l.read = l.readWord := by
    exact read_of_isWordStart (r := r ++ s) hl.rest hstart
  rw [hread, readWord_eq, hscan, ← hw]
  cases l.afterMember with
  | true => exact ⟨.identifier, l.braces, rfl, by decide, hl.braces, fun h => by cases h⟩
  | false =>
    cases hword : Keyword.ofSpelling? w.text with
    | none => exact ⟨.identifier, l.braces, rfl, by decide, hl.braces, fun h => by cases h⟩
    | some k =>
      refine ⟨.keyword k, l.braces, rfl, by simp, hl.braces, fun h => ?_⟩
      obtain rfl := TokenKind.keyword.inj h
      exact (Keyword.spelling_of_ofSpelling? hword).symm

/-- The word `export` is read as the reserved word. -/
theorem step_export (hmember : l.afterMember = false)
    (hs : ∀ c ∈ s.head?, isWordPart c = false ∧ c ≠ '\\')
    (h : l.InFront ("export".toList ++ s)) :
    l.step = (.ok ⟨.keyword .exportKw, ⟨l.pos, l.pos + 6⟩⟩,
      (l.advance ⟨"export".toList, s, 0⟩).after (.keyword .exportKw)) := by
  have hscan : scanWord false ("export".toList ++ s) = ⟨"export".toList, s, 0⟩ :=
    scanWord_of_parts (Text.forall_mem_of_all (by decide)) fun c hc =>
      ⟨(hs c hc).1, (hs c hc).2, fun _ => by decide⟩
  exact step_word (c := 'e') (u := "xport".toList) hmember h (by decide) (by decide) (by decide)
    (by decide) hscan

/-- A mark is passed. -/
theorem passes_of_scanPunct {c : Char} {m : Punct} (hspace : isSpace c = false) (hslash : c ≠ '/')
    (hread : ∀ l : Lexer, l.rest = c :: s → l.read = l.readMark)
    (hscan : scanPunct (c :: s) = some (m, ⟨[c], s, 0⟩)) : Passes Q [c] s := by
  refine passes_of_read hspace hslash fun l hl => ?_
  refine ⟨.punct m, l.braces, ?_, by simp, hl.braces, fun h => by cases h⟩
  rw [hread l hl.rest, readMark, hl.rest]
  simp only [List.cons_append, List.nil_append, hscan]
  rfl

theorem passes_comma : Passes Q [','] s := by
  refine passes_of_scanPunct (m := .comma) (by decide) (by decide) (fun l hl => ?_) ?_
  · rw [read, hl]
    rfl
  · rfl

theorem passes_semicolon : Passes Q [';'] s := by
  refine passes_of_scanPunct (m := .semicolon) (by decide) (by decide) (fun l hl => ?_) ?_
  · rw [read, hl]
    rfl
  · rfl

theorem passes_openBrace : Passes Q ['\x7b'] s := by
  refine passes_of_read (by decide) (by decide) fun l hl => ?_
  refine ⟨.punct .lBrace, .block :: l.braces, ?_, by simp, by simpa using hl.braces,
    fun h => by cases h⟩
  have hrest : l.rest = '\x7b' :: s := hl.rest
  rw [read, hrest]
  rfl

/-- A closing bracket is read as one. -/
theorem step_closeBrace (h : l.InFront ('\x7d' :: s)) :
    ∃ l', l.step = (.ok ⟨.punct .rBrace, ⟨l.pos, l.pos + 1⟩⟩, l') ∧ l'.InFront s ∧
      l'.limit = l.limit := by
  have hread := read_closeBrace h.rest h.braces
  refine ⟨_, step_of_read_here h (by decide) (by decide) hread (by simp),
    ⟨rfl, h.owed, fun hmem => h.braces (List.mem_of_mem_tail hmem)⟩, ?_⟩
  exact limit_advance (x := ⟨['\x7d'], s, 0⟩) h.rest.symm rfl

/-- A string without its quote, backslashes and line ends is passed. -/
theorem passes_string {q : Char} (hq : q = '"' ∨ q = '\'') {text : List Char}
    (h : ∀ c ∈ text, c ≠ q ∧ c ≠ '\\' ∧ Ascii.isLineEnd c = false) :
    Passes Q (q :: (text ++ [q])) s := by
  refine passes_of_read ?_ ?_ fun l hl => ?_
  · rcases hq with rfl | rfl <;> decide
  · rcases hq with rfl | rfl <;> decide
  · have hrest : l.rest = q :: (text ++ q :: s) := by
      rw [hl.rest]
      simp
    have hscan := scanString_closed h s hq
    have hread := read_string hrest hq (by rw [hscan])
    rw [hscan] at hread
    exact ⟨.string, l.braces, hread, by simp, hl.braces, fun h => by cases h⟩

end Lexer

end EsModules
