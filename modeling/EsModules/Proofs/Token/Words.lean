import EsModules.Proofs.Token.Tiling

/-!
# Words in a source

A place at which a source reads `import` or `export` is the start of that keyword, unless it lies
in a comment or in a token that hides its text: a name, a number, a string, a regular expression or
a part of a template.

* `Lexer.Origin`: the call that has given a token; every token of a source has one
  (`origin_of_lexemize`).
* `TokenKind.hidesText`: the tokens whose text may hold any word.
* `Lexer.Origin.start_of_word`: in no other token does one of the two words start, but in itself.
* `start_of_word`: where a source reads one of them, the keyword starts or the place is hidden.
* `hidden_stop_le`: a token that hides nothing lies behind a hidden place or in front of it.
-/

namespace EsModules

namespace Lexer

variable {source : List Char}

/-! ## Where tokens come from -/

/-- The call that has given a token: it has read the token from a place between two characters, or
given out one of the bytes of a space that are still owed. -/
inductive Origin (source : List Char) (t : Token) : Prop
  | read {l l' : Lexer} {front : List Char} : source = front ++ l.rest →
      l.pos = Text.byteLength front → l.owed = 0 → Reads l t.kind l' →
      t.span = ⟨l.pos, l'.pos⟩ → Origin source t
  | piece {front after : List Char} {c : Char} {i : Nat} : source = front ++ c :: after →
      Text.byteLength front < i → i < Text.byteLength front + c.utf8Size →
      t = ⟨.unknown, ⟨i, i + 1⟩⟩ → Origin source t

theorem Gives.origin {l l' : Lexer} {t : Token} (h : Gives l t l') (hk : t.kind ≠ .eof)
    (hplace : Stands source l) : Origin source t := by
  cases h with
  | owed howed =>
    cases hplace with
    | between _ _ _ hzero => omega
    | beyond _ _ hzero => omega
    | inside front c hs hlt hpos _ => exact .piece hs hlt (by omega) rfl
  | eof => exact absurd rfl hk
  | read howed hclosed _ hreads =>
    obtain ⟨hskip, -⟩ := hplace.skip_tiles howed hclosed
    obtain ⟨text, past, hne, hb⟩ := hreads.between hk howed (skip_rest_head hclosed)
    cases hskip with
    | between front hs hpos _ => exact .read hs hpos howed hreads rfl
    | inside _ _ _ _ _ hpos => exact absurd hpos (by simp [skip, howed])
    | beyond hrest _ _ => exact absurd (List.append_eq_nil_iff.1 (hb.rest ▸ hrest)).1 hne

theorem Run.origin {l l' : Lexer} {ts : List Token} (h : Run l ts l') (hplace : Stands source l) :
    ∀ t ∈ ts, Origin source t := by
  induction h with
  | done => intro t ht; cases ht
  | step hgives hk _ ih =>
    intro t ht
    rcases List.mem_cons.1 ht with rfl | ht
    · exact hgives.origin hk hplace
    · exact ih (hgives.tiles hk hplace).1 t ht

end Lexer

/-- Every token of a source has an origin. -/
theorem origin_of_lexemize {source : List Char} {tokens : List Token} {comments : List Span}
    (h : lexemize source = .ok (tokens, comments)) : ∀ t ∈ tokens, Lexer.Origin source t := by
  obtain ⟨l, hrun, -⟩ := Lexer.run_of_lexemes h
  exact hrun.origin (Lexer.start_tiles source).1

/-! ## Tokens that hide their text -/

/-- Whether a token can have any word in its text: names, numbers, strings, regular expressions and
the parts of templates do. -/
def TokenKind.hidesText : TokenKind → Bool
  | .keyword _ | .punct _ | .unknown | .eof => false
  | _ => true

/-! ## Reserved words in words -/

/-- The two words that a declaration can start with. -/
def Keyword.declaring : List Keyword := [.importKw, .exportKw]

/-- No reserved word holds one of the two words, but itself. -/
theorem Keyword.eq_of_infix : ∀ entry ∈ spellings, ∀ word ∈ declaring,
    word.spelling.toList <:+: entry.2.toList → entry = (word, word.spelling) := by
  decide +kernel

theorem Keyword.spelling_ne_nil : ∀ word ∈ declaring, word.spelling.toList ≠ [] := by
  decide

/-- The two words are made of letters. -/
theorem Keyword.isLetter_of_declaring : ∀ word ∈ declaring, ∀ c ∈ word.spelling.toList,
    Ascii.isLetter c = true := by
  have h : (declaring.all fun word => word.spelling.toList.all Ascii.isLetter) = true := by decide
  simpa only [List.all_eq_true] using h

theorem Keyword.mem_spellings_of_ofSpelling? {text : List Char} {k : Keyword}
    (h : ofSpelling? text = some k) : ∃ spelling, (k, spelling) ∈ spellings ∧
      spelling.toList = text := by
  obtain ⟨⟨k', spelling⟩, hfind, rfl⟩ := Option.map_eq_some_iff.1 h
  exact ⟨spelling, List.mem_of_find?_eq_some hfind, by simpa using List.find?_some hfind⟩

theorem Keyword.spelling_of_mem_spellings : ∀ entry ∈ spellings, entry.1.spelling = entry.2 := by
  decide +kernel

/-- A reserved word is the text that spells it. -/
theorem Keyword.spelling_of_ofSpelling? {text : List Char} {k : Keyword}
    (h : ofSpelling? text = some k) : k.spelling.toList = text := by
  obtain ⟨spelling, hmem, hspelling⟩ := mem_spellings_of_ofSpelling? h
  rw [spelling_of_mem_spellings _ hmem]
  exact hspelling

/-- A reserved word is made of letters. -/
theorem Keyword.isLetter_of_mem_spellings : ∀ entry ∈ spellings, ∀ c ∈ entry.2.toList,
    Ascii.isLetter c = true := by
  have h : (spellings.all fun entry => entry.2.toList.all Ascii.isLetter) = true := by
    decide +kernel
  simpa only [List.all_eq_true] using h

theorem isWordPart_of_isLetter {c : Char} (h : Ascii.isLetter c = true) :
    isWordPart c = true := by
  simp [isWordPart, Ascii.isWordChar, Ascii.isAlphanumeric, h]

theorem isSpace_of_isLetter {c : Char} (h : Ascii.isLetter c = true) : isSpace c = false := by
  have hcode : 0x41 ≤ c.toNat ∧ c.toNat ≤ 0x7A := by
    simp only [Ascii.isLetter, Bool.or_eq_true, Bool.and_eq_true, decide_eq_true_eq, Char.le_def,
      UInt32.le_iff_toNat_le] at h
    simp only [Char.toNat]
    grind
  cases hspace : isSpace c with
  | false => rfl
  | true =>
    simp only [isSpace, Ascii.isSpace, Ascii.isLineEnd, isUnicodeSpace, Bool.or_eq_true,
      Bool.and_eq_true, beq_iff_eq, decide_eq_true_eq] at hspace
    rcases hspace with hascii | hunicode
    · rcases hascii with (((rfl | rfl) | rfl) | rfl) | rfl | rfl <;> exact absurd hcode (by decide)
    · omega

/-- At a character that starts no escape, a word goes on if the character can belong to it. -/
theorem scanWord_cons {c : Char} (h : c ≠ '\\') (r : List Char) :
    scanWord false (c :: r) =
      if isWordPart c then (scanWord false r).cons c else ⟨[], c :: r, 0⟩ := by
  rw [scanWord]
  · simp [h]
  · intro r' hr
    exact absurd hr h

/-- An escape belongs to its word. -/
theorem mem_scanWord_text (r : List Char) : '\\' ∈ (scanWord false ('\\' :: r)).text := by
  unfold scanWord
  split
  case h_4 heq =>
    obtain ⟨rfl, rfl⟩ := List.cons.inj heq
    simp [Scan.cons]
  all_goals simp_all [Scan.prepend]

/-- A word without escapes goes on as long as its characters can. -/
theorem scanWord_text_eq_takeWhile {input : List Char}
    (h : '\\' ∉ (scanWord false input).text) :
    (scanWord false input).text = input.takeWhile isWordPart := by
  induction input with
  | nil => rfl
  | cons c r ih =>
    by_cases hc : c = '\\'
    · subst hc
      exact absurd (mem_scanWord_text r) h
    · rw [scanWord_cons hc] at h ⊢
      by_cases hpart : isWordPart c = true
      · rw [if_pos hpart] at h ⊢
        rw [List.takeWhile_cons_of_pos hpart, ← ih fun hr => h (List.mem_cons_of_mem c hr)]
        rfl
      · rw [if_neg hpart, List.takeWhile_cons_of_neg hpart]

/-- No punctuator has a letter. -/
theorem Punct.isLetter_of_mem_spellings : ∀ entry ∈ spellings, ∀ c ∈ entry.2.toList,
    Ascii.isLetter c = false := by
  have h : (spellings.all fun entry => entry.2.toList.all fun c => !Ascii.isLetter c) = true := by
    decide +kernel
  simpa only [List.all_eq_true, Bool.not_eq_true'] using h

/-! ## Where the two words start -/

section

variable {source a b : List Char} {word : Keyword}

/-- A text without letters holds neither of the two words. -/
theorem not_word_in_letterless {front text after : List Char} (hword : word ∈ Keyword.declaring)
    (htext : ∀ c ∈ text, Ascii.isLetter c = false)
    (hs : a ++ (word.spelling.toList ++ b) = front ++ (text ++ after))
    (hle : Text.byteLength front ≤ Text.byteLength a) :
    Text.byteLength front + Text.byteLength text ≤ Text.byteLength a := by
  apply Nat.ge_of_not_lt
  intro hlt
  obtain ⟨m, rfl, hm⟩ := Text.exists_append_of_byteLength_le hs.symm hle
  rw [Text.byteLength_append] at hlt
  obtain ⟨c, cs, hc⟩ := List.exists_cons_of_ne_nil (Keyword.spelling_ne_nil word hword)
  rw [hc, List.cons_append] at hm
  obtain ⟨m', rfl, -⟩ := Text.exists_append_of_byteLength_lt hm.symm (by omega)
  have hletter := Keyword.isLetter_of_declaring word hword c (by simp [hc])
  rw [htext c (by simp)] at hletter
  cases hletter

/-- A reserved word that holds one of the two words is that word. -/
theorem keyword_eq_of_word {front r : List Char} {k : Keyword} (hword : word ∈ Keyword.declaring)
    (hk : Keyword.ofSpelling? (scanWord false r).text = some k)
    (hs : a ++ (word.spelling.toList ++ b) = front ++ r)
    (hle : Text.byteLength front ≤ Text.byteLength a)
    (hlt : Text.byteLength a < Text.byteLength front + Text.byteLength (scanWord false r).text) :
    k = word ∧ a = front := by
  obtain ⟨spelling, hmem, htext⟩ := Keyword.mem_spellings_of_ofSpelling? hk
  have hletters : ∀ c ∈ (scanWord false r).text, Ascii.isLetter c = true :=
    fun c hc => Keyword.isLetter_of_mem_spellings _ hmem c (htext ▸ hc)
  have hrun : (scanWord false r).text = r.takeWhile isWordPart :=
    scanWord_text_eq_takeWhile fun h => absurd (hletters _ h) (by decide)
  obtain ⟨m, rfl, rfl⟩ := Text.exists_append_of_byteLength_le hs.symm hle
  rw [Text.byteLength_append] at hlt
  -- the text in front of the word lies within the reserved word, so that goes on with the word
  have hsplit := scanWord_text_append_rest false (m ++ (word.spelling.toList ++ b))
  obtain ⟨m', hm', -⟩ := Text.exists_append_of_byteLength_le hsplit.symm (by omega)
  have hfront : ∀ c ∈ m, isWordPart c = true :=
    fun c hc => isWordPart_of_isLetter (hletters c (by simp [hm', hc]))
  have hmiddle : ∀ c ∈ word.spelling.toList, isWordPart c = true :=
    fun c hc => isWordPart_of_isLetter (Keyword.isLetter_of_declaring word hword c hc)
  rw [List.takeWhile_append_of_pos hfront, List.takeWhile_append_of_pos hmiddle] at hrun
  have hinfix : word.spelling.toList <:+: spelling.toList := by
    rw [htext, hrun]
    exact ⟨m, b.takeWhile isWordPart, by simp⟩
  obtain ⟨rfl, rfl⟩ := Prod.mk.inj (Keyword.eq_of_infix _ hmem word hword hinfix)
  have hlength := congrArg List.length (htext.trans hrun)
  simp only [List.length_append] at hlength
  obtain rfl : m = [] := List.length_eq_zero_iff.1 (by omega)
  exact ⟨rfl, List.append_nil front⟩

end

namespace Lexer

variable {source a b : List Char} {word : Keyword} {t : Token}

/-- Where one of the two words starts within a token that does not hide its text, the token is that
word and starts there. -/
theorem Origin.start_of_word (h : Origin source t) (hk : t.kind.hidesText = false)
    (hword : word ∈ Keyword.declaring) (hs : source = a ++ (word.spelling.toList ++ b))
    (hin : t.span.contains (Text.byteLength a) = true) :
    t.kind = .keyword word ∧ t.span.start = Text.byteLength a := by
  simp only [Span.contains, Bool.and_eq_true, decide_eq_true_eq] at hin
  obtain ⟨hle, hlt⟩ := hin
  cases h with
  | @piece front after c i hs' hfront hback ht =>
    subst ht
    obtain rfl : Text.byteLength a = i := by dsimp only at hle hlt; omega
    -- no character starts within the bytes of another
    obtain ⟨m, rfl, hm⟩ :=
      Text.exists_append_of_byteLength_le (hs'.symm.trans hs) (Nat.le_of_lt hfront)
    cases m with
    | nil => simp at hfront
    | cons x m =>
      obtain ⟨rfl, -⟩ := List.cons.inj hm
      simp only [Text.byteLength_append, Text.byteLength_cons] at hback
      omega
  | @read l l' front hs' hpos howed hreads hspan =>
    rw [hspan] at hle hlt ⊢
    dsimp only at hle hlt ⊢
    have hsame : a ++ (word.spelling.toList ++ b) = front ++ l.rest := hs.symm.trans hs'
    -- a text without letters ends in front of the word
    have letterless {text rest : List Char} (hl : l.rest = text ++ rest)
        (htext : ∀ c ∈ text, Ascii.isLetter c = false)
        (hp : l'.pos = l.pos + Text.byteLength text) : False := by
      have hend := not_word_in_letterless hword htext (hl ▸ hsame) (by omega)
      omega
    have single {c : Char} {rest : List Char} (hl : l.rest = c :: rest)
        (hc : Ascii.isLetter c = false) (hp : l'.pos = l.pos + Text.byteLength [c]) : False :=
      letterless (List.singleton_append ▸ hl) (fun _ h => List.mem_singleton.1 h ▸ hc) hp
    generalize t.kind = k at hk hreads
    cases hreads with
    | keyword _ _ _ hpast hw =>
      simp only [advance, Scan.width, hpast] at hlt
      obtain ⟨rfl, rfl⟩ := keyword_eq_of_word hword hw hsame (by omega) (by omega)
      exact ⟨rfl, hpos⟩
    | openBrace hl => exact (single hl (by decide) rfl).elim
    | closeBrace hl => exact (single hl (by decide) rfl).elim
    | punct hmark =>
      obtain ⟨spelling, hmem, htext, hsplit, hpast⟩ := scanPunct_eq_some hmark
      refine (letterless hsplit.symm (fun c hc => ?_) ?_).elim
      · exact Punct.isLetter_of_mem_spellings _ hmem c (htext ▸ hc)
      · simp [advance, Scan.width, hpast]
    | unknown hl hc _ =>
      simp only [isWordStart, Bool.or_eq_false_iff] at hc
      exact (single hl hc.1.1.1.1 rfl).elim
    | eof => exact absurd hlt (Nat.not_lt.2 hle)
    | _ => cases hk

end Lexer

/-! ## Where a source reads one of the two words -/

section

variable {source a b : List Char} {tokens : List Token} {comments : List Span} {word : Keyword}

/-- The comments, and the places of the tokens that hide their text. -/
def hiddenSpans (tokens : List Token) (comments : List Span) : List Span :=
  comments ++ (tokens.filter fun t => t.kind.hidesText).map Token.span

/-- A lexeme of a tiling hides its text if its place is one of the hidden ones. -/
theorem exists_lexeme_of_mem_hiddenSpans {xs : List Lexeme} {s : Span}
    (hs : s ∈ hiddenSpans (xs.filterMap Lexeme.token?) (xs.filterMap Lexeme.comment?)) :
    ∃ x ∈ xs, x.span = s ∧ ∀ t, x = .token t → t.kind.hidesText = true := by
  rcases List.mem_append.1 hs with hs | hs
  · obtain ⟨x, hx, hxs⟩ := List.mem_filterMap.1 hs
    cases x <;> cases hxs
    exact ⟨_, hx, rfl, fun t ht => by cases ht⟩
  · obtain ⟨t, ht, rfl⟩ := List.mem_map.1 hs
    obtain ⟨ht, hk⟩ := List.mem_filter.1 ht
    obtain ⟨x, hx, hxt⟩ := List.mem_filterMap.1 ht
    cases x <;> cases hxt
    exact ⟨_, hx, rfl, fun t' ht' => by cases ht'; exact hk⟩

/-- **Where a source reads one of the two words**, that keyword starts, or the place is hidden. -/
theorem start_of_word (h : lexemize source = .ok (tokens, comments))
    (hword : word ∈ Keyword.declaring) (hs : source = a ++ (word.spelling.toList ++ b)) :
    (∃ t ∈ tokens, t.kind = .keyword word ∧ t.span.start = Text.byteLength a) ∨
      ∃ s ∈ hiddenSpans tokens comments, s.contains (Text.byteLength a) = true := by
  have horigin := origin_of_lexemize h
  obtain ⟨xs, hxs, rfl, rfl⟩ := exists_tiles_of_lexemize h
  obtain ⟨c, cs, hc⟩ := List.exists_cons_of_ne_nil (Keyword.spelling_ne_nil word hword)
  have hlt : Text.byteLength a < Text.byteLength source := by
    have hpos := c.utf8Size_pos
    rw [hs, hc]
    simp only [Text.byteLength_append, Text.byteLength_cons]
    omega
  rcases hxs.covers (Nat.zero_le _) hlt with ⟨x, hx, hstart, hstop⟩ | hblank
  · have hin : x.span.contains (Text.byteLength a) = true := by
      simp [Span.contains, hstart, hstop]
    cases x with
    | comment s =>
      refine .inr ⟨s, List.mem_append_left _ (List.mem_filterMap.2 ⟨_, hx, rfl⟩), hin⟩
    | token t =>
      have ht : t ∈ xs.filterMap Lexeme.token? := List.mem_filterMap.2 ⟨_, hx, rfl⟩
      cases hk : t.kind.hidesText with
      | true =>
        refine .inr ⟨t.span, List.mem_append_right _ (List.mem_map_of_mem ?_), hin⟩
        exact List.mem_filter.2 ⟨ht, hk⟩
      | false => exact .inl ⟨t, ht, (horigin t ht).start_of_word hk hword hs hin⟩
  · -- the word starts with a letter, and no space is one
    obtain ⟨front, d, after, hs', hle, hlt, hspace⟩ := hblank
    have hletter := Keyword.isLetter_of_declaring word hword c (by simp [hc])
    have hmem : c ∈ [d] := by
      rw [hs, hc] at hs'
      obtain ⟨m, rfl, hm⟩ := Text.exists_append_of_byteLength_le hs'.symm hle
      rw [Text.byteLength_append] at hlt
      have hcut : m ++ c :: (cs ++ b) = [d] ++ after := by simpa using hm.symm
      obtain ⟨m', hm', -⟩ :=
        Text.exists_append_of_byteLength_lt hcut (by simp only [Text.byteLength_cons]; omega)
      simp [hm']
    rw [← List.mem_singleton.1 hmem, isSpace_of_isLetter hletter] at hspace
    cases hspace

/-- A hidden place that does not start behind a token that hides nothing ends in front of it. -/
theorem hidden_stop_le (h : lexemize source = .ok (tokens, comments)) {s : Span}
    (hs : s ∈ hiddenSpans tokens comments) {t : Token} (ht : t ∈ tokens)
    (hk : t.kind.hidesText = false) (hle : s.start ≤ t.span.start) : s.stop ≤ t.span.start := by
  obtain ⟨xs, hxs, rfl, rfl⟩ := exists_tiles_of_lexemize h
  obtain ⟨x, hx, rfl, hhides⟩ := exists_lexeme_of_mem_hiddenSpans hs
  obtain ⟨y, hy, hyt⟩ := List.mem_filterMap.1 ht
  cases y <;> cases hyt
  refine hxs.stop_le x hx _ hy (fun hxy => ?_) hle
  rw [hhides t hxy] at hk
  cases hk

end

end EsModules
