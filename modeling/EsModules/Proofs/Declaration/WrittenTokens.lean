import EsModules.Proofs.Declaration.Written
import EsModules.Proofs.Token.Joined

/-!
# The tokens of written lines

The lexer accepts a source that consists of written import declarations, and each of its lines
starts with a token for the reserved word: names, marks and spaces stop in front of the quote of the
specifier, and the specifier goes up to the next quote.

* `Lexer.Leads`: some tokens lead from one lexer to another.
* `Lexer.Reaches`: a lexer comes to a place without an error.
* `Lexer.reaches_of_calm`: it comes to the end of a text that clauses are written with.
* `Lexer.reaches_line`, `lexemize_written`: a line, and a whole source.
-/

namespace EsModules

namespace Lexer

variable {l l' l'' : Lexer} {t : Token} {ts ts' : List Token} {s u : List Char}

/-! ## Tokens on the way -/

/-- Behind some tokens a lexer goes on as another one. -/
def Leads (l : Lexer) (ts : List Token) (l' : Lexer) : Prop :=
  l.lexemes = l'.lexemes.map fun (ts', cs) => (ts ++ ts', cs)

theorem Leads.trans (h : Leads l ts l') (h' : Leads l' ts' l'') : Leads l (ts ++ ts') l'' := by
  unfold Leads at h h' ⊢
  rw [h, h']
  cases l''.lexemes with
  | error e => rfl
  | ok found => exact congrArg (fun all => Except.ok (all, found.2)) (List.append_assoc _ _ _).symm

/-- A call leads behind its token. -/
theorem leads_of_step (h : l.step = (.ok t, l')) (hk : t.kind ≠ .eof) : Leads l [t] l' := by
  unfold Leads
  rw [lexemes_eq, h]
  exact if_neg hk

/-- A lexer that skips the same goes on the same way. -/
theorem leads_of_step_eq (h : l.step = l'.step) : Leads l [] l' := by
  unfold Leads
  rw [lexemes_eq, h, ← lexemes_eq]
  cases l'.lexemes <;> rfl

/-- A lexer in front of a text, with nothing owed and no open template. -/
structure InFront (l : Lexer) (s : List Char) : Prop where
  rest : l.rest = s
  owed : l.owed = 0
  braces : Brace.template ∉ l.braces

/-- A lexer comes to a place of its input without an error. -/
def Reaches (l : Lexer) (s : List Char) : Prop :=
  ∃ ts l', Leads l ts l' ∧ l'.InFront s ∧ l'.limit = l.limit

theorem InFront.reaches (h : l.InFront s) : Reaches l s :=
  ⟨[], l, leads_of_step_eq rfl, h, rfl⟩

theorem Reaches.behind (hlead : Leads l ts l') (hlimit : l'.limit = l.limit)
    (h : Reaches l' s) : Reaches l s := by
  obtain ⟨ts', l'', hlead', hfront, hlimit'⟩ := h
  exact ⟨_, _, hlead.trans hlead', hfront, hlimit'.trans hlimit⟩

/-! ## Single steps -/

/-- A space is skipped. -/
theorem leads_space {c : Char} (hspace : isSpace c = true) (h : l.InFront (c :: s)) :
    Leads l [] { l with rest := s, pos := l.pos + c.utf8Size } := by
  refine leads_of_step_eq (step_eq_of_skip h.owed h.owed ?_ ?_)
  · rw [h.rest, trivia_of_space hspace]
  · rw [skip, skip, h.rest, trivia_of_space hspace]

theorem limit_space {c : Char} (h : l.InFront (c :: s)) :
    ({ l with rest := s, pos := l.pos + c.utf8Size } : Lexer).limit = l.limit := by
  simp only [limit, h.rest, Text.byteLength_cons]
  omega

theorem limit_advance {x : Scan} (hx : x.text ++ x.rest = l.rest) (hpast : x.past = 0) :
    (l.advance x).limit = l.limit := by
  have hsize := congrArg Text.byteLength hx
  rw [Text.byteLength_append] at hsize
  simp only [limit, advance, Scan.width]
  omega

/-- What is read where no space and no comment starts is the next token. -/
theorem step_of_read_here {c : Char} {k : TokenKind} (h : l.InFront (c :: s))
    (hspace : isSpace c = false) (hslash : c ≠ '/') (hread : l.read = (.ok k, l'))
    (hk : k ≠ .eof) : l.step = (.ok ⟨k, ⟨l.pos, l'.pos⟩⟩, l'.after k) := by
  have htrivia : trivia l.pos l.rest = ⟨[], l.pos, l.rest, none⟩ := by
    rw [h.rest]
    exact trivia_of_ne hspace (fun hc => absurd hc hslash) l.pos
  have hskip : l.skip = l := by
    rw [skip, htrivia]
    simp
  have hnext := step_of_read (l := l) h.owed (by rw [htrivia]) (hskip.symm ▸ hread)
  rw [hskip, if_neg hk] at hnext
  exact hnext

/-! ## Texts of clauses -/

/-- A character of a clause is a space, part of a name, or one of four marks. -/
theorem cases_of_isCalm {c : Char} (hc : isCalm c = true) :
    c = ' ' ∨ isWordStart c = true ∨ Ascii.isDigit c = true ∨ c ∈ [',', '\x7b', '\x7d', '*'] := by
  rcases Bool.or_eq_true_iff.1 hc with h | h
  · simp only [isNameChar, Ascii.isWordChar, Ascii.isAlphanumeric, Bool.or_eq_true] at h
    simp only [isWordStart, Bool.or_eq_true]
    tauto
  · exact (List.mem_cons.1 (List.elem_iff.1 h)).imp_right fun h => .inr (.inr h)

/-- A word without escapes ends within its input. -/
theorem scanWord_past_of_calm (h : Calm u) : (scanWord false u).past = 0 := by
  induction u with
  | nil => rfl
  | cons c u ih =>
    have hback : c ≠ '\\' := by
      rintro rfl
      cases h '\\' List.mem_cons_self
    rw [scanWord]
    · split
      · exact ih fun d hd => h d (List.mem_cons_of_mem c hd)
      · rfl
    · exact fun r hc => absurd hc hback

/-- A word is read as a name or as a reserved word. -/
theorem exists_readWord (l : Lexer) (hpast : (scanWord false l.rest).past = 0) :
    ∃ k, k ≠ .eof ∧ l.readWord = (.ok k, l.advance (scanWord false l.rest)) := by
  rw [readWord_eq]
  cases l.afterMember with
  | true => exact ⟨.identifier, by decide, rfl⟩
  | false =>
    rw [if_neg Bool.false_ne_true, if_neg (by omega)]
    split
    · rename_i word _
      exact ⟨.keyword word, (by simp), rfl⟩
    · exact ⟨.identifier, by decide, rfl⟩

/-- A mark, or a character that is none, is read within its text in front of a barrier. -/
theorem exists_readMark {c : Char} (hrest : l.rest = c :: u ++ s) (hs : Barred s) :
    ∃ (k : TokenKind) (x : Scan), l.readMark = (.ok k, l.advance (x.followedBy s)) ∧ k ≠ .eof ∧
      x.text ++ x.rest = c :: u ∧ x.text ≠ [] ∧ x.past = 0 := by
  have hscan := (congrArg scanPunct hrest).trans (scanPunct_followedBy hs (c :: u))
  unfold readMark
  rw [hscan]
  cases hone : scanPunct (c :: u) with
  | none =>
    rw [hrest]
    exact ⟨.unknown, ⟨[c], u, 0⟩, rfl, by decide, rfl, List.cons_ne_nil _ _, rfl⟩
  | some found =>
    obtain ⟨mark, x⟩ := found
    obtain ⟨-, -, -, hsplit, hpast⟩ := scanPunct_eq_some hone
    exact ⟨.punct mark, x, rfl, (by simp), hsplit, scanPunct_text_ne_nil hone, hpast⟩

/-- What is read in front of a text that clauses are written with ends within it. -/
theorem exists_read_of_calm {c : Char} (h : l.InFront (c :: u ++ s)) (hcalm : Calm (c :: u))
    (hc : c ≠ ' ') (hs : Barred s) :
    ∃ (k : TokenKind) (x : Scan) (b : List Brace),
      l.read = (.ok k, { l.advance (x.followedBy s) with braces := b }) ∧ k ≠ .eof ∧
        Brace.template ∉ b ∧ x.text ++ x.rest = c :: u ∧ x.text ≠ [] ∧ x.past = 0 := by
  have hrest : l.rest = c :: (u ++ s) := h.rest
  have hcases := (cases_of_isCalm (hcalm c List.mem_cons_self)).resolve_left hc
  have hspace := isSpace_of_isCalm (hcalm c List.mem_cons_self) hc
  by_cases hword : isWordStart c = true
  · have hpast := scanWord_past_of_calm hcalm
    have hscan : scanWord false l.rest = (scanWord false (c :: u)).followedBy s :=
      (congrArg _ h.rest).trans (scanWord_followedBy hs hpast)
    obtain ⟨k, hk, hread⟩ := l.exists_readWord (by rw [hscan]; exact hpast)
    refine ⟨k, scanWord false (c :: u), l.braces, ?_, hk, h.braces,
      scanWord_text_append_rest false (c :: u), scanWord_text_ne_nil hword ?_, hpast⟩
    · rw [read_of_isWordStart hrest hword, hread, hscan]
      rfl
    · exact (Bool.or_eq_false_iff.1 hspace).2
  by_cases hdigit : Ascii.isDigit c = true
  · have hscan : scanNumber l.rest = (scanNumber (c :: u)).followedBy s :=
      (congrArg _ h.rest).trans (scanNumber_followedBy hs (c :: u))
    refine ⟨.number, scanNumber (c :: u), l.braces, ?_, by decide, h.braces,
      scanNumber_text_append_rest (c :: u), scanNumber_text_ne_nil (.inl hdigit),
      scanNumber_past (c :: u)⟩
    rw [read_of_isDigit hrest hdigit (Bool.eq_false_iff.2 hword), hscan]
    rfl
  have hmark := (hcases.resolve_left hword).resolve_left hdigit
  simp only [List.mem_cons, List.not_mem_nil, or_false] at hmark
  obtain ⟨k, x, hread, hk, hsplit, hne, hpast⟩ := exists_readMark h.rest hs
  rcases hmark with rfl | rfl | rfl | rfl
  · refine ⟨k, x, l.braces, ?_, hk, h.braces, hsplit, hne, hpast⟩
    rw [read, hrest]
    exact hread
  · refine ⟨.punct .lBrace, ⟨['\x7b'], u, 0⟩, .block :: l.braces, ?_, (by simp),
      by simpa using h.braces, rfl, List.cons_ne_nil _ _, rfl⟩
    rw [read, hrest]
    rfl
  · refine ⟨.punct .rBrace, ⟨['\x7d'], u, 0⟩, l.braces.tail, ?_, (by simp),
      fun hmem => h.braces (List.mem_of_mem_tail hmem), rfl, List.cons_ne_nil _ _, rfl⟩
    exact read_closeBrace hrest h.braces
  · refine ⟨k, x, l.braces, ?_, hk, h.braces, hsplit, hne, hpast⟩
    rw [read, hrest]
    exact hread

/-- **A text that clauses are written with is read to its end**, where a barrier stands. -/
theorem reaches_of_calm (hcalm : Calm u) (hs : Barred s) (h : l.InFront (u ++ s)) :
    Reaches l s := by
  induction hlength : u.length using Nat.strongRecOn generalizing l u with
  | ind length ih =>
    cases u with
    | nil => exact h.reaches
    | cons c u =>
      have hrest : Calm u := fun d hd => hcalm d (List.mem_cons_of_mem c hd)
      by_cases hc : c = ' '
      · subst hc
        have hbehind : ({ l with rest := u ++ s, pos := l.pos + (' ').utf8Size } : Lexer).InFront
            (u ++ s) := ⟨rfl, h.owed, h.braces⟩
        exact (ih u.length (hlength ▸ Nat.lt_succ_self _) hrest hbehind rfl).behind
          (leads_space rfl h) (limit_space h)
      · obtain ⟨k, x, b, hread, hk, hbraces, hsplit, hne, hpast⟩ :=
          exists_read_of_calm h hcalm hc hs
        have hnext := step_of_read_here h (isSpace_of_isCalm (hcalm c List.mem_cons_self) hc)
          (ne_of_isCalm (hcalm c List.mem_cons_self) (by decide)) hread hk
        have htaken : Calm x.rest := fun d hd => hcalm d (by
          rw [← hsplit]
          exact List.mem_append_right _ hd)
        have hshorter : x.rest.length < length := by
          have hsize := congrArg List.length hsplit
          have hpos := List.length_pos_iff.2 hne
          rw [List.length_append] at hsize
          omega
        let behind : Lexer := ({ l.advance (x.followedBy s) with braces := b } : Lexer).after k
        have hbehind : behind.InFront (x.rest ++ s) := ⟨rfl, h.owed, hbraces⟩
        have hlimit : behind.limit = l.limit := by
          refine limit_advance (x := x.followedBy s) ?_ hpast
          rw [h.rest, ← hsplit, List.append_assoc]
          rfl
        exact (ih x.rest.length hshorter htaken hbehind rfl).behind (leads_of_step hnext hk) hlimit

/-! ## Lines -/

/-- A string without its quote, backslashes and line ends is closed by the next quote. -/
theorem scanString_closed {q : Char} {text : List Char}
    (h : ∀ c ∈ text, c ≠ q ∧ c ≠ '\\' ∧ Ascii.isLineEnd c = false) (r : List Char)
    (hq : q = '"' ∨ q = '\'') :
    scanString q (text ++ q :: r) = (⟨text ++ [q], r, 0⟩, true) := by
  induction text with
  | nil => rcases hq with rfl | rfl <;> rfl
  | cons c text ih =>
    obtain ⟨⟨hquote, hback, hend⟩, htext⟩ := List.forall_mem_cons.1 h
    rw [List.cons_append, scanString_cons hback, if_neg (by simp [hend]),
      if_neg (by simpa using hquote), ih htext]
    rfl

/-- A quoted specifier, a semicolon and a line end are two tokens, behind which no member is asked
for. -/
theorem leads_lineEnd (name : PlainSpecifier)
    (h : l.InFront ('"' :: (name.text ++ "\";\n".toList ++ s))) :
    ∃ ts l', Leads l ts l' ∧ l'.InFront s ∧ l'.afterMember = false ∧ l'.limit = l.limit := by
  have hrest : l.rest = '"' :: (name.text ++ '"' :: (';' :: '\n' :: s)) :=
    h.rest.trans (congrArg _ (List.append_assoc _ _ _))
  have hplain : ∀ c ∈ name.text, c ≠ '"' ∧ c ≠ '\\' ∧ Ascii.isLineEnd c = false :=
    fun c hc => ⟨(name.plain c hc).1, (name.plain c hc).2.2⟩
  have hscan := scanString_closed hplain (';' :: '\n' :: s) (.inl rfl)
  have hstring := read_string hrest (.inl rfl) (by rw [hscan])
  rw [hscan] at hstring
  have hnext := step_of_read_here h (by decide) (by decide) hstring (by decide)
  let l₁ : Lexer := (l.advance ⟨'"' :: (name.text ++ ['"']), ';' :: '\n' :: s, 0⟩).after .string
  have hbehind : l₁.InFront (';' :: '\n' :: s) := ⟨rfl, h.owed, h.braces⟩
  have hnext' := step_of_read_here hbehind (by decide) (by decide) (read_semicolon rfl) (by decide)
  let l₂ : Lexer := (l₁.advance ⟨[';'], '\n' :: s, 0⟩).after (.punct .semicolon)
  have hbehind' : l₂.InFront ('\n' :: s) := ⟨rfl, h.owed, h.braces⟩
  have hstep : l₁.limit = l.limit :=
    limit_advance ((congrArg (List.cons '"') (List.append_assoc _ _ _)).trans hrest.symm) rfl
  have hstep' : l₂.limit = l₁.limit := limit_advance rfl rfl
  exact ⟨_, _, ((leads_of_step hnext (by simp)).trans (leads_of_step hnext' (by simp))).trans
    (leads_space rfl hbehind'), ⟨rfl, h.owed, h.braces⟩, rfl,
    (limit_space hbehind').trans (hstep'.trans hstep)⟩

/-- A reserved word that is scanned as a whole is read as one, unless the name of a member is asked
for. -/
theorem step_word {w : Keyword} {c : Char} (hmember : l.afterMember = false)
    (h : l.InFront (c :: u ++ s)) (hstart : isWordStart c = true) (hspace : isSpace c = false)
    (hslash : c ≠ '/') (hword : Keyword.ofSpelling? (c :: u) = some w)
    (hscan : scanWord false (c :: u ++ s) = ⟨c :: u, s, 0⟩) :
    l.step = (.ok ⟨.keyword w, ⟨l.pos, l.pos + Text.byteLength (c :: u)⟩⟩,
      (l.advance ⟨c :: u, s, 0⟩).after (.keyword w)) := by
  have hread : l.read = (.ok (.keyword w), l.advance ⟨c :: u, s, 0⟩) := by
    rw [read_of_isWordStart h.rest hstart, readWord_eq, h.rest, hscan, hmember,
      if_neg Bool.false_ne_true, hword]
    rfl
  exact step_of_read_here h hspace hslash hread (by simp)

/-- The first word of a line is read as the reserved word. -/
theorem step_import (hmember : l.afterMember = false)
    (h : l.InFront ("import".toList ++ ' ' :: s)) :
    l.step = (.ok ⟨.keyword .importKw, ⟨l.pos, l.pos + 6⟩⟩,
      (l.advance ⟨"import".toList, ' ' :: s, 0⟩).after (.keyword .importKw)) :=
  step_word (c := 'i') (u := "mport".toList) hmember h (by decide) (by decide) (by decide)
    (by decide) rfl

/-- **A written line is read to its end**, and starts with the reserved word. -/
theorem leads_line (d : ImportLine) (hmember : l.afterMember = false)
    (h : l.InFront (d.text ++ s)) :
    ∃ ts l', Leads l ts l' ∧ l'.InFront s ∧ l'.afterMember = false ∧ l'.limit = l.limit ∧
      ⟨.keyword .importKw, ⟨l.pos, l.pos + 6⟩⟩ ∈ ts := by
  have hword : l.InFront ("import".toList ++ ' ' :: d.behind s) :=
    ⟨h.rest.trans (d.text_append_eq s), h.owed, h.braces⟩
  have hnext := step_import hmember hword
  let l₁ : Lexer := (l.advance ⟨"import".toList, ' ' :: d.behind s, 0⟩).after (.keyword .importKw)
  have hbehind : l₁.InFront (' ' :: d.front ++ '"' :: (d.specifier.text ++ "\";\n".toList ++ s)) :=
    ⟨rfl, h.owed, h.braces⟩
  have hcalm : Calm (' ' :: d.front) := List.forall_mem_cons.2 ⟨rfl, d.calm_front⟩
  obtain ⟨ts, l₂, hleads, hquote, hlimit⟩ := reaches_of_calm hcalm (barred_cons rfl) hbehind
  obtain ⟨ts', l₃, hleads', hfront, hmember', hlimit'⟩ := leads_lineEnd d.specifier hquote
  have hstep : l₁.limit = l.limit := limit_advance hword.rest.symm rfl
  exact ⟨_, l₃, ((leads_of_step hnext (by simp)).trans hleads).trans hleads', hfront, hmember',
    hlimit'.trans (hlimit.trans hstep), List.mem_cons_self⟩

/-- The offsets at which lines start, the first at a given one. -/
def lineStarts : Nat → List ImportLine → List Nat
  | _, [] => []
  | offset, d :: ds => offset :: lineStarts (offset + Text.byteLength d.text) ds

/-- **Written lines are read to their end**, and each starts with the reserved word. -/
theorem lexemes_written (ds : List ImportLine) (hmember : l.afterMember = false)
    (h : l.InFront (ImportLine.source ds)) :
    ∃ ts cs, l.lexemes = .ok (ts, cs) ∧
      ∀ o ∈ lineStarts l.pos ds, ⟨.keyword .importKw, ⟨o, o + 6⟩⟩ ∈ ts := by
  induction ds generalizing l with
  | nil =>
    exact ⟨_, _, AtEnd.lexemes_eq ⟨h.rest, h.owed, h.braces⟩,
      fun o ho => absurd ho List.not_mem_nil⟩
  | cons d ds ih =>
    obtain ⟨ts, l', hleads, hfront, hmember', hlimit, hword⟩ :=
      leads_line (s := ImportLine.source ds) d hmember h
    obtain ⟨ts', cs, htokens, hwords⟩ := ih hmember' hfront
    have hpos : l'.pos = l.pos + Text.byteLength d.text := by
      have hsize : Text.byteLength (ImportLine.source (d :: ds)) =
          Text.byteLength d.text + Text.byteLength (ImportLine.source ds) :=
        Text.byteLength_append _ _
      simp only [limit, hfront.rest, hfront.owed, h.rest, h.owed] at hlimit
      omega
    refine ⟨ts ++ ts', cs, ?_, fun o ho => ?_⟩
    · rw [hleads, htokens]
      rfl
    · rcases List.mem_cons.1 ho with rfl | ho
      · exact List.mem_append_left _ hword
      · exact List.mem_append_right _ (hwords o (hpos ▸ ho))

end Lexer

/-- **The lexer accepts a source of written lines**, each of which starts with the reserved word. -/
theorem lexemize_written (ds : List ImportLine) :
    ∃ ts cs, lexemize (ImportLine.source ds) = .ok (ts, cs) ∧
      ∀ o ∈ Lexer.lineStarts 0 ds, ⟨.keyword .importKw, ⟨o, o + 6⟩⟩ ∈ ts := by
  have hstart : Lexer.start (ImportLine.source ds) =
      ⟨ImportLine.source ds, 0, 0, true, false, [], []⟩ := by
    cases ds with
    | nil => rfl
    | cons d ds => rfl
  rw [lexemize, hstart]
  exact Lexer.lexemes_written ds rfl ⟨rfl, rfl, List.not_mem_nil⟩

end EsModules
