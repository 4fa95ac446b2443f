import EsModules.Proofs.Token.Moved

/-!
# Sources joined at a statement boundary

A source that is closed off by a line with a semicolon has the tokens that it has alone, and what
follows the semicolon has those that it has alone, moved.  No state is carried over: regular
expressions are allowed behind the semicolon as at the start, and the blocks that are open there
only ever come to light as blocks.

* `Lexer.Frame`, `Lexer.within`: what lies around a source, and the lexer in it.
* `Lexer.read_within`, `Lexer.step_within`: a token is read in a frame as it is read alone.
* `Lexer.lexemes_within`: so is a whole source, up to its end.
* `tokenize_joined`: the tokens and comments of two sources with a semicolon between them.
-/

namespace EsModules

/-- A span, moved towards the end. -/
def Span.shift (d : Nat) (s : Span) : Span := ⟨s.start + d, s.stop + d⟩

/-- A token, moved towards the end. -/
def Token.shift (d : Nat) (t : Token) : Token := ⟨t.kind, t.span.shift d⟩

@[simp]
theorem Span.shift_zero (s : Span) : s.shift 0 = s := rfl

@[simp]
theorem Token.shift_zero (t : Token) : t.shift 0 = t := rfl

namespace Lexer

/-! ## Frames -/

/-- What lies around a source in a longer one. -/
structure Frame where
  /-- How many bytes stand in front. -/
  offset : Nat
  /-- The comments in front. -/
  comments : List Span
  /-- The braces that are open in front. -/
  braces : List Brace
  /-- What stands behind. -/
  behind : List Char

/-- No template is open in front, and what stands behind starts on a new line. -/
structure Frame.Sound (f : Frame) : Prop where
  braces : Brace.template ∉ f.braces
  behind : ∀ c r, f.behind = c :: r → c = '\n'

/-- The lexer in a frame. -/
def within (l : Lexer) (f : Frame) : Lexer where
  rest := l.rest ++ f.behind
  pos := l.pos + f.offset
  owed := l.owed
  regexAllowed := l.regexAllowed
  afterMember := l.afterMember
  braces := l.braces ++ f.braces
  commentPlaces := f.comments ++ l.commentPlaces.map (Span.shift f.offset)

/-- The offset behind the input. -/
def limit (l : Lexer) : Nat := l.pos + l.owed + Text.byteLength l.rest

variable {f : Frame} {l l' m : Lexer} {k : TokenKind} {t : Token}

theorem Frame.Sound.barred (hf : f.Sound) : Barred f.behind := by
  intro c r h
  rw [hf.behind c r h]
  rfl

theorem Frame.Sound.withBraces (hf : f.Sound) {braces : List Brace}
    (h : Brace.template ∉ braces) : ({ f with braces := braces } : Frame).Sound :=
  ⟨h, hf.behind⟩

/-- What is taken in a frame is what is taken alone. -/
theorem advance_within (l : Lexer) (x : Scan) (f : Frame) :
    (l.within f).advance (x.followedBy f.behind) = (l.advance x).within f := by
  simp only [advance, within, Scan.followedBy, Scan.width, mk.injEq, true_and, and_true]
  omega

/-- A word in a frame ends where it ends alone, unless only the end of the input ends it. -/
theorem Frame.Sound.scanWord (hf : f.Sound) {b : Bool} {u : List Char}
    (h : f.behind = [] ∨ (scanWord b u).past = 0) :
    scanWord b (u ++ f.behind) = (scanWord b u).followedBy f.behind := by
  rcases h with hnil | hpast
  · rw [hnil, List.append_nil]
    simp [Scan.followedBy]
  · exact scanWord_followedBy hf.barred hpast

/-- What is taken leads from one place to another in front of the same end. -/
theorem Between.limit {text : List Char} {past : Nat} (h : Between l l' text past)
    (howed : l.owed = 0) : l'.limit = l.limit + past := by
  have hpos := h.pos
  have hsize := congrArg Text.byteLength h.rest
  rw [Text.byteLength_append] at hsize
  unfold Lexer.limit
  omega

theorem limit_skip (hclosed : (trivia l.pos l.rest).unclosed = none) : l.skip.limit = l.limit := by
  obtain ⟨gap, hgap, hpos⟩ := trivia_split hclosed
  have hsize := congrArg Text.byteLength hgap
  rw [Text.byteLength_append] at hsize
  simp only [limit, skip]
  omega

/-- A scan that leads no further than to the end of the input stops there by itself. -/
theorem past_of_limit_le {x : Scan} (hx : x.text ++ x.rest = l.rest)
    (h : f.behind = [] ∨ (l.advance x).limit ≤ l.limit) : f.behind = [] ∨ x.past = 0 := by
  refine h.imp_right fun hle => ?_
  have hsize := congrArg Text.byteLength hx
  rw [Text.byteLength_append] at hsize
  simp only [limit, advance, Scan.width] at hle
  omega

/-! ## Reading in a frame -/

theorem readWord_within (hf : f.Sound) (hread : l.readWord = (.ok k, l'))
    (hlimit : f.behind = [] ∨ l'.limit ≤ l.limit) :
    (l.within f).readWord = (.ok k, l'.within f) := by
  rw [readWord_eq] at hread ⊢
  obtain ⟨hk, rfl⟩ := Prod.mk.inj hread
  have hscan : scanWord false (l.within f).rest = (scanWord false l.rest).followedBy f.behind :=
    hf.scanWord (past_of_limit_le (scanWord_text_append_rest false l.rest) hlimit)
  rw [hscan, advance_within, ← hk]
  rfl

theorem readPrivateName_within (hf : f.Sound) {c : Char} {r : List Char}
    (hl : l.rest = '#' :: c :: r) (hread : l.readPrivateName (c :: r) = (.ok k, l'))
    (hlimit : f.behind = [] ∨ l'.limit ≤ l.limit) :
    (l.within f).readPrivateName (c :: r ++ f.behind) = (.ok k, l'.within f) := by
  have hsplit := scanWord_text_append_rest false (c :: r)
  unfold readPrivateName at hread ⊢
  dsimp only [List.cons_append] at hread ⊢
  cases htext : (scanWord false (c :: r)).text with
  | nil =>
    rw [htext] at hread
    obtain ⟨hk, rfl⟩ := Prod.mk.inj hread
    have hpast : (scanWord false (c :: r)).past = 0 := by
      refine (scanWord_past false (c :: r)).resolve_right fun h => ?_
      rw [htext, h.2] at hsplit
      cases hsplit
    have hscan := scanWord_followedBy hf.barred hpast
    rw [List.cons_append] at hscan
    rw [hscan]
    simp only [Scan.followedBy, htext, ← hk, within, Nat.add_right_comm l.pos]
  | cons d text =>
    rw [htext] at hread
    dsimp only at hread
    split at hread
    · cases (Prod.mk.inj hread).1
    · rename_i hpast
      obtain ⟨hk, rfl⟩ := Prod.mk.inj hread
      have hcons : ((scanWord false (c :: r)).cons '#').text
          ++ ((scanWord false (c :: r)).cons '#').rest = l.rest :=
        (congrArg (List.cons '#') hsplit).trans hl.symm
      have hwithin : f.behind = [] ∨ (scanWord false (c :: r)).past = 0 :=
        past_of_limit_le (x := (scanWord false (c :: r)).cons '#') hcons hlimit
      have hscan := hf.scanWord hwithin
      rw [List.cons_append] at hscan
      rw [hscan]
      simp only [Scan.followedBy, htext]
      rw [← advance_within, ← hk, ← htext]
      exact if_neg hpast

theorem readTemplate_within {opening : Char} {closed opened : TokenKind} {r : List Char}
    (hread : l.readTemplate opening r closed opened = (.ok k, l')) (f : Frame) :
    (l.within f).readTemplate opening (r ++ f.behind) closed opened = (.ok k, l'.within f) := by
  unfold readTemplate at hread ⊢
  dsimp only at hread ⊢
  cases hend : (scanTemplate r).2 with
  | missing =>
    rw [hend] at hread
    cases (Prod.mk.inj hread).1
  | closed =>
    rw [hend] at hread
    obtain ⟨hk, rfl⟩ := Prod.mk.inj hread
    rw [scanTemplate_followedBy (by simp [hend]), hend, ← hk, ← advance_within]
    rfl
  | substitution =>
    rw [hend] at hread
    obtain ⟨hk, rfl⟩ := Prod.mk.inj hread
    rw [scanTemplate_followedBy (by simp [hend]), hend, ← hk]
    dsimp only
    rw [← Scan.cons_followedBy, advance_within]
    rfl

theorem readMark_within (hf : f.Sound) {c : Char} {r : List Char} (hl : l.rest = c :: r)
    (hread : l.readMark = (.ok k, l')) : (l.within f).readMark = (.ok k, l'.within f) := by
  have hwithin : (l.within f).rest = c :: r ++ f.behind := congrArg (· ++ f.behind) hl
  unfold readMark at hread ⊢
  rw [hl] at hread
  rw [hwithin, scanPunct_followedBy hf.barred]
  cases hscan : scanPunct (c :: r) with
  | none =>
    rw [hscan] at hread
    obtain ⟨hk, rfl⟩ := Prod.mk.inj hread
    rw [← advance_within, ← hk]
    rfl
  | some found =>
    rw [hscan] at hread
    obtain ⟨hk, rfl⟩ := Prod.mk.inj hread
    rw [← advance_within, ← hk]
    rfl

theorem advance_one_within {c : Char} {r : List Char} :
    (l.within f).advance ⟨[c], r ++ f.behind, 0⟩ = (l.advance ⟨[c], r, 0⟩).within f :=
  advance_within l ⟨[c], r, 0⟩ f

/-- Only a brace that closes no block of the source closes one in front of it. -/
theorem readClosing_within (hf : f.Sound) {c : Char} {r : List Char}
    (hread : l.readClosing c r = (.ok k, l')) :
    ∃ braces, Brace.template ∉ braces ∧ (l.within f).readClosing c (r ++ f.behind) =
      (.ok k, l'.within { f with braces := braces }) := by
  unfold readClosing at hread ⊢
  match hbraces : l.braces with
  | .template :: braces =>
    rw [hbraces] at hread
    have hstack : (l.within f).braces = .template :: (braces ++ f.braces) :=
      congrArg (· ++ f.braces) hbraces
    rw [hstack]
    exact ⟨f.braces, hf.braces, readTemplate_within hread f⟩
  | .block :: braces =>
    rw [hbraces] at hread
    obtain ⟨hk, rfl⟩ := Prod.mk.inj hread
    have hstack : (l.within f).braces = .block :: (braces ++ f.braces) :=
      congrArg (· ++ f.braces) hbraces
    rw [hstack, ← hk]
    exact ⟨f.braces, hf.braces, by rw [advance_one_within]; rfl⟩
  | [] =>
    rw [hbraces] at hread
    obtain ⟨hk, rfl⟩ := Prod.mk.inj hread
    have hstack : (l.within f).braces = f.braces := congrArg (· ++ f.braces) hbraces
    refine ⟨f.braces.tail, fun h => hf.braces (List.mem_of_mem_tail h), ?_⟩
    rw [hstack, ← hk, advance_one_within]
    split
    · rename_i braces hf'
      exact absurd (hf' ▸ List.mem_cons_self) hf.braces
    · rfl

/-- A token in a frame is read as it is alone, but for a brace that closes one in front of the
source. -/
theorem read_within (hf : f.Sound) (hne : l.rest ≠ []) (hread : l.read = (.ok k, l'))
    (hlimit : f.behind = [] ∨ l'.limit ≤ l.limit) :
    ∃ braces, Brace.template ∉ braces ∧
      (l.within f).read = (.ok k, l'.within { f with braces := braces }) := by
  obtain ⟨c, r, hl⟩ := List.exists_cons_of_ne_nil hne
  have hwithin : (l.within f).rest = c :: (r ++ f.behind) := congrArg (· ++ f.behind) hl
  have hstarts : (l.within f).starts c (r ++ f.behind) = l.starts c r := by
    unfold starts
    rw [hf.barred.head? isDigit_of_isBarrier r, hf.barred.head? isWordStart_of_isBarrier r]
    rfl
  obtain ⟨start, hstart, htells, hfrom⟩ := exists_start hl
  rw [hfrom] at hread
  rw [read_cons hwithin, hstarts, hstart]
  cases start with
  | word => exact ⟨f.braces, hf.braces, readWord_within hf hread hlimit⟩
  | number =>
    obtain ⟨hk, rfl⟩ := Prod.mk.inj hread
    refine ⟨f.braces, hf.braces, ?_⟩
    dsimp only [readFrom]
    rw [← List.cons_append, scanNumber_followedBy hf.barred, advance_within, hk]
  | string =>
    dsimp only [readFrom] at hread ⊢
    obtain ⟨hk, rfl⟩ := Prod.mk.inj hread
    split at hk
    · rename_i hclosed
      have hquote : c ≠ '\\' := by
        rintro rfl
        rcases htells with h | h <;> cases h
      refine ⟨f.braces, hf.braces, ?_⟩
      rw [scanString_followedBy hquote hclosed, ← Scan.cons_followedBy, advance_within, if_pos rfl,
        hk]
    · cases hk
  | template => exact ⟨f.braces, hf.braces, readTemplate_within hread f⟩
  | privateName =>
    obtain ⟨rfl, hword⟩ := htells
    cases r with
    | nil => cases hword
    | cons d r => exact ⟨f.braces, hf.braces, readPrivateName_within hf hl hread hlimit⟩
  | regex =>
    dsimp only [readFrom] at hread ⊢
    obtain ⟨hk, rfl⟩ := Prod.mk.inj hread
    split at hk
    · rename_i hclosed
      refine ⟨f.braces, hf.braces, ?_⟩
      rw [scanRegex_followedBy hf.barred hclosed, ← Scan.cons_followedBy, advance_within,
        if_pos rfl, hk]
    · cases hk
  | openBrace =>
    obtain ⟨hk, rfl⟩ := Prod.mk.inj hread
    refine ⟨f.braces, hf.braces, ?_⟩
    dsimp only [readFrom]
    rw [advance_one_within, ← hk]
    rfl
  | closeBrace => exact readClosing_within hf hread
  | mark => exact ⟨f.braces, hf.braces, readMark_within hf hl hread⟩

/-! ## Calls in a frame -/

/-- A comment up to the end of its line ends in a frame where it ends alone. -/
theorem Frame.Sound.scanLineComment (hf : f.Sound) (u : List Char) :
    scanLineComment (u ++ f.behind) = (scanLineComment u).followedBy f.behind := by
  refine Scan.takeWhile_followedBy (fun c r h => ?_) u
  rw [hf.behind c r h]
  rfl

/-- A comment in front of what is moved is moved with it. -/
theorem cons_comment_shift {pos width d : Nat} {rest : List Char} {cs : List Span} {t : Trivia}
    (h : trivia (pos + width + d) rest =
      { t with comments := cs.map (Span.shift d) ++ t.comments }) :
    ({ trivia (pos + d + width) rest with
        comments := ⟨pos + d, pos + d + width⟩ :: (trivia (pos + d + width) rest).comments } :
        Trivia) =
      { t with comments := (⟨pos, pos + width⟩ :: cs).map (Span.shift d) ++ t.comments } := by
  rw [Nat.add_right_comm pos d, h]
  rfl

/-- Spaces and comments in a frame are those of the source and then those that follow them. -/
theorem trivia_within (hf : f.Sound) {pos : Nat} {u : List Char}
    (hclosed : (trivia pos u).unclosed = none) :
    trivia (pos + f.offset) (u ++ f.behind) =
      let t := trivia ((trivia pos u).pos + f.offset) ((trivia pos u).rest ++ f.behind)
      { t with comments := (trivia pos u).comments.map (Span.shift f.offset) ++ t.comments } := by
  fun_induction trivia pos u with
  | case1 pos => rfl
  | case2 pos r x t ih =>
    rw [List.cons_append, List.cons_append, trivia, hf.scanLineComment]
    exact cons_comment_shift (ih hclosed)
  | case3 pos r body x hbody t ih =>
    rw [List.cons_append, List.cons_append, trivia, scanBlockComment_followedBy hbody]
    exact cons_comment_shift (ih hclosed)
  | case4 => cases hclosed
  | case5 pos c r hline hblock hspace ih =>
    rw [List.cons_append, trivia_of_space hspace, Nat.add_right_comm]
    exact ih hclosed
  | case6 pos c r hline hblock hspace => rfl

/-- Behind the spaces and comments of a source neither a space nor a comment stands, also in a
frame. -/
theorem trivia_rest_within (hf : f.Sound) {pos : Nat} {u : List Char}
    (hclosed : (trivia pos u).unclosed = none) (hne : (trivia pos u).rest ≠ []) (pos' : Nat) :
    trivia pos' ((trivia pos u).rest ++ f.behind) =
      ⟨[], pos', (trivia pos u).rest ++ f.behind, none⟩ := by
  fun_induction trivia pos u with
  | case1 => exact absurd rfl hne
  | case2 pos r x t ih => exact ih hclosed hne
  | case3 pos r body x hbody t ih => exact ih hclosed hne
  | case4 => cases hclosed
  | case5 pos c r hline hblock hspace ih => exact ih hclosed hne
  | case6 pos c r hline hblock hspace =>
    refine trivia_of_ne (Bool.eq_false_iff.2 hspace) (fun hc => ?_) pos'
    show (r ++ f.behind).head? ≠ some '/' ∧ (r ++ f.behind).head? ≠ some '*'
    cases r with
    | nil =>
      constructor
      · intro hhead
        obtain ⟨s, hs⟩ := List.head?_eq_some_iff.1 hhead
        cases hf.behind _ s hs
      · intro hhead
        obtain ⟨s, hs⟩ := List.head?_eq_some_iff.1 hhead
        cases hf.behind _ s hs
    | cons d r =>
      constructor
      · rintro ⟨⟩
        exact hline r hc rfl
      · rintro ⟨⟩
        exact hblock r hc rfl

/-- A call that owes no byte skips what stands in front of the next token and reads that. -/
theorem step_eq (howed : l.owed = 0) : l.step = match (trivia l.pos l.rest).unclosed with
    | some offset => (.error (.unterminated .comment offset), l.skip)
    | none => match l.skip.read with
      | (.error e, l') => (.error e, l')
      | (.ok .eof, l') => (.ok ⟨.eof, ⟨l.skip.pos, l'.pos⟩⟩, l')
      | (.ok kind, l') => (.ok ⟨kind, ⟨l.skip.pos, l'.pos⟩⟩, l'.after kind) := by
  rw [step, if_neg (by omega)]
  rfl

/-- Two states with the same to read behind the spaces and comments make the same call. -/
theorem step_eq_of_skip (hl : l.owed = 0) (hm : m.owed = 0)
    (hclosed : (trivia l.pos l.rest).unclosed = (trivia m.pos m.rest).unclosed)
    (hskip : l.skip = m.skip) : l.step = m.step := by
  rw [step_eq hl, step_eq hm, hclosed, hskip]

/-- In a frame, skipping what the source has in front of its next token changes nothing. -/
theorem step_skip_within (hf : f.Sound) (howed : l.owed = 0)
    (hclosed : (trivia l.pos l.rest).unclosed = none) :
    (l.within f).step = (l.skip.within f).step := by
  have htrivia : trivia (l.within f).pos (l.within f).rest = _ := trivia_within hf hclosed
  refine step_eq_of_skip howed howed ?_ ?_
  · rw [htrivia]
    rfl
  · rw [skip, htrivia]
    simp [skip, within]

/-- A call in a frame gives the token that it gives alone, moved. -/
theorem step_within (hf : f.Sound) (hnext : l.step = (.ok t, l')) (hk : t.kind ≠ .eof)
    (hends : f.behind = [] ∨ t.span.stop ≤ l.limit) :
    ∃ braces, Brace.template ∉ braces ∧
      (l.within f).step = (.ok (t.shift f.offset), l'.within { f with braces := braces }) ∧
      (f.behind = [] ∨ l'.limit = l.limit) := by
  by_cases howed : 0 < l.owed
  · have howed' : 0 < (l.within f).owed := howed
    refine ⟨f.braces, hf.braces, ?_⟩
    unfold step at hnext ⊢
    rw [if_pos howed] at hnext
    rw [if_pos howed']
    obtain ⟨ht, rfl⟩ := Prod.mk.inj hnext
    obtain rfl := Except.ok.inj ht
    refine ⟨?_, .inr ?_⟩
    · simp only [within, after, Token.shift, Span.shift, Nat.add_right_comm l.pos]
    · simp only [limit, after]
      omega
  · have hzero : l.owed = 0 := by omega
    obtain ⟨hclosed, l'', hread, hspan, rfl⟩ := read_of_step hzero hnext
    obtain ⟨text, past, hne, hb⟩ := (reads_of_read hread).between hk hzero (skip_rest_head hclosed)
    have hlimit := hb.limit hzero
    rw [limit_skip hclosed] at hlimit
    have hpast : f.behind = [] ∨ past = 0 := by
      refine hends.imp_right fun hstop => hb.past.resolve_right ?_
      rintro ⟨rfl, hrest, howed'⟩
      rw [limit, hrest, howed', Text.byteLength_nil] at hlimit
      rw [hspan] at hstop
      dsimp only at hstop
      omega
    have hsome : l.skip.rest ≠ [] := by
      rw [hb.rest]
      exact fun hnil => hne (List.append_eq_nil_iff.1 hnil).1
    obtain ⟨braces, hbraces, hread'⟩ := read_within hf hsome hread <| hpast.imp_right fun h => by
      rw [hlimit, limit_skip hclosed, h]
      exact Nat.le_refl _
    -- nothing is left to skip in front of the token
    have htrivia : trivia (l.skip.within f).pos (l.skip.within f).rest = _ :=
      trivia_rest_within hf hclosed hsome _
    have hskip : (l.skip.within f).skip = l.skip.within f := by
      rw [skip, htrivia]
      simp [within, skip]
    have hclosed' : (trivia (l.skip.within f).pos (l.skip.within f).rest).unclosed = none := by
      rw [htrivia]
    have howed' : (l.skip.within f).owed = 0 := hzero
    refine ⟨braces, hbraces, ?_, hpast.imp_right fun h => ?_⟩
    · rw [step_skip_within hf hzero hclosed, step_of_read howed' hclosed' (hskip.symm ▸ hread'),
        hskip, if_neg hk, if_neg hk, Token.shift, hspan]
      rfl
    · rw [if_neg hk]
      exact hlimit.trans (by rw [h, Nat.add_zero])

/-! ## Whole sources in a frame -/

/-- The lexer at the end of its input, where no template is open. -/
structure AtEnd (l : Lexer) : Prop where
  rest : l.rest = []
  owed : l.owed = 0
  braces : Brace.template ∉ l.braces

/-- At the end of the input no token is left. -/
theorem AtEnd.lexemes_eq (h : l.AtEnd) : l.lexemes = .ok ([], l.commentPlaces) := by
  have htrivia : trivia l.pos l.rest = ⟨[], l.pos, l.rest, none⟩ := by rw [h.rest, trivia]
  have hskip : l.skip = l := by
    rw [skip, htrivia]
    simp
  have hread : l.skip.read = (.ok .eof, l) := by
    rw [hskip, read, h.rest]
    exact if_neg (by simpa using h.braces)
  exact lexemes_of_step_eof (step_of_read h.owed (by rw [htrivia]) hread) rfl

/-- A whole source in a frame: the lexer gives its tokens, moved, and goes on at its end. -/
theorem lexemes_within {ts : List Token} {cs : List Span} (h : l.lexemes = .ok (ts, cs))
    (hf : f.Sound) (hends : f.behind = [] ∨ ∀ t ∈ ts, t.span.stop ≤ l.limit) :
    ∃ (e : Lexer) (braces : List Brace), e.AtEnd ∧ e.commentPlaces = cs ∧
      Brace.template ∉ braces ∧ (f.behind = [] ∨ e.limit = l.limit) ∧
      (l.within f).lexemes = (e.within { f with braces := braces }).lexemes.map
        fun (ts', cs') => (ts.map (Token.shift f.offset) ++ ts', cs') := by
  fun_induction lexemes l generalizing f ts cs with
  | case1 l e l' hnext => cases h
  | case2 l t l' hnext hk =>
    obtain ⟨rfl, rfl⟩ := Prod.mk.inj (Except.ok.inj h)
    cases gives_of_step hnext with
    | owed => cases hk
    | read _ _ hne => exact absurd hk hne
    | eof howed hclosed hreads =>
      cases hreads with
      | eof hrest hbraces =>
        refine ⟨l.skip, f.braces, ⟨hrest, howed, hbraces⟩, rfl, hf.braces,
          .inr (limit_skip hclosed), ?_⟩
        rw [lexemes_eq, step_skip_within hf howed hclosed, ← lexemes_eq]
        exact (congrFun Except.map_id _).symm
  | case3 l t l' hnext hk ih =>
    cases hrest : l'.lexemes with
    | error e =>
      rw [hrest] at h
      cases h
    | ok found =>
      obtain ⟨ts', cs'⟩ := found
      rw [hrest] at h
      obtain ⟨rfl, rfl⟩ := Prod.mk.inj (Except.ok.inj h)
      obtain ⟨braces, hbraces, hnext', hlimit⟩ :=
        step_within hf hnext hk (hends.imp_right fun h => h t List.mem_cons_self)
      have hends' : f.behind = [] ∨ ∀ t ∈ ts', t.span.stop ≤ l'.limit := by
        rcases hlimit with hnil | hlimit
        · exact .inl hnil
        · refine hends.imp_right fun h t ht => ?_
          rw [hlimit]
          exact h t (List.mem_cons_of_mem _ ht)
      obtain ⟨e, braces', hend, hcs, hbraces', hlimit', htokens⟩ :=
        ih hrest (hf.withBraces hbraces) hends'
      refine ⟨e, braces', hend, hcs, hbraces', ?_, ?_⟩
      · rcases hlimit with hnil | hlimit
        · exact .inl hnil
        · exact hlimit'.imp_right fun h => h.trans hlimit
      · rw [lexemes_eq, hnext']
        dsimp only
        have hkind : (t.shift f.offset).kind ≠ .eof := hk
        rw [if_neg hkind, htokens]
        cases (e.within { f with braces := braces' }).lexemes <;> rfl

theorem AtEnd.within (h : l.AtEnd) (hf : f.Sound) (hnil : f.behind = []) :
    (l.within f).AtEnd where
  rest := by rw [Lexer.within, h.rest, hnil]; rfl
  owed := h.owed
  braces := by
    simp only [Lexer.within, List.mem_append, not_or]
    exact ⟨h.braces, hf.braces⟩

/-- A whole source in a frame with nothing behind it: its tokens and comments are moved. -/
theorem lexemes_within_front {ts : List Token} {cs : List Span} (h : l.lexemes = .ok (ts, cs))
    (hf : f.Sound) (hnil : f.behind = []) :
    (l.within f).lexemes =
      .ok (ts.map (Token.shift f.offset), f.comments ++ cs.map (Span.shift f.offset)) := by
  obtain ⟨e, braces, hend, rfl, hbraces, -, htokens⟩ := lexemes_within h hf (.inl hnil)
  rw [htokens, (hend.within (hf.withBraces hbraces) hnil).lexemes_eq]
  simp [Except.map, within]

/-! ## The boundary -/

theorem scanPunct_semicolon (r : List Char) :
    scanPunct (';' :: '\n' :: r) = some (.semicolon, ⟨[';'], '\n' :: r, 0⟩) := by
  have hbarred : Barred ('\n' :: r) := barred_cons (by decide)
  have hone : scanPunct [';'] = some (.semicolon, ⟨[';'], [], 0⟩) := by decide +kernel
  exact (scanPunct_followedBy hbarred [';']).trans (by rw [hone]; rfl)

theorem read_semicolon {r : List Char} (hl : l.rest = ';' :: '\n' :: r) :
    l.read = (.ok (.punct .semicolon), l.advance ⟨[';'], '\n' :: r, 0⟩) := by
  have hread : l.read = l.readMark := by
    rw [read, hl]
    rfl
  rw [hread, readMark, hl, scanPunct_semicolon]

/-- A line with a semicolon is one token, behind which the lexer is as at the start. -/
theorem lexemes_semicolon {r : List Char} (howed : l.owed = 0)
    (hl : l.rest = '\n' :: ';' :: '\n' :: r) :
    l.lexemes =
      (⟨r, l.pos + 3, 0, true, false, l.braces, l.commentPlaces⟩ : Lexer).lexemes.map
        fun (ts, cs) => (⟨.punct .semicolon, ⟨l.pos + 1, l.pos + 2⟩⟩ :: ts, cs) := by
  have hnewline : ∀ pos r, trivia pos ('\n' :: r) = trivia (pos + 1) r :=
    fun pos r => trivia_of_space (by decide) pos r
  have htrivia : trivia l.pos l.rest = ⟨[], l.pos + 1, ';' :: '\n' :: r, none⟩ := by
    rw [hl, hnewline]
    exact trivia_of_ne (by decide) (fun h => absurd h (by decide)) _
  have hskip : l.skip = { l with pos := l.pos + 1, rest := ';' :: '\n' :: r } := by
    rw [skip, htrivia]
    simp
  have hread := read_semicolon (l := l.skip) (congrArg Lexer.rest hskip)
  have hnext := step_of_read howed (by rw [htrivia]) hread
  rw [if_neg (by decide), hskip] at hnext
  have hbehind : (⟨'\n' :: r, l.pos + 2, 0, true, false, l.braces, l.commentPlaces⟩ : Lexer).step =
      (⟨r, l.pos + 3, 0, true, false, l.braces, l.commentPlaces⟩ : Lexer).step := by
    refine step_eq_of_skip rfl rfl ?_ ?_
    · rw [hnewline]
    · rw [skip, hnewline]
      rfl
  rw [lexemes_eq, hnext]
  dsimp only
  rw [if_neg (by decide), lexemes_eq ⟨r, _, _, _, _, _, _⟩, ← hbehind, ← lexemes_eq]
  simp only [advance, after, howed]
  rfl

/-- Up to the end of its first line, and of the source, a source starts in front of any line as it
starts alone. -/
theorem start_append {source s : List Char} (hs : ∀ c r, s = c :: r → c = '\n') :
    start (source ++ s) = (start source).within ⟨0, [], [], s⟩ := by
  by_cases hmark : ∃ r, source = '#' :: '!' :: r
  · obtain ⟨r, rfl⟩ := hmark
    have hf : Frame.Sound ⟨0, [], [], s⟩ := ⟨List.not_mem_nil, hs⟩
    have hscan := hf.scanLineComment ('#' :: '!' :: r)
    simp only [start, List.cons_append] at hscan ⊢
    rw [hscan]
    rfl
  · have hne : ∀ r, source ≠ '#' :: '!' :: r := fun r h => hmark ⟨r, h⟩
    rw [start_of_ne hne, start_of_ne]
    · rfl
    · intro r h
      match source with
      | [] => cases hs _ _ h
      | [c] => cases hs _ _ (List.cons.inj h).2
      | c :: d :: source =>
        obtain ⟨rfl, hbang⟩ := List.cons.inj h
        obtain ⟨rfl, -⟩ := List.cons.inj hbang
        exact hne source rfl

theorem limit_start (source : List Char) : (start source).limit = Text.byteLength source := by
  obtain ⟨front, hsource, hfront⟩ := start_front source
  have hsize := congrArg Text.byteLength hsource
  rw [Text.byteLength_append] at hsize
  unfold limit
  omega

end Lexer

/-- Two sources with a line between them that is a semicolon have the tokens and comments of the
first, the semicolon, and the tokens and comments of the second, moved. -/
theorem lexemize_joined {a b : List Char} {ts ts' : List Token} {cs cs' : List Span}
    (ha : lexemize a = .ok (ts, cs)) (hb : lexemize b = .ok (ts', cs'))
    (hends : ∀ t ∈ ts, t.span.stop ≤ Text.byteLength a) (hmark : ¬ "#!".toList <+: b) :
    lexemize (a ++ "\n;\n".toList ++ b) =
      .ok (ts ++ ⟨.punct .semicolon, ⟨Text.byteLength a + 1, Text.byteLength a + 2⟩⟩ ::
          ts'.map (Token.shift (Text.byteLength a + 3)),
        cs ++ cs'.map (Span.shift (Text.byteLength a + 3))) := by
  have hline : ∀ c r, "\n;\n".toList ++ b = c :: r → c = '\n' :=
    fun c r h => (List.cons.inj h).1.symm
  obtain ⟨e, braces, hend, rfl, hbraces, hlimit, htokens⟩ :=
    Lexer.lexemes_within (f := ⟨0, [], [], "\n;\n".toList ++ b⟩) ha ⟨List.not_mem_nil, hline⟩
      (.inr (Lexer.limit_start a ▸ hends))
  have hpos : e.pos = Text.byteLength a := by
    have hlimit := hlimit.resolve_left (List.cons_ne_nil _ _)
    rw [Lexer.limit_start, Lexer.limit, hend.rest, hend.owed] at hlimit
    exact hlimit
  have hstack : Brace.template ∉ e.braces ++ braces := by
    rw [List.mem_append, not_or]
    exact ⟨hend.braces, hbraces⟩
  have hstart : Lexer.start b = ⟨b, 0, 0, true, false, [], []⟩ := by
    refine Lexer.start_of_ne ?_
    rintro r rfl
    exact hmark ⟨r, rfl⟩
  have hrest := Lexer.lexemes_within_front
    (f := ⟨Text.byteLength a + 3, e.commentPlaces, e.braces ++ braces, []⟩) hb
    ⟨hstack, fun c r h => nomatch h⟩ rfl
  have hsemicolon := Lexer.lexemes_semicolon
    (l := e.within ⟨0, [], braces, "\n;\n".toList ++ b⟩) (r := b) hend.owed
    (by rw [Lexer.within, hend.rest]; rfl)
  have hcomments : e.commentPlaces.map (Span.shift 0) = e.commentPlaces := List.map_id _
  have hshift : ts.map (Token.shift 0) = ts := List.map_id _
  have hafter : (⟨b, Text.byteLength a + 3, 0, true, false, e.braces ++ braces, e.commentPlaces⟩ :
      Lexer) = (Lexer.start b).within
        ⟨Text.byteLength a + 3, e.commentPlaces, e.braces ++ braces, []⟩ := by
    rw [hstart]
    simp [Lexer.within]
  rw [lexemize, List.append_assoc, Lexer.start_append hline, htokens, hsemicolon]
  simp only [Lexer.within, hpos, Nat.add_zero, List.nil_append, hcomments]
  rw [hafter, hrest]
  simp only [Except.map, hshift]

/-- **Sources joined at a statement boundary.**  Two sources with a line between them that is a
semicolon, together of less than 4 GiB, have the tokens and comments of the first, the semicolon,
and the tokens and comments of the second, moved. -/
theorem tokenize_joined {a b : List Char} {ts ts' : List Token} {cs cs' : List Span}
    (hsize : Text.byteLength a + Text.byteLength b < 2 ^ 32 - 8)
    (ha : tokenize a = .ok (ts, cs)) (hb : tokenize b = .ok (ts', cs'))
    (hends : ∀ t ∈ ts, t.span.stop ≤ Text.byteLength a) (hmark : ¬ "#!".toList <+: b) :
    tokenize (a ++ "\n;\n".toList ++ b) =
      .ok (ts ++ ⟨.punct .semicolon, ⟨Text.byteLength a + 1, Text.byteLength a + 2⟩⟩ ::
          ts'.map (Token.shift (Text.byteLength a + 3)),
        cs ++ cs'.map (Span.shift (Text.byteLength a + 3))) := by
  have hline : Text.byteLength "\n;\n".toList = 3 := rfl
  refine (tokenize_eq_ok_of_lt ?_).2 (lexemize_joined ((tokenize_eq_ok_of_lt ?_).1 ha)
    ((tokenize_eq_ok_of_lt ?_).1 hb) hends hmark)
  · rw [Text.byteLength_append, Text.byteLength_append, hline]
    omega
  · omega
  · omega

/-- The first source leaves a block open, the second closes two and starts with a regular
expression. -/
theorem tokenize_joined_blocks :
    tokenize "x\x7b//a".toList = .ok ([⟨.identifier, ⟨0, 1⟩⟩, ⟨.punct .lBrace, ⟨1, 2⟩⟩], [⟨2, 5⟩]) ∧
    tokenize "/b/\x7d\x7d".toList =
      .ok ([⟨.regex, ⟨0, 3⟩⟩, ⟨.punct .rBrace, ⟨3, 4⟩⟩, ⟨.punct .rBrace, ⟨4, 5⟩⟩], []) ∧
    tokenize ("x\x7b//a".toList ++ "\n;\n".toList ++ "/b/\x7d\x7d".toList) =
      .ok ([⟨.identifier, ⟨0, 1⟩⟩, ⟨.punct .lBrace, ⟨1, 2⟩⟩, ⟨.punct .semicolon, ⟨6, 7⟩⟩,
        ⟨.regex, ⟨8, 11⟩⟩, ⟨.punct .rBrace, ⟨11, 12⟩⟩, ⟨.punct .rBrace, ⟨12, 13⟩⟩], [⟨2, 5⟩]) :=
  have ha : tokenize "x\x7b//a".toList =
      .ok ([⟨.identifier, ⟨0, 1⟩⟩, ⟨.punct .lBrace, ⟨1, 2⟩⟩], [⟨2, 5⟩]) := by
    decide +kernel
  have hb : tokenize "/b/\x7d\x7d".toList =
      .ok ([⟨.regex, ⟨0, 3⟩⟩, ⟨.punct .rBrace, ⟨3, 4⟩⟩, ⟨.punct .rBrace, ⟨4, 5⟩⟩], []) := by
    decide +kernel
  ⟨ha, hb, tokenize_joined (by decide) ha hb (by decide) (by decide)⟩

end EsModules
