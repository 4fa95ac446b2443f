import EsModules.Proofs.Token.Slices

/-!
# The lexer moves on

A lexer can be called on and on, also behind an error and behind the end of the input.  It never
turns back: every call that starts within the source takes some of it, whether it gives a token or
an error, and once the lexer is at the end it stays there and says the same for ever.

* `Lexer.Fails`: the ways in which no token is read, beside `Lexer.Reads` for those in which one
  is.
* `Lexer.Advances`: what a call does to the place and the comments of a lexer (`Stands.advances`).
* `Lexer.behind`: the lexer behind a number of calls.
* `Lexer.behind_start`: what holds of all numbers of calls.
-/

namespace EsModules

/-- A regular expression lies within the input, or it takes all of it and one byte behind it. -/
theorem scanRegexBody_past_cases (inClass : Bool) (input : List Char) :
    (scanRegexBody inClass input).1.past = 0 ∨
      (scanRegexBody inClass input).1.past = 1 ∧ (scanRegexBody inClass input).1.rest = [] := by
  fun_induction scanRegexBody inClass input <;> simp_all [Scan.cons, Scan.prepend]

theorem scanRegex_past_cases (input : List Char) :
    (scanRegex input).1.past = 0 ∨
      (scanRegex input).1.past = 1 ∧ (scanRegex input).1.rest = [] := by
  unfold scanRegex
  dsimp only
  split
  · exact .inl rfl
  · exact scanRegexBody_past_cases false input

namespace Lexer

variable {source : List Char} {l l' : Lexer} {e : LexError}

/-! ## Calls that give no token -/

/-- The ways to read no token where one should start, each with the lexer behind it. -/
inductive Fails (l : Lexer) : LexError → Lexer → Prop
  | ended : l.rest = [] → Brace.template ∈ l.braces → Fails l (.unterminated .template l.pos) l
  | word {c r} : l.rest = c :: r → isWordStart c = true → l.afterMember = false →
      0 < (scanWord false l.rest).past → Fails l .overrun (l.advance (scanWord false l.rest))
  | privateName {c r} : l.rest = '#' :: c :: r → isWordStart c = true → l.afterMember = false →
      0 < (scanWord false (c :: r)).past →
      Fails l .overrun (l.advance ((scanWord false (c :: r)).cons '#'))
  | string {q r} : l.rest = q :: r → q = '"' ∨ q = '\'' → (scanString q r).2 = false →
      Fails l (.unterminated .string l.pos) (l.advance ((scanString q r).1.cons q))
  | template {r} : l.rest = '\x60' :: r → (scanTemplate r).2 = .missing →
      Fails l (.unterminated .template l.pos) (l.advance ((scanTemplate r).1.cons '\x60'))
  | templateMiddle {r braces} : l.rest = '\x7d' :: r → l.braces = .template :: braces →
      (scanTemplate r).2 = .missing →
      Fails l (.unterminated .template l.pos)
        ({ l with braces := braces }.advance ((scanTemplate r).1.cons '\x7d'))
  | regex {r} : l.rest = '/' :: r → l.regexAllowed = true → (scanRegex r).2 = false →
      Fails l (.unterminated .regex l.pos) (l.advance ((scanRegex r).1.cons '/'))

theorem fails_of_readWord {c : Char} {r : List Char} (hl : l.rest = c :: r)
    (hc : isWordStart c = true) (h : l.readWord = (.error e, l')) : Fails l e l' := by
  unfold readWord at h
  dsimp only at h
  split at h
  · cases (Prod.mk.inj h).1
  · rename_i hm
    split at h
    · rename_i hpast
      obtain ⟨he, rfl⟩ := Prod.mk.inj h
      exact Except.error.inj he ▸ .word hl hc (by simpa using hm) hpast
    · split at h <;> cases (Prod.mk.inj h).1

theorem fails_of_readPrivateName {c : Char} {r : List Char} (hl : l.rest = '#' :: c :: r)
    (hc : isWordStart c = true) (h : l.readPrivateName (c :: r) = (.error e, l')) :
    Fails l e l' := by
  unfold readPrivateName at h
  dsimp only at h
  split at h
  · cases (Prod.mk.inj h).1
  · split at h
    · rename_i hpast
      simp only [Bool.and_eq_true, decide_eq_true_eq, Bool.not_eq_true'] at hpast
      obtain ⟨he, rfl⟩ := Prod.mk.inj h
      exact Except.error.inj he ▸ .privateName hl hc hpast.2 hpast.1
    · cases (Prod.mk.inj h).1

/-- A part of a template that is not read is never closed. -/
theorem readTemplate_eq_error {opening : Char} {input : List Char} {closed opened : TokenKind}
    (h : l.readTemplate opening input closed opened = (.error e, l')) :
    (scanTemplate input).2 = .missing ∧ e = .unterminated .template l.pos ∧
      l' = l.advance ((scanTemplate input).1.cons opening) := by
  unfold readTemplate at h
  dsimp only at h
  split at h
  · cases (Prod.mk.inj h).1
  · cases (Prod.mk.inj h).1
  · rename_i hend
    obtain ⟨he, rfl⟩ := Prod.mk.inj h
    exact ⟨hend, (Except.error.inj he).symm, rfl⟩

theorem readMark_ne_error : l.readMark ≠ (.error e, l') := by
  intro h
  unfold readMark at h
  split at h <;> cases (Prod.mk.inj h).1

/-- Every token that is not read fails to be read in one of the listed ways. -/
theorem fails_of_read (h : l.read = (.error e, l')) : Fails l e l' := by
  cases hl : l.rest with
  | nil =>
    unfold read at h
    rw [hl] at h
    dsimp only at h
    split at h
    · rename_i hb
      obtain ⟨he, rfl⟩ := Prod.mk.inj h
      exact Except.error.inj he ▸ .ended hl (by simpa using hb)
    · cases (Prod.mk.inj h).1
  | cons c r =>
    obtain ⟨start, -, htells, hread⟩ := exists_start hl
    rw [hread] at h
    cases start with
    | word => exact fails_of_readWord hl htells h
    | number => cases (Prod.mk.inj h).1
    | string =>
      obtain ⟨he, rfl⟩ := Prod.mk.inj h
      split at he
      · cases he
      · rename_i hopen
        exact Except.error.inj he ▸ .string hl htells (Bool.eq_false_iff.2 hopen)
    | template =>
      obtain rfl : c = '\x60' := htells
      obtain ⟨hend, rfl, rfl⟩ := readTemplate_eq_error h
      exact .template hl hend
    | privateName =>
      obtain ⟨rfl, hword⟩ := htells
      cases r with
      | nil => cases hword
      | cons d r => exact fails_of_readPrivateName hl hword h
    | regex =>
      obtain ⟨rfl, hallowed⟩ := htells
      obtain ⟨he, rfl⟩ := Prod.mk.inj h
      split at he
      · cases he
      · rename_i hopen
        exact Except.error.inj he ▸ .regex hl hallowed (Bool.eq_false_iff.2 hopen)
    | openBrace => cases (Prod.mk.inj h).1
    | closeBrace =>
      obtain rfl : c = '\x7d' := htells
      change l.readClosing '\x7d' r = (.error e, l') at h
      unfold readClosing at h
      split at h
      · rename_i braces hb
        obtain ⟨hend, rfl, rfl⟩ := readTemplate_eq_error h
        exact .templateMiddle hl hb hend
      · cases (Prod.mk.inj h).1
    | mark => exact absurd h readMark_ne_error

/-- Every way to read no token takes some text from the front of the input, but at the end. -/
theorem Fails.between (h : Fails l e l') (howed : l.owed = 0)
    (hspace : ∀ c ∈ l.rest.head?, isUnicodeSpace c = false) :
    l.rest = [] ∧ l' = l ∨ ∃ text past, text ≠ [] ∧ Between l l' text past := by
  -- a scanner that is called behind the first character, which belongs to what is left open
  have behind {c r} {s : Scan} (hl : l.rest = c :: r) (hs : s.text ++ s.rest = r)
      (hpast : s.past = 0 ∨ s.past = 1 ∧ s.rest = []) :
      ∃ text past, text ≠ [] ∧ Between l (l.advance (s.cons c)) text past :=
    ⟨_, _, List.cons_ne_nil c s.text,
      between_advance howed (by simp [Scan.cons, hl, hs]) hpast⟩
  cases h with
  | ended hl _ => exact .inl ⟨hl, rfl⟩
  | @word c r hl hc _ _ =>
    exact .inr ⟨_, _, hl ▸ scanWord_text_ne_nil hc (hspace c (by simp [hl])),
      between_advance howed (scanWord_text_append_rest _ _) (scanWord_past _ _)⟩
  | privateName hl _ _ _ =>
    exact .inr (behind hl (scanWord_text_append_rest _ _) (scanWord_past _ _))
  | string hl _ _ =>
    exact .inr (behind hl (scanString_text_append_rest _ _) (.inl (scanString_past _ _)))
  | template hl _ =>
    exact .inr (behind hl (scanTemplate_text_append_rest _) (.inl (scanTemplate_past _)))
  | @templateMiddle r braces hl _ _ =>
    obtain ⟨text, past, htext, hb⟩ :=
      behind hl (scanTemplate_text_append_rest r) (.inl (scanTemplate_past r))
    exact .inr ⟨text, past, htext, hb.withBraces braces⟩
  | regex hl _ _ => exact .inr (behind hl (scanRegex_text_append_rest _) (scanRegex_past_cases _))

/-- Reading no token adds no comment. -/
theorem Fails.commentPlaces (h : Fails l e l') : l'.commentPlaces = l.commentPlaces := by
  cases h <;> rfl

/-! ## What a call does -/

/-- What is skipped in front of an input is a text of it, which is not empty if a comment in it is
never closed. -/
def Trivia.Skips (t : Trivia) (pos : Nat) (input : List Char) : Prop :=
  ∃ text, input = text ++ t.rest ∧ t.pos = pos + Text.byteLength text ∧
    (t.unclosed ≠ none → text ≠ [])

/-- What is skipped behind a text that is skipped is skipped together with it. -/
theorem Trivia.Skips.behind {t : Trivia} {pos : Nat} {taken rest : List Char}
    (h : t.Skips (pos + Text.byteLength taken) rest) : t.Skips pos (taken ++ rest) := by
  obtain ⟨text, hrest, hpos, hne⟩ := h
  refine ⟨taken ++ text, by rw [hrest, List.append_assoc], ?_, fun hopen h => ?_⟩
  · rw [hpos, Text.byteLength_append, Nat.add_assoc]
  · exact hne hopen (List.append_eq_nil_iff.1 h).2

/-- **Spaces and comments** are skipped, also if a comment is never closed. -/
theorem trivia_skips (pos : Nat) (input : List Char) : (trivia pos input).Skips pos input := by
  fun_induction trivia pos input with
  | case1 pos => exact ⟨[], rfl, rfl, fun h => absurd rfl h⟩
  | case2 pos r s t ih =>
    have hsplit : s.text ++ s.rest = '/' :: '/' :: r := by
      simp [s, Scan.prepend, scanLineComment, Scan.takeWhile_text_append_rest]
    have hskips : t.Skips pos (s.text ++ s.rest) := ih.behind
    exact hsplit ▸ hskips
  | case3 pos r body s hclosed t ih =>
    have hsplit : s.text ++ s.rest = '/' :: '*' :: r := by
      simp [s, body, Scan.prepend, scanBlockComment_text_append_rest]
    have hpast : s.past = 0 := scanBlockComment_past r
    have hwidth : s.width = Text.byteLength s.text := by rw [Scan.width, hpast, Nat.add_zero]
    have hskips : t.Skips pos (s.text ++ s.rest) := by
      refine Trivia.Skips.behind ?_
      rw [← hwidth]
      exact ih
    exact hsplit ▸ hskips
  | case4 pos r body s hopen =>
    have hsplit : s.text ++ s.rest = '/' :: '*' :: r := by
      simp [s, body, Scan.prepend, scanBlockComment_text_append_rest]
    have hpast : s.past = 0 := scanBlockComment_past r
    have hwidth : s.width = Text.byteLength s.text := by rw [Scan.width, hpast, Nat.add_zero]
    exact ⟨s.text, hsplit.symm, congrArg (pos + ·) hwidth, fun _ => List.cons_ne_nil _ _⟩
  | case5 pos c r _ _ hspace ih => exact @Trivia.Skips.behind _ pos [c] r ih
  | case6 pos c r _ _ hspace => exact ⟨[], rfl, rfl, fun h => absurd rfl h⟩

/-- Skipping spaces and comments leads from one place to another. -/
theorem Stands.skip (h : Stands source l) (howed : l.owed = 0) :
    Stands source l.skip ∧ l.pos ≤ l.skip.pos ∧
      ((trivia l.pos l.rest).unclosed ≠ none → l.pos < l.skip.pos) := by
  obtain ⟨text, hrest, hpos, hne⟩ := trivia_skips l.pos l.rest
  have hskip : l.skip.pos = l.pos + Text.byteLength text := hpos
  refine ⟨?_, by omega, fun hopen => ?_⟩
  · cases h with
    | between taken hs hp _ =>
      refine .between (taken ++ text) ?_ ?_ howed
      · rw [hs, hrest, List.append_assoc]
        rfl
      · rw [hskip, hp, Text.byteLength_append]
    | inside _ _ _ _ _ hpos => omega
    | beyond hnil hp _ =>
      obtain ⟨rfl, hnil'⟩ := List.append_eq_nil_iff.1 (hrest.symm.trans hnil)
      exact .beyond hnil' (hskip.trans hp) howed
  · obtain ⟨c, cs, rfl⟩ := List.exists_cons_of_ne_nil (hne hopen)
    have hc := c.utf8Size_pos
    rw [Text.byteLength_cons] at hskip
    omega

/-- What a call does to a lexer in its source: it leaves it at a place, does not lead it back, leads
it on if there is something to read, and forgets no comment. -/
structure Advances (source : List Char) (l l' : Lexer) : Prop where
  stands : Stands source l'
  pos_le : l.pos ≤ l'.pos
  pos_lt : l.pos < Text.byteLength source → l.pos < l'.pos
  commentPlaces : l.commentPlaces <+: l'.commentPlaces

/-- Reading behind the spaces and comments, with or without a token, leads the lexer on. -/
theorem Advances.of_between (h : Stands source l) (howed : l.owed = 0) {text : List Char}
    {past : Nat} (hb : Between l.skip l' text past) (hne : text ≠ [])
    (hcomments : l'.commentPlaces = l.skip.commentPlaces) : Advances source l l' := by
  obtain ⟨hskip, hle, -⟩ := h.skip howed
  have hlt := hb.pos_lt hne
  exact ⟨hskip.read howed hb hne, by omega, fun _ => by omega,
    hcomments ▸ List.prefix_append _ _⟩

/-- Reading nothing behind the spaces and comments leads the lexer to the end. -/
theorem Advances.skip (h : Stands source l) (howed : l.owed = 0) (hrest : l.skip.rest = []) :
    Advances source l l.skip := by
  obtain ⟨hskip, hle, -⟩ := h.skip howed
  have hend := hskip.byteLength_le hrest howed
  exact ⟨hskip, hle, fun _ => by omega, List.prefix_append _ _⟩

theorem Advances.after {kind : TokenKind} (h : Advances source l l') :
    Advances source l (l'.after kind) :=
  ⟨h.stands.after, h.pos_le, h.pos_lt, h.commentPlaces⟩

/-- A call that gives an error owes no byte; it has met a comment that is never closed, or failed
to read a token behind the comments. -/
theorem fails_of_step (h : l.step = (.error e, l')) :
    l.owed = 0 ∧ ((trivia l.pos l.rest).unclosed ≠ none ∧ l' = l.skip ∨
      (trivia l.pos l.rest).unclosed = none ∧ Fails l.skip e l') := by
  unfold step at h
  split at h
  · cases (Prod.mk.inj h).1
  · rename_i howed
    refine ⟨by omega, ?_⟩
    dsimp only at h
    split at h
    · rename_i hopen
      obtain ⟨-, rfl⟩ := Prod.mk.inj h
      exact .inl ⟨by simp [hopen], rfl⟩
    · rename_i hclosed
      refine .inr ⟨hclosed, ?_⟩
      split at h
      · rename_i hread
        obtain ⟨he, rfl⟩ := Prod.mk.inj h
        exact Except.error.inj he ▸ fails_of_read hread
      · cases (Prod.mk.inj h).1
      · cases (Prod.mk.inj h).1

/-- **A call that gives a token leads the lexer on.** -/
theorem Gives.advances {t : Token} (h : Gives l t l') (hplace : Stands source l) :
    Advances source l l' := by
  cases h with
  | owed howed =>
    obtain ⟨hplace', cs, hcs, -⟩ := (Gives.owed howed).tiles (by simp) hplace
    exact ⟨hplace', Nat.le_succ _, fun _ => Nat.lt_succ_self _, cs, hcs.symm⟩
  | eof howed _ hreads =>
    cases hreads with
    | eof hrest _ => exact .skip hplace howed hrest
  | read howed hclosed hk hreads =>
    obtain ⟨text, past, hne, hb⟩ := hreads.between hk howed (skip_rest_head hclosed)
    exact (Advances.of_between hplace howed hb hne hreads.commentPlaces).after

/-- **A call that gives an error leads the lexer on.** -/
theorem Stands.advances_of_error (hplace : Stands source l) (h : l.step = (.error e, l')) :
    Advances source l l' := by
  obtain ⟨howed, ⟨hopen, rfl⟩ | ⟨hclosed, hfails⟩⟩ := fails_of_step h
  · obtain ⟨hskip, hle, hlt⟩ := hplace.skip howed
    exact ⟨hskip, hle, fun _ => hlt hopen, List.prefix_append _ _⟩
  · obtain ⟨hrest, rfl⟩ | ⟨text, past, hne, hb⟩ := hfails.between howed (skip_rest_head hclosed)
    · exact .skip hplace howed hrest
    · exact .of_between hplace howed hb hne hfails.commentPlaces

/-- A call leads the lexer on. -/
theorem Stands.advances (h : Stands source l) : Advances source l l.next.2 := by
  rw [next_snd]
  cases hnext : l.step with
  | mk answer l' =>
    cases answer with
    | ok t => exact (gives_of_step hnext).advances h
    | error e => exact h.advances_of_error hnext

/-! ## The end of the input -/

/-- What a lexer says at the end of the input. -/
def answerAtEnd (l : Lexer) : Except LexError Token :=
  if Brace.template ∈ l.braces then .error (LexError.unterminated .template l.pos).wrapped
  else .ok (Token.wrapped ⟨.eof, ⟨l.pos, l.pos⟩⟩)

/-- Nothing is left to read at the end of the source and behind it. -/
theorem Stands.rest_eq_nil (h : Stands source l) (hend : Text.byteLength source ≤ l.pos) :
    l.rest = [] ∧ l.owed = 0 := by
  cases h with
  | between taken hs hp howed =>
    refine ⟨?_, howed⟩
    by_contra hne
    obtain ⟨c, cs, hrest⟩ := List.exists_cons_of_ne_nil hne
    have hc := c.utf8Size_pos
    rw [hs, hrest, Text.byteLength_append, Text.byteLength_cons] at hend
    omega
  | inside front c hs _ hpos _ =>
    rw [hs, Text.byteLength_append, Text.byteLength_cons] at hend
    omega
  | beyond hrest _ howed => exact ⟨hrest, howed⟩

/-- A call at the end of the input changes nothing. -/
theorem next_of_rest_eq_nil (hrest : l.rest = []) (howed : l.owed = 0) :
    l.next = (l.answerAtEnd, l) := by
  have htrivia : trivia l.pos l.rest = ⟨[], l.pos, [], none⟩ := by rw [hrest, trivia]
  have hskip : l.skip = l := by
    unfold skip
    rw [htrivia]
    dsimp only
    rw [List.append_nil, ← hrest]
  have hread : l.read = (if Brace.template ∈ l.braces then
      .error (.unterminated .template l.pos) else .ok .eof, l) := by
    unfold read
    rw [hrest]
    by_cases hb : Brace.template ∈ l.braces <;> simp [hb]
  unfold next step answerAtEnd
  rw [if_neg (by omega), htrivia]
  dsimp only
  rw [List.append_nil, ← hrest, hread]
  by_cases hb : Brace.template ∈ l.braces <;> simp [hb]

/-! ## Calls in a row -/

/-- The lexer behind a number of calls, whatever they have given. -/
def behind (l : Lexer) : Nat → Lexer
  | 0 => l
  | n + 1 => (l.behind n).next.2

@[simp] theorem behind_zero (l : Lexer) : l.behind 0 = l := rfl

@[simp] theorem behind_succ (l : Lexer) (n : Nat) : l.behind (n + 1) = (l.behind n).next.2 := rfl

theorem behind_next (l : Lexer) (n : Nat) : l.next.2.behind n = l.behind (n + 1) := by
  induction n with
  | zero => rfl
  | succ n ih =>
    rw [behind_succ, ih]
    rfl

theorem Stands.behind (h : Stands source l) (n : Nat) : Stands source (l.behind n) := by
  induction n with
  | zero => exact h
  | succ n ih => exact ih.advances.stands

/-- More calls lead no lexer back and let it forget no comment. -/
theorem Stands.behind_mono (h : Stands source l) {m n : Nat} (hmn : m ≤ n) :
    (l.behind m).pos ≤ (l.behind n).pos ∧ (l.behind m).comments <+: (l.behind n).comments := by
  induction hmn with
  | refl => exact ⟨Nat.le_refl _, List.prefix_rfl⟩
  | @step n _ ih =>
    have hadvances := (h.behind n).advances
    exact ⟨Nat.le_trans ih.1 hadvances.pos_le, ih.2.trans (hadvances.commentPlaces.map _)⟩

/-- A lexer at the end of the input stays as it is. -/
theorem Stands.behind_of_end (h : Stands source l) {m n : Nat} (hmn : m ≤ n)
    (hend : Text.byteLength source ≤ (l.behind m).pos) : l.behind n = l.behind m := by
  induction hmn with
  | refl => rfl
  | step _ ih =>
    obtain ⟨hrest, howed⟩ := (h.behind m).rest_eq_nil hend
    rw [behind_succ, ih, next_of_rest_eq_nil hrest howed]

/-- Each call but those at the end takes a byte. -/
theorem Stands.le_pos_behind (h : Stands source l) (n : Nat) :
    Text.byteLength source ≤ (l.behind n).pos ∨ l.pos + n ≤ (l.behind n).pos := by
  induction n with
  | zero => exact .inr (Nat.le_refl _)
  | succ n ih =>
    have hadvances := (h.behind n).advances
    have hle := hadvances.pos_le
    have hlt := hadvances.pos_lt
    rw [behind_succ]
    omega

/-- The tokens of a lexer are given by calls in a row, of which there are no more than bytes are
left; the call behind them meets the end or an error. -/
theorem Stands.exists_calls (h : Stands source l) :
    ∃ ts, l.pos + ts.length ≤ max l.pos (Text.byteLength source) ∧
      Calls l ts (l.behind ts.length) ∧
      (∀ t, (l.behind ts.length).next.1 = .ok t → t.kind = .eof) ∧
      l.tokens = (l.behind ts.length).next.1.map fun _ =>
        (ts, (l.behind ts.length).next.2.comments) := by
  fun_induction tokens l with
  | case1 l e l' hnext =>
    refine ⟨[], Nat.le_max_left _ _, .none, fun t ht => ?_, ?_⟩
    · rw [List.length_nil, behind_zero, hnext] at ht
      cases ht
    · rw [List.length_nil, behind_zero, hnext]
      rfl
  | case2 l t l' hnext hk =>
    refine ⟨[], Nat.le_max_left _ _, .none, fun t' ht => ?_, ?_⟩
    · rw [List.length_nil, behind_zero, hnext] at ht
      exact Except.ok.inj ht ▸ hk
    · rw [List.length_nil, behind_zero, hnext]
      rfl
  | case3 l t l' hnext hk ih =>
    have hadvances : Advances source l l' := by
      obtain ⟨t, hstep, rfl⟩ := next_eq_ok.1 hnext
      exact (gives_of_step hstep).advances h
    have hinside : l.pos < Text.byteLength source := by
      -- at the end of the input no other token is given
      by_contra hend
      obtain ⟨hrest, howed⟩ := h.rest_eq_nil (Nat.le_of_not_lt hend)
      rw [next_of_rest_eq_nil hrest howed, answerAtEnd] at hnext
      split at hnext
      · cases (Prod.mk.inj hnext).1
      · obtain rfl := Except.ok.inj (Prod.mk.inj hnext).1
        exact hk rfl
    have hlt := hadvances.pos_lt hinside
    obtain ⟨ts, hlength, hcalls, hlast, htokens⟩ := ih hadvances.stands
    have hbehind : l'.behind ts.length = l.behind (t :: ts).length := by
      rw [List.length_cons, ← behind_next, hnext]
    rw [hbehind] at hcalls hlast htokens
    refine ⟨t :: ts, ?_, .call hnext hk hcalls, hlast, ?_⟩
    · rw [List.length_cons]
      omega
    · rw [htokens]
      cases (l.behind (t :: ts).length).next.1 <;> rfl

/-- **The lexer always moves on.**  However often it is called on a source, behind errors and behind
the end of the input too: it is never led back nor further than one byte behind the source,
comments are only added behind those it has met, a call within the source takes some of it, and from
the first call at the end on each call gives the same answer and changes nothing.  So a source is
cut up by one call more than it has bytes, or fewer. -/
theorem behind_start (source : List Char) :
    let lexer := (start source).behind
    let size := Text.byteLength source
    (∀ m n, m ≤ n → (lexer m).pos ≤ (lexer n).pos ∧
      (lexer m).comments <+: (lexer n).comments) ∧
    (∀ n, (lexer n).pos ≤ size + 1 ∧ ((lexer n).pos < size → (lexer n).pos < (lexer (n + 1)).pos)) ∧
    (∀ m n, m ≤ n → size ≤ (lexer m).pos →
      lexer n = lexer m ∧ (lexer n).next = ((lexer m).answerAtEnd, lexer m)) ∧
    size ≤ (lexer size).pos ∧
    ∃ ts, ts.length ≤ size ∧ Calls (start source) ts (lexer ts.length) ∧
      (∀ t, (lexer ts.length).next.1 = .ok t → t.kind = .eof) ∧
      tokenize source = (lexer ts.length).next.1.map fun _ =>
        (ts, (lexer (ts.length + 1)).comments) := by
  intro lexer size
  have hplace := (start_tiles source).1
  refine ⟨fun m n => hplace.behind_mono, fun n => ?_, fun m n hmn hend => ?_, ?_, ?_⟩
  · exact ⟨(hplace.behind n).pos_le, (hplace.behind n).advances.pos_lt⟩
  · have hstays : lexer n = lexer m := hplace.behind_of_end hmn hend
    obtain ⟨hrest, howed⟩ := (hplace.behind m).rest_eq_nil hend
    exact ⟨hstays, by rw [hstays]; exact next_of_rest_eq_nil hrest howed⟩
  · have hsize := hplace.le_pos_behind size
    show Text.byteLength source ≤ ((start source).behind size).pos
    omega
  · obtain ⟨ts, hlength, hcalls, hlast, htokens⟩ := hplace.exists_calls
    refine ⟨ts, ?_, hcalls, hlast, htokens⟩
    show ts.length ≤ Text.byteLength source
    omega

end Lexer

end EsModules
