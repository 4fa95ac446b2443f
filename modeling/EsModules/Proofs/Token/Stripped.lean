import EsModules.Proofs.Token.Endings
import EsModules.Proofs.Token.Moved

/-!
# The tokens of a source without its comments

Beside a lexer in a source runs one in what is left of the source without its comments.  It gives
the same tokens as long as each of them ends in front of what then follows it.

* `uncommented`: what is left of the end of a source without its comments.
* `Token.KeepsEnd`: a token ends in front of that.
* `Lexer.step_beside`: the two calls for one token.
* `Lexer.lexemes_beside`: the calls up to the end of a source.
-/

namespace EsModules

/-! ## Cutting out comments -/

/-- The edit that cuts out a span. -/
def Edit.erase (s : Span) : Edit := ⟨s, []⟩

/-- What is left, behind an offset of a source, without the comments there. -/
def uncommented (comments : List Span) (offset : Nat) (source : List Char) : List Char :=
  Edit.applyFrom offset ((comments.filter fun s => decide (offset ≤ s.start)).map Edit.erase)
    (Text.dropBytes offset source)

/-- Nothing is left of nothing. -/
theorem Edit.Splices.eq_nil_of_erase {offset : Nat} {cs : List Span} {out : List Char}
    (h : Edit.Splices offset (cs.map Edit.erase) [] out) : out = [] := by
  induction cs generalizing offset out with
  | nil =>
    cases h
    rfl
  | cons s cs ih =>
    rw [List.map_cons] at h
    generalize hinput : ([] : List Char) = input at h
    cases h with
    | @edit _ _ _ gap old rest out start stop more =>
      obtain ⟨rfl, hold⟩ := List.append_eq_nil_iff.1 hinput.symm
      obtain ⟨rfl, rfl⟩ := List.append_eq_nil_iff.1 hold
      rw [ih more]
      rfl

/-- Without its comments a gap is blank. -/
theorem Gap.splices {pos : Nat} {gap blanks : List Char} {cs : List Span}
    (h : Gap pos gap cs blanks) : Edit.Splices pos (cs.map Edit.erase) gap blanks := by
  induction h with
  | nil => exact .done
  | @space pos c gap blanks cs _ _ ih =>
    have hkept : Edit.Splices pos [] [c] [c] := .done
    exact hkept.append ih
  | @comment pos stop text gap blanks cs hstop _ ih =>
    have hcut : Edit.Splices pos (Edit.erase ⟨pos, stop⟩ :: cs.map Edit.erase)
        ([] ++ (text ++ gap)) ([] ++ ([] ++ blanks)) := .edit rfl hstop ih
    exact hcut

/-- What is left behind a front, of which the comments in front have no part. -/
theorem uncommented_eq {source taken rest out : List Char} {front back : List Span} {offset : Nat}
    (hsource : source = taken ++ rest) (hoffset : offset = Text.byteLength taken)
    (hfront : ∀ s ∈ front, s.start < offset)
    (hback : Edit.Splices offset (back.map Edit.erase) rest out) :
    uncommented (front ++ back) offset source = out := by
  have hkeep : (front ++ back).filter (fun s => decide (offset ≤ s.start)) = back := by
    rw [List.filter_append, List.filter_eq_nil_iff.2, List.nil_append, List.filter_eq_self]
    · intro s hs
      exact decide_eq_true (hback.bounds _ (List.mem_map_of_mem hs)).1
    · intro s hs
      have hlt := hfront s hs
      simp only [decide_eq_true_eq]
      omega
  rw [uncommented, hkeep, hsource, hoffset, Text.dropBytes_append]
  exact hoffset ▸ hback.applyFrom_eq

/-! ## Comments in front of a token -/

/-- A comment starts here. -/
def StartsComment (input : List Char) : Prop := ['/', '/'] <+: input ∨ ['/', '*'] <+: input

/-- A token ends behind its text when a rest follows, and the two make no comment. -/
def TokenKind.EndsBefore (text rest : List Char) (k : TokenKind) : Prop :=
  k.StopsBefore text rest ∧ ¬ StartsComment (text ++ rest)

/-- A token ends where it does also in front of what is left of its source without the comments. -/
def Token.KeepsEnd (source : List Char) (comments : List Span) (t : Token) : Prop :=
  ∀ text, t.span.Covers source text →
    t.kind.EndsBefore text (uncommented comments t.span.stop source)

/-- A token of the same kind, with the same text if that one has a text. -/
structure Token.SameIn (source out : List Char) (t t' : Token) : Prop where
  kind : t'.kind = t.kind
  text : ∀ text, t.span.Covers source text → t'.span.Covers out text

namespace Lexer

variable {source out text rest r : List Char} {l l' m : Lexer} {k : TokenKind} {t : Token}

theorem trivia_of_blanks {blanks : List Char} (h : ∀ c ∈ blanks, isSpace c = true) (pos : Nat)
    (r : List Char) : trivia pos (blanks ++ r) = trivia (pos + Text.byteLength blanks) r := by
  induction blanks generalizing pos with
  | nil => rfl
  | cons c blanks ih =>
    rw [List.cons_append, trivia_of_space (h c List.mem_cons_self),
      ih fun d hd => h d (List.mem_cons_of_mem c hd), Text.byteLength_cons, Nat.add_assoc]

theorem trivia_of_not_startsComment {c : Char} (hspace : isSpace c = false)
    (h : ¬ StartsComment (c :: r)) (pos : Nat) :
    trivia pos (c :: r) = ⟨[], pos, c :: r, none⟩ := by
  refine trivia_of_ne hspace (fun hc => ⟨fun hhead => ?_, fun hhead => ?_⟩) pos
  · obtain ⟨r, rfl⟩ := List.head?_eq_some_iff.1 hhead
    exact h (.inl ⟨r, hc ▸ rfl⟩)
  · obtain ⟨r, rfl⟩ := List.head?_eq_some_iff.1 hhead
    exact h (.inr ⟨r, hc ▸ rfl⟩)

/-- A comment that starts here is found, or it is never closed. -/
theorem trivia_of_startsComment (h : StartsComment r) (pos : Nat)
    (hclosed : (trivia pos r).unclosed = none) : (trivia pos r).comments ≠ [] := by
  rcases h with ⟨r, rfl⟩ | ⟨r, rfl⟩
  · show (trivia pos ('/' :: '/' :: r)).comments ≠ []
    rw [trivia]
    exact List.cons_ne_nil _ _
  · replace hclosed : (trivia pos ('/' :: '*' :: r)).unclosed = none := hclosed
    show (trivia pos ('/' :: '*' :: r)).comments ≠ []
    rw [trivia] at hclosed ⊢
    split
    · exact List.cons_ne_nil _ _
    · rename_i hopen
      rw [if_neg hopen] at hclosed
      cases hclosed

/-- No comment starts behind what is skipped. -/
theorem trivia_rest_not_startsComment {pos : Nat} {input : List Char}
    (h : (trivia pos input).unclosed = none) : ¬ StartsComment (trivia pos input).rest := by
  fun_induction trivia pos input with
  | case1 => rintro (⟨r, hr⟩ | ⟨r, hr⟩) <;> cases hr
  | case2 pos r x t ih => exact ih h
  | case3 pos r body x hclosed t ih => exact ih h
  | case4 => cases h
  | case5 pos c r hline hblock hspace ih => exact ih h
  | case6 pos c r hline hblock hspace =>
    rintro (⟨r, hr⟩ | ⟨r, hr⟩)
    · obtain ⟨rfl, rfl⟩ := List.cons.inj hr
      exact hline r rfl rfl
    · obtain ⟨rfl, rfl⟩ := List.cons.inj hr
      exact hblock r rfl rfl

/-- A call adds the comments that it skips. -/
theorem Gives.commentPlaces (h : Gives l t l') :
    0 < l.owed ∧ l'.commentPlaces = l.commentPlaces ∨
      l.owed = 0 ∧ l'.commentPlaces = l.skip.commentPlaces := by
  cases h with
  | owed howed => exact .inl ⟨howed, rfl⟩
  | eof howed hclosed hreads => exact .inr ⟨howed, hreads.commentPlaces⟩
  | read howed hclosed hk hreads => exact .inr ⟨howed, hreads.commentPlaces⟩

/-- The comments that are known in front of a token, and those that are skipped there, are among
those of the source. -/
theorem comments_of_tokens {ts : List Token} {cs : List Span} (h : l.lexemes = .ok (ts, cs)) :
    l.commentPlaces <+: cs ∧ (l.owed = 0 → l.skip.commentPlaces <+: cs) := by
  have hskip : l.commentPlaces <+: l.skip.commentPlaces := List.prefix_append _ _
  suffices hnext : ∃ t l', Gives l t l' ∧ l'.commentPlaces <+: cs by
    obtain ⟨t, l', hgives, hcs⟩ := hnext
    rcases hgives.commentPlaces with ⟨howed, hcomments⟩ | ⟨howed, hcomments⟩
    · rw [hcomments] at hcs
      exact ⟨hcs, fun hzero => absurd hzero (Nat.ne_of_gt howed)⟩
    · rw [hcomments] at hcs
      exact ⟨hskip.trans hcs, fun _ => hcs⟩
  clear hskip
  fun_induction lexemes l generalizing ts cs with
  | case1 l e l' hnext => cases h
  | case2 l t l' hnext hk =>
    obtain ⟨-, rfl⟩ := Prod.mk.inj (Except.ok.inj h)
    exact ⟨t, l', gives_of_step hnext, List.prefix_rfl⟩
  | case3 l t l' hnext hk ih =>
    obtain ⟨⟨ts', cs'⟩, hrest, hcs⟩ := map_eq_ok.1 h
    obtain ⟨-, rfl⟩ := Prod.mk.inj hcs
    obtain ⟨t', l'', hgives, hcs'⟩ := ih hrest
    refine ⟨t, l', gives_of_step hnext, ?_⟩
    rcases hgives.commentPlaces with ⟨-, hcomments⟩ | ⟨-, hcomments⟩
    · exact hcomments ▸ hcs'
    · rw [hcomments] at hcs'
      exact (List.prefix_append _ _).trans hcs'

/-! ## Tokens that can be cut out -/

/-- A token that covers a text takes just that. -/
theorem text_of_covers {taken old text : List Char} {past : Nat}
    (hsource : source = taken ++ l.rest) (hpos : l.pos = Text.byteLength taken)
    (hb : Between l l' text past)
    (hcovers : Span.Covers source old ⟨l.pos, l'.pos⟩) :
    l'.owed = 0 ∧ past = 0 ∧ old = text := by
  obtain ⟨gap, back, hrest, hgap⟩ := hcovers.exists_append hsource (Nat.le_of_eq hpos.symm)
  dsimp only at hgap
  obtain rfl := Patch.eq_nil_of_byteLength_eq_zero (x := gap) (by omega)
  rw [List.nil_append] at hrest
  have hwidth : l'.pos = l.pos + Text.byteLength old := by
    obtain ⟨front, -, -, hstart, hstop⟩ := hcovers
    dsimp only at hstart hstop
    omega
  have hend := hb.pos
  rcases hb.past with rfl | ⟨rfl, hnil, howed⟩
  · by_cases howed : l'.owed = 0
    · have hlength : Text.byteLength old = Text.byteLength text := by omega
      exact ⟨howed, rfl, (Patch.append_inj_of_byteLength (hrest.symm.trans hb.rest) hlength).1⟩
    · -- the token would end within the last character of its text
      obtain ⟨front, c, rfl, hlt⟩ := hb.owed.resolve_left howed
      have hinside : l.rest = front ++ c :: l'.rest := by rw [hb.rest]; simp
      simp only [Text.byteLength_append, Text.byteLength_cons, Text.byteLength_nil] at hend
      exact absurd (by omega) (Text.not_inside hinside hrest (by omega))
  · have hsize := congrArg Text.byteLength (hrest.symm.trans hb.rest)
    rw [hnil] at hsize
    simp only [Text.byteLength_append, Text.byteLength_nil] at hsize
    omega

/-- A token that cannot be cut out is read again: it leaves bytes of a space, or it goes on behind
the end of the input. -/
theorem read_uncut {past : Nat} (hmode : SameMode l m) (howed : l.owed = 0)
    (hspace : ∀ c ∈ l.rest.head?, isUnicodeSpace c = false) (hstart : ¬ StartsComment l.rest)
    (hread : l.read = (.ok k, l')) (hb : Between l l' text past)
    (huncut : ¬ (l'.owed = 0 ∧ past = 0)) (hm : m.rest = text ++ rest)
    (hend : l'.rest = [] → rest = []) :
    ¬ StartsComment m.rest ∧ ∃ m', m.read = (.ok k, m') ∧ m'.rest = rest ∧ SameMode l' m' ∧
      m'.commentPlaces = m.commentPlaces := by
  rcases hb.past with rfl | ⟨-, hnil, -⟩
  · have howed' : l'.owed ≠ 0 := fun hzero => huncut ⟨hzero, rfl⟩
    cases reads_of_read hread with
    | @splitName c r hl hc htext =>
      obtain rfl : text = ['#', c] :=
        List.append_cancel_right (hb.rest.symm.trans (hl.trans (show _ = ['#', c] ++ r from rfl)))
      have hname : m.read = m.readPrivateName (c :: rest) := by
        rw [read_of_sharp (r := c :: rest) hm]
        exact if_pos hc
      have hnil : (scanWord false (c :: rest)).text = [] :=
        scanWord_text_eq_nil_iff.2 (scanWord_text_eq_nil_iff.1 htext)
      refine ⟨?_, { m with rest := rest, pos := m.pos + 2, owed := c.utf8Size - 1 }, ?_, rfl,
        ⟨rfl, hmode.regexAllowed, hmode.afterMember, hmode.braces⟩, rfl⟩
      · rw [hm]
        rintro (⟨r', hr⟩ | ⟨r', hr⟩) <;> cases hr
      · rw [hname]
        unfold readPrivateName
        dsimp only
        rw [hnil]
    | _ => exact absurd howed howed'
  · have hrest := hend hnil
    subst hrest
    have hsame : m.rest = l.rest := by rw [hm, hb.rest, hnil]
    have halike : Alike [] [] l m := ⟨hmode, l.rest, (List.append_nil _).symm, by simp [hsame]⟩
    obtain ⟨m', hread', halike'⟩ := read_alike .nil halike howed hspace hread List.nil_suffix
    obtain ⟨v, hv, hv'⟩ := halike'.rest
    refine ⟨hsame ▸ hstart, m', hread', ?_, halike'.toSameMode,
      (reads_of_read hread').commentPlaces⟩
    rw [hv', ← hv, hnil]

/-! ## Calls beside each other -/

/-- A lexer gives the listed tokens again, up to the end, and no further comment. -/
def Repeats (source out : List Char) (ts : List Token) (m : Lexer) : Prop :=
  ∃ ts', m.lexemes = .ok (ts', m.commentPlaces) ∧ List.Forall₂ (Token.SameIn source out) ts ts'

variable {t' : Token} {m' : Lexer} {ts : List Token}

/-- After a call that gives a token again the rest is to be repeated. -/
theorem repeats_cons_iff (hnext : m.step = (.ok t', m')) (hk : t'.kind ≠ .eof)
    (hcomments : m'.commentPlaces = m.commentPlaces) :
    Repeats source out (t :: ts) m ↔ t.SameIn source out t' ∧ Repeats source out ts m' := by
  unfold Repeats
  rw [lexemes_eq, hnext]
  dsimp only
  rw [if_neg hk, hcomments]
  constructor
  · rintro ⟨us, htokens, hall⟩
    obtain ⟨⟨ts', cs'⟩, hrest, hcons⟩ := map_eq_ok.1 htokens
    obtain ⟨rfl, rfl⟩ := Prod.mk.inj hcons
    obtain ⟨hsame, hall⟩ := List.forall₂_cons.1 hall
    exact ⟨hsame, ts', hrest, hall⟩
  · rintro ⟨hsame, ts', hrest, hall⟩
    exact ⟨t' :: ts', by rw [hrest]; rfl, .cons hsame hall⟩

/-- Behind blanks a lexer stands in front of what follows, unless that starts a comment. -/
theorem skip_of_blanks {blanks : List Char} {c : Char} (hm : m.rest = blanks ++ (c :: r))
    (hblanks : ∀ c ∈ blanks, isSpace c = true) (hspace : isSpace c = false)
    (hnot : ¬ StartsComment (c :: r)) :
    (trivia m.pos m.rest).unclosed = none ∧
      m.skip = { m with pos := m.pos + Text.byteLength blanks, rest := c :: r } := by
  have htrivia : trivia m.pos m.rest = ⟨[], m.pos + Text.byteLength blanks, c :: r, none⟩ := by
    rw [hm, trivia_of_blanks hblanks, trivia_of_not_startsComment hspace hnot]
  refine ⟨by rw [htrivia], ?_⟩
  rw [skip, htrivia]
  simp

/-- The first of the tokens is what a call gives. -/
theorem step_of_tokens_cons {cs : List Span} (h : m.lexemes = .ok (t :: ts, cs)) :
    ∃ m', m.step = (.ok t, m') := by
  rw [lexemes_eq] at h
  split at h
  · cases h
  · rename_i t' m' hnext
    split at h
    · cases (Prod.mk.inj (Except.ok.inj h)).1
    · obtain ⟨found, -, hcons⟩ := map_eq_ok.1 h
      obtain ⟨rfl, -⟩ := List.cons.inj (Prod.mk.inj hcons).1
      exact ⟨m', hnext⟩

/-- A call gives a token again, and no comment. -/
def RepeatsCall (source out : List Char) (t : Token) (l' : Lexer) (rest : List Char)
    (m : Lexer) : Prop :=
  ∃ t' m', m.step = (.ok t', m') ∧ t.SameIn source out t' ∧ SameMode l' m' ∧ m'.rest = rest ∧
    m'.commentPlaces = m.commentPlaces

/-- A token that is read off a text behind blanks covers it. -/
theorem covers_of_blanks {blanks : List Char} (hplace : Stands out m) (howed : m.owed = 0)
    (hm : m.rest = blanks ++ (text ++ rest)) (hne : text ≠ []) :
    Span.Covers out text ⟨m.pos + Text.byteLength blanks,
      m.pos + Text.byteLength blanks + Text.byteLength text⟩ := by
  rcases hplace.exists_front with hnil | ⟨taken, hout, htaken⟩
  · rw [hm] at hnil
    exact absurd (List.append_eq_nil_iff.1 (List.append_eq_nil_iff.1 hnil).2).1 hne
  · refine ⟨taken ++ blanks, rest, by rw [hout, hm, List.append_assoc], ?_, ?_⟩
    · rw [Text.byteLength_append]
      dsimp only
      omega
    · rw [Text.byteLength_append]
      dsimp only
      omega

/-- Where a comment starts no token is repeated. -/
theorem not_repeats_of_startsComment {blanks : List Char} (howed : m.owed = 0)
    (hm : m.rest = blanks ++ r) (hblanks : ∀ c ∈ blanks, isSpace c = true)
    (hstart : StartsComment r) : ¬ Repeats source out (t :: ts) m := by
  rintro ⟨us, htokens, hall⟩
  obtain ⟨t', ts', -, -, rfl⟩ := List.forall₂_cons_left_iff.1 hall
  obtain ⟨m', hnext⟩ := step_of_tokens_cons htokens
  have htrivia : trivia m.pos m.rest = trivia (m.pos + Text.byteLength blanks) r := by
    rw [hm, trivia_of_blanks hblanks]
  have hclosed := (read_of_step howed hnext).1
  rw [htrivia] at hclosed
  refine trivia_of_startsComment hstart _ hclosed ?_
  have hle : (m.commentPlaces ++ (trivia m.pos m.rest).comments).length ≤ m.commentPlaces.length :=
    ((comments_of_tokens htokens).2 howed).length_le
  rw [List.length_append, htrivia] at hle
  exact List.length_eq_zero_iff.1 (by omega)

/-- **One call beside another.**  The token is repeated if it ends in front of what follows it, and
else it is not. -/
theorem read_beside {past : Nat} {blanks : List Char} (hplace : Stands source l)
    (hplace' : Stands out m) (howed : l.owed = 0) (hmode : SameMode l m)
    (hclosed : (trivia l.pos l.rest).unclosed = none) (hread : l.skip.read = (.ok k, l'))
    (hk : k ≠ .eof) (hb : Between l.skip l' text past) (hne : text ≠ [])
    (hblanks : ∀ c ∈ blanks, isSpace c = true) (hm : m.rest = blanks ++ (text ++ rest))
    (hend : l'.rest = [] → rest = []) :
    (∀ old, Span.Covers source old ⟨l.skip.pos, l'.pos⟩ → k.EndsBefore old rest) ∧
        RepeatsCall source out ⟨k, ⟨l.skip.pos, l'.pos⟩⟩ (l'.after k) rest m ∨
      ¬ (∀ old, Span.Covers source old ⟨l.skip.pos, l'.pos⟩ → k.EndsBefore old rest) ∧
        ∀ ts, ¬ Repeats source out (⟨k, ⟨l.skip.pos, l'.pos⟩⟩ :: ts) m := by
  have howed' : m.owed = 0 := hmode.owed.trans howed
  have hmodeSkip : SameMode l.skip m.skip :=
    ⟨hmode.owed, hmode.regexAllowed, hmode.afterMember, hmode.braces⟩
  obtain ⟨taken, hsource, htaken⟩ : ∃ taken, source = taken ++ l.skip.rest ∧
      l.skip.pos = Text.byteLength taken := by
    rcases (hplace.skip_tiles howed hclosed).1.exists_front with hnil | ⟨taken, hs, htaken⟩
    · exact absurd (List.append_eq_nil_iff.1 (hb.rest.symm.trans hnil)).1 hne
    · refine ⟨taken, hs, ?_⟩
      have hzero : l.skip.owed = 0 := howed
      omega
  obtain ⟨c, tail, rfl⟩ := List.exists_cons_of_ne_nil hne
  have hspace : isSpace c = false := by
    refine trivia_rest_head _ _ hclosed c ?_
    show c ∈ l.skip.rest.head?
    rw [hb.rest]
    rfl
  -- what the second lexer does if no comment starts in front of it
  have hskip (hnot : ¬ StartsComment (c :: tail ++ rest)) :=
    skip_of_blanks (r := tail ++ rest) hm hblanks hspace hnot
  by_cases hcut : l'.owed = 0 ∧ past = 0
  · obtain ⟨hzero, rfl⟩ := hcut
    have hpos : l'.pos = l.skip.pos + Text.byteLength (c :: tail) := by
      have hpos := hb.pos
      omega
    have hcovers : Span.Covers source (c :: tail) ⟨l.skip.pos, l'.pos⟩ :=
      ⟨taken, l'.rest, by rw [hsource, hb.rest], htaken, by rw [← htaken]; exact hpos⟩
    have hends : (∀ old, Span.Covers source old ⟨l.skip.pos, l'.pos⟩ → k.EndsBefore old rest) ↔
        k.EndsBefore (c :: tail) rest := by
      refine ⟨fun h => h _ hcovers, fun h old hold => ?_⟩
      obtain ⟨-, -, rfl⟩ := text_of_covers hsource htaken hb hold
      exact h
    rw [hends]
    by_cases hstart : StartsComment (c :: tail ++ rest)
    · exact .inr ⟨fun h => h.2 hstart, fun ts =>
        not_repeats_of_startsComment howed' hm hblanks hstart⟩
    obtain ⟨hclosed', hskip⟩ := hskip hstart
    have hpos' : m.skip.pos = m.pos + Text.byteLength blanks := by rw [hskip]
    rcases read_cases hmodeSkip hb.rest (m := m.skip) (by rw [hskip]; rfl) hread rfl hpos hzero with
      ⟨hstops, m', hread', hrest, hstop, hmode', hcomments⟩ | ⟨hstops, hmisreads⟩
    · have hnext := step_of_read howed' hclosed' hread'
      rw [if_neg hk] at hnext
      refine .inl ⟨⟨hstops, hstart⟩, _, _, hnext, ⟨rfl, fun old hold => ?_⟩, hmode'.after k, hrest,
        hcomments.trans (by rw [hskip])⟩
      obtain ⟨-, -, rfl⟩ := text_of_covers hsource htaken hb hold
      rw [hstop, hpos']
      exact covers_of_blanks hplace' howed' hm hne
    · refine .inr ⟨fun h => hstops h.1, ?_⟩
      rintro ts ⟨us, htokens, hall⟩
      obtain ⟨t', ts', hsame, -, rfl⟩ := List.forall₂_cons_left_iff.1 hall
      obtain ⟨m', hnext⟩ := step_of_tokens_cons htokens
      obtain ⟨-, m'', hread', hspan, -⟩ := read_of_step howed' hnext
      rw [hsame.kind] at hread'
      obtain ⟨front, -, -, hfirst, hlast⟩ := hsame.text _ hcovers
      rw [hspan] at hfirst hlast
      dsimp only at hfirst hlast
      exact hmisreads m'' hread' (by omega)
  · obtain ⟨hnot, m', hread', hrest, hmode', hcomments⟩ := read_uncut (l := l.skip)
      (m := { m with pos := m.pos + Text.byteLength blanks, rest := c :: (tail ++ rest) })
      ⟨hmode.owed, hmode.regexAllowed, hmode.afterMember, hmode.braces⟩ howed
      (skip_rest_head hclosed) (trivia_rest_not_startsComment hclosed) hread hb hcut rfl hend
    obtain ⟨hclosed', hskip⟩ := hskip hnot
    rw [← hskip] at hread'
    have hnext := step_of_read howed' hclosed' hread'
    rw [if_neg hk] at hnext
    have huncovered : ∀ old, ¬ Span.Covers source old ⟨l.skip.pos, l'.pos⟩ := by
      intro old hold
      obtain ⟨hzero, hpast, -⟩ := text_of_covers hsource htaken hb hold
      exact hcut ⟨hzero, hpast⟩
    exact .inl ⟨fun old hold => absurd hold (huncovered old), _, _, hnext,
      ⟨rfl, fun old hold => absurd hold (huncovered old)⟩, hmode'.after k, hrest, hcomments⟩

/-! ## The end of the input -/

/-- The call that meets the end of the input has only skipped what was left. -/
theorem eof_of_step (hnext : l.step = (.ok t, l')) (hk : t.kind = .eof) :
    l.owed = 0 ∧ (trivia l.pos l.rest).unclosed = none ∧ l.skip.rest = [] ∧
      Brace.template ∉ l.braces ∧ l' = l.skip := by
  cases gives_of_step hnext with
  | owed => cases hk
  | eof howed hclosed hreads =>
    cases hreads with
    | eof hrest hbraces => exact ⟨howed, hclosed, hrest, hbraces, rfl⟩
  | read _ _ hne _ => exact absurd hk hne

/-- Blanks up to the end of the input give no token and no comment. -/
theorem lexemes_of_blanks (howed : m.owed = 0) (hblanks : ∀ c ∈ m.rest, isSpace c = true)
    (hbraces : Brace.template ∉ m.braces) : m.lexemes = .ok ([], m.commentPlaces) := by
  have htrivia : trivia m.pos m.rest = ⟨[], m.pos + Text.byteLength m.rest, [], none⟩ := by
    have h := trivia_of_blanks hblanks m.pos []
    rwa [List.append_nil, trivia] at h
  have hskip : m.skip = { m with pos := m.pos + Text.byteLength m.rest, rest := [] } := by
    rw [skip, htrivia]
    simp
  have hread : m.skip.read = (.ok .eof, m.skip) := by
    rw [hskip]
    exact if_neg (by simpa using hbraces)
  have hnext := step_of_read howed (by rw [htrivia]) hread
  rw [lexemes_of_step_eof hnext rfl, if_pos rfl, hskip]

/-- At the end of the input there is no further comment. -/
theorem comments_of_tokens_nil {cs : List Span} (hrest : l.rest = []) (howed : l.owed = 0)
    (h : l.lexemes = .ok (ts, cs)) : cs = l.commentPlaces := by
  cases hnext : l.step with
  | mk result l' =>
    cases result with
    | error e =>
      rw [lexemes_eq, hnext] at h
      cases h
    | ok t =>
      obtain ⟨hclosed, l'', hread, -, -⟩ := read_of_step howed hnext
      obtain ⟨gap, hgap, -⟩ := trivia_split hclosed
      have hskip : l.skip.rest = [] := (List.append_eq_nil_iff.1 (hgap.symm.trans hrest)).2
      have hk : t.kind = .eof := by
        by_contra hk
        obtain ⟨text, past, hne, hb⟩ :=
          (reads_of_read hread).between hk howed (skip_rest_head hclosed)
        exact hne (List.append_eq_nil_iff.1 (hb.rest.symm.trans hskip)).1
      obtain ⟨-, -, -, -, rfl⟩ := eof_of_step hnext hk
      rw [lexemes_of_step_eof hnext hk] at h
      rw [← (Prod.mk.inj (Except.ok.inj h)).2, skip, hrest, trivia, List.append_nil]

/-! ## Runs beside each other -/

theorem RepeatsCall.exists_repeats_iff (h : RepeatsCall source out t l' rest m)
    (hk : t.kind ≠ .eof) (hplace : Stands out m) : ∃ m', SameMode l' m' ∧ Stands out m' ∧
      m'.rest = rest ∧ ∀ ts, Repeats source out (t :: ts) m ↔ Repeats source out ts m' := by
  obtain ⟨t', m', hnext, hsame, hmode, hrest, hcomments⟩ := h
  have hk' : t'.kind ≠ .eof := by
    rw [hsame.kind]
    exact hk
  refine ⟨m', hmode, ((gives_of_step hnext).tiles hk' hplace).1, hrest, fun ts => ?_⟩
  rw [repeats_cons_iff hnext hk' hcomments]
  exact and_iff_right hsame

/-- Bytes of a space that are owed can be cut out by no text. -/
theorem Stands.not_covers_owed (hplace : Stands source l) (howed : 0 < l.owed) {stop : Nat} :
    ¬ Span.Covers source text ⟨l.pos, stop⟩ := by
  rintro ⟨front, back, hcut, hstart, -⟩
  cases hplace with
  | between _ _ _ hzero => omega
  | beyond _ _ hzero => omega
  | inside before c hs hlt hpos _ =>
    dsimp only at hstart
    exact Text.not_inside hs hcut (by omega) (by omega)

/-- A byte of a space that is owed is given out again. -/
theorem owed_beside (howed : 0 < l.owed) (hplace : Stands source l)
    (hnext : l.step = (.ok t, l')) :
    l' = { l with pos := l.pos + 1, owed := l.owed - 1 }.after .unknown ∧
      (∀ cs, t.KeepsEnd source cs) ∧
      ∀ {out m}, SameMode l m → RepeatsCall source out t l' m.rest m := by
  unfold step at hnext
  rw [if_pos howed] at hnext
  obtain ⟨ht, rfl⟩ := Prod.mk.inj hnext
  obtain rfl := Except.ok.inj ht
  have huncovered (old : List Char) : ¬ Span.Covers source old ⟨l.pos, l.pos + 1⟩ :=
    hplace.not_covers_owed howed
  refine ⟨rfl, fun cs old hold => absurd hold (huncovered old), fun {out m} hmode => ?_⟩
  have howed' : m.owed > 0 := by rw [hmode.owed]; exact howed
  refine ⟨_, _, if_pos howed', ⟨rfl, fun old hold => absurd hold (huncovered old)⟩,
    ⟨?_, rfl, rfl, hmode.braces⟩, rfl, rfl⟩
  simp only [after, hmode.owed]

/-- What is left of a source behind a token without the comments there is left behind the token. -/
theorem splices_of_between {gap blanks text rest : List Char} {past : Nat} {cs more : List Span}
    (hrest : l.rest = gap ++ (text ++ l'.rest)) (howed : l.owed = 0)
    (hgap : Gap l.pos gap cs blanks)
    (hpos : l'.pos + l'.owed = l.pos + Text.byteLength gap + Text.byteLength text + past)
    (hpast : past = 0 ∨ more = [])
    (hmore : Edit.Splices (l'.pos + l'.owed) (more.map Edit.erase) l'.rest rest) :
    Edit.Splices (l.pos + l.owed) ((cs ++ more).map Edit.erase) l.rest
      (blanks ++ (text ++ rest)) := by
  have hkept : Edit.Splices (l.pos + Text.byteLength gap) [] text text := .done
  have hbehind : Edit.Splices (l.pos + Text.byteLength gap + Text.byteLength text)
      (more.map Edit.erase) l'.rest rest := by
    rcases hpast with rfl | rfl
    · rwa [hpos] at hmore
    · cases hmore
      exact .done
  rw [hrest, howed, List.map_append]
  exact hgap.splices.append (hkept.append hbehind)

/-- What follows a token of the source without the comments is what is left there. -/
theorem keepsEnd_iff {gap : List Char} {past : Nat} {front more : List Span}
    (hplace : Stands source l) (howed : l.owed = 0) (hrest : l.rest = gap ++ (text ++ l'.rest))
    (hskip : l.skip.pos = l.pos + Text.byteLength gap) (hb : Between l.skip l' text past)
    (hne : text ≠ []) (hfront : ∀ s ∈ front, s.start < l'.pos)
    (hmore : Edit.Splices (l'.pos + l'.owed) (more.map Edit.erase) l'.rest rest) :
    Token.KeepsEnd source (front ++ more) ⟨k, ⟨l.skip.pos, l'.pos⟩⟩ ↔
      ∀ old, Span.Covers source old ⟨l.skip.pos, l'.pos⟩ → k.EndsBefore old rest := by
  refine forall_congr' fun old => forall_congr' fun hold => ?_
  rcases hplace.exists_front with hnil | ⟨taken, hsource, htaken⟩
  · rw [hrest] at hnil
    exact absurd (List.append_eq_nil_iff.1 (List.append_eq_nil_iff.1 hnil).2).1 hne
  have hsource' : source = taken ++ gap ++ l.skip.rest := by
    rw [hsource, hrest, hb.rest, List.append_assoc]
  have htaken' : l.skip.pos = Text.byteLength (taken ++ gap) := by
    rw [Text.byteLength_append]
    omega
  obtain ⟨howed', rfl, rfl⟩ := text_of_covers hsource' htaken' hb hold
  have hbehind : source = taken ++ gap ++ old ++ l'.rest := by
    rw [hsource', hb.rest, List.append_assoc _ old]
  have hpos : l'.pos = Text.byteLength (taken ++ gap ++ old) := by
    have hpos := hb.pos
    rw [Text.byteLength_append]
    omega
  rw [howed'] at hmore
  rw [uncommented_eq hbehind hpos hfront hmore]

/-- **The calls up to the end of a source**, and those on what is left of it without its comments:
the tokens are repeated exactly if each of them ends in front of what then follows it. -/
theorem lexemes_beside {cs : List Span} (h : l.lexemes = .ok (ts, cs)) (hplace : Stands source l)
    (hcomments : ∀ s ∈ l.commentPlaces, s.start ≤ l.pos) :
    ∃ more rest, cs = l.commentPlaces ++ more ∧
      Edit.Splices (l.pos + l.owed) (more.map Edit.erase) l.rest rest ∧
      ∀ {out m}, SameMode l m → Stands out m → m.rest = rest →
        (Repeats source out ts m ↔ ∀ t ∈ ts, t.KeepsEnd source cs) := by
  fun_induction lexemes l generalizing ts cs with
  | case1 l e l' hnext => cases h
  | case2 l t l' hnext hk =>
    obtain ⟨rfl, rfl⟩ := Prod.mk.inj (Except.ok.inj h)
    obtain ⟨howed, hclosed, hrest, hbraces, rfl⟩ := eof_of_step hnext hk
    obtain ⟨gap, blanks, hgap, hpos, hgaps⟩ := trivia_gap hclosed
    have hsplices := hgaps.splices
    rw [show (trivia l.pos l.rest).rest = [] from hrest, List.append_nil] at hgap
    rw [← hgap] at hsplices
    refine ⟨_, blanks, rfl, by rw [howed]; exact hsplices, fun hmode _ hm => ?_⟩
    refine iff_of_true ⟨[], ?_, .nil⟩ fun t ht => absurd ht List.not_mem_nil
    exact lexemes_of_blanks (hmode.owed.trans howed) (hm ▸ hgaps.isSpace_of_mem)
      (hmode.braces ▸ hbraces)
  | case3 l t l' hnext hk ih =>
    obtain ⟨⟨ts', cs'⟩, hrest, hcs⟩ := map_eq_ok.1 h
    obtain ⟨rfl, rfl⟩ := Prod.mk.inj hcs
    have hgives := gives_of_step hnext
    obtain ⟨hplace', -⟩ := hgives.tiles hk hplace
    by_cases howed : 0 < l.owed
    · obtain ⟨rfl, hkeeps, hcall⟩ := owed_beside howed hplace hnext
      obtain ⟨more, rest, hcs, hsplices, hrepeats⟩ := ih hrest hplace' fun s hs =>
        Nat.le_succ_of_le (hcomments s hs)
      have hoffset : l.pos + 1 + (l.owed - 1) = l.pos + l.owed := by omega
      refine ⟨more, rest, hcs, hoffset ▸ hsplices, fun {out m} hmode hout hm => ?_⟩
      obtain ⟨m', hmode', hout', hm', hiff⟩ := (hcall hmode).exists_repeats_iff hk hout
      rw [hiff, hrepeats hmode' hout' (hm'.trans hm), List.forall_mem_cons]
      exact (and_iff_right (hkeeps _)).symm
    · have hzero : l.owed = 0 := by omega
      obtain ⟨hclosed, l'', hread, hspan, rfl⟩ := read_of_step hzero hnext
      rw [if_neg hk] at hrest hplace' ih
      obtain ⟨k, span⟩ := t
      obtain rfl : span = ⟨l.skip.pos, l''.pos⟩ := hspan
      obtain ⟨text, past, hne, hb⟩ :=
        (reads_of_read hread).between hk hzero (skip_rest_head hclosed)
      obtain ⟨gap, blanks, hgap, hpos, hgaps⟩ := trivia_gap hclosed
      have hwhole : l.rest = gap ++ (text ++ l''.rest) := hgap.trans (congrArg (gap ++ ·) hb.rest)
      have hskip : l.skip.pos = l.pos + Text.byteLength gap := hpos
      have hlt : l.skip.pos < l''.pos := hb.pos_lt hne
      have hfound : l''.commentPlaces = l.commentPlaces ++ (trivia l.pos l.rest).comments :=
        (reads_of_read hread).commentPlaces
      have hbefore : ∀ s ∈ l''.commentPlaces, s.start < l''.pos := by
        intro s hs
        rw [hfound] at hs
        rcases List.mem_append.1 hs with hs | hs
        · have hle := hcomments s hs
          omega
        · have hle : s.start ≤ s.stop ∧ s.stop ≤ l.pos + Text.byteLength gap :=
            (hgaps.splices.bounds _ (List.mem_map_of_mem hs)).2
          omega
      obtain ⟨more, rest, rfl, hsplices, hrepeats⟩ := ih hrest hplace' fun s hs =>
        Nat.le_of_lt (hbefore s hs)
      have hmore : l''.rest = [] → l''.owed = 0 → more = [] := fun hnil howed' =>
        List.append_right_eq_self.1 (comments_of_tokens_nil (l := l''.after k) hnil howed' hrest)
      have hstop : l''.pos + l''.owed =
          l.pos + Text.byteLength gap + Text.byteLength text + past := by
        rw [hb.pos, hskip]
      refine ⟨(trivia l.pos l.rest).comments ++ more, blanks ++ (text ++ rest), ?_,
        splices_of_between hwhole hzero hgaps hstop
          (hb.past.imp_right fun h => hmore h.2.1 h.2.2) hsplices, ?_⟩
      · rw [← List.append_assoc, ← hfound]
        rfl
      have hend : l''.rest = [] → rest = [] := fun hnil =>
        Edit.Splices.eq_nil_of_erase
          (hnil ▸ hsplices : Edit.Splices _ (more.map Edit.erase) [] rest)
      have hkeeps := keepsEnd_iff (k := k) hplace hzero hwhole hskip hb hne hbefore hsplices
      intro out m hmode hout hm
      rw [List.forall_mem_cons]
      rcases read_beside hplace hout hzero hmode hclosed hread hk hb hne hgaps.isSpace_of_mem hm
        hend with ⟨hends, hcall⟩ | ⟨hends, hnot⟩
      · obtain ⟨m', hmode', hout', hm', hiff⟩ := hcall.exists_repeats_iff hk hout
        rw [hiff, hrepeats hmode' hout' hm']
        exact (and_iff_right (hkeeps.2 hends)).symm
      · exact iff_of_false (hnot ts') fun h => hends (hkeeps.1 h.1)

end Lexer

end EsModules
