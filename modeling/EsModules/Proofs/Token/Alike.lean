import EsModules.Proofs.Token.Joint
import EsModules.Proofs.Token.Run

/-!
# Calls of the lexer in front of a joint

Two states of the lexer that have read the same and stand in front of a joint read the same tokens,
as long as these end in front of it.

* `Lexer.SameMode`, `Lexer.Alike`: states that differ only in their inputs behind the joint.
* `Lexer.read_alike`, `Lexer.step_alike`: what is read there, and what a call gives.
-/

namespace EsModules

namespace Lexer

variable {s s' : List Char}

/-! ## Reading in front of a joint -/

/-- Two states of the lexer that differ only in what is in front of them and behind them. -/
structure SameMode (l m : Lexer) : Prop where
  owed : m.owed = l.owed
  regexAllowed : m.regexAllowed = l.regexAllowed
  afterMember : m.afterMember = l.afterMember
  braces : m.braces = l.braces

theorem SameMode.symm {l m : Lexer} (h : SameMode l m) : SameMode m l :=
  ⟨h.owed.symm, h.regexAllowed.symm, h.afterMember.symm, h.braces.symm⟩

theorem SameMode.trans {l m n : Lexer} (h : SameMode l m) (h' : SameMode m n) : SameMode l n :=
  ⟨h'.owed.trans h.owed, h'.regexAllowed.trans h.regexAllowed, h'.afterMember.trans h.afterMember,
    h'.braces.trans h.braces⟩

theorem SameMode.after {l m : Lexer} (h : SameMode l m) (kind : TokenKind) :
    SameMode (l.after kind) (m.after kind) :=
  ⟨h.owed, rfl, rfl, h.braces⟩

/-- Two states of the lexer in front of a joint. -/
structure Alike (s s' : List Char) (l m : Lexer) : Prop extends SameMode l m where
  rest : ∃ v, l.rest = v ++ s ∧ m.rest = v ++ s'

variable {l l' m : Lexer} {k : TokenKind}

theorem Alike.advance (h : Alike s s' l m) {x x' : Scan} (hx : Scan.Alike s s' x x') :
    Alike s s' (l.advance x) (m.advance x') := by
  obtain ⟨v, hv, rfl⟩ := hx
  exact ⟨⟨h.owed, h.regexAllowed, h.afterMember, h.braces⟩, v, hv, rfl⟩

theorem Alike.withBraces (h : Alike s s' l m) (braces : List Brace) :
    Alike s s' { l with braces := braces } { m with braces := braces } :=
  ⟨⟨h.owed, h.regexAllowed, h.afterMember, rfl⟩, h.rest⟩

theorem Alike.after (h : Alike s s' l m) (kind : TokenKind) :
    Alike s s' (l.after kind) (m.after kind) :=
  ⟨h.toSameMode.after kind, h.rest⟩

theorem readWord_alike (hj : Joint s s') (h : Alike s s' l m) (hread : l.readWord = (.ok k, l'))
    (hs : s <:+ l'.rest) : ∃ m', m.readWord = (.ok k, m') ∧ Alike s s' l' m' := by
  obtain ⟨v, hl, hm⟩ := h.rest
  rw [readWord_eq] at hread
  obtain ⟨hk, rfl⟩ := Prod.mk.inj hread
  have hword : Scan.Alike s s' (scanWord false l.rest) (scanWord false m.rest) := by
    rw [hl, hm]
    exact alike_scanWord hj (hl ▸ hs)
  refine ⟨_, ?_, h.advance hword⟩
  obtain ⟨w, -, hscan⟩ := hword
  rw [readWord_eq, h.afterMember, hscan, hk]

theorem readPrivateName_alike (hj : Joint s s') (h : Alike s s' l m) {c : Char} {u : List Char}
    (hread : l.readPrivateName (c :: (u ++ s)) = (.ok k, l')) (hs : s <:+ l'.rest) :
    ∃ m', m.readPrivateName (c :: (u ++ s')) = (.ok k, m') ∧ Alike s s' l' m' := by
  unfold readPrivateName at hread ⊢
  dsimp only at hread ⊢
  cases htext : (scanWord false (c :: (u ++ s))).text with
  | nil =>
    have hsplit := scanWord_text_append_rest false (c :: (u ++ s))
    rw [htext, List.nil_append] at hsplit
    obtain ⟨v, -, hscan⟩ : Scan.Alike s s' (scanWord false (c :: (u ++ s)))
        (scanWord false (c :: (u ++ s'))) :=
      alike_scanWord hj (u := c :: u) ⟨c :: u, hsplit.symm⟩
    rw [htext] at hread
    obtain ⟨hk, rfl⟩ := Prod.mk.inj hread
    refine ⟨{ m with rest := u ++ s', pos := m.pos + 2, owed := c.utf8Size - 1 }, ?_, ?_⟩
    · rw [hscan, htext, hk]
    · exact ⟨⟨rfl, h.regexAllowed, h.afterMember, h.braces⟩, u, rfl, rfl⟩
  | cons d text =>
    rw [htext] at hread
    dsimp only at hread
    split at hread
    · cases (Prod.mk.inj hread).1
    · rename_i hpast
      obtain ⟨hk, rfl⟩ := Prod.mk.inj hread
      have hword : Scan.Alike s s' (scanWord false (c :: (u ++ s)))
          (scanWord false (c :: (u ++ s'))) := alike_scanWord hj (u := c :: u) hs
      refine ⟨_, ?_, h.advance (hword.cons '#')⟩
      obtain ⟨v, -, hscan⟩ := hword
      rw [hscan, htext, h.afterMember]
      dsimp only
      rw [if_neg hpast, hk]

theorem readTemplate_alike (hj : Joint s s') (h : Alike s s' l m) {opening : Char}
    {closed opened : TokenKind} {u : List Char}
    (hread : l.readTemplate opening (u ++ s) closed opened = (.ok k, l')) (hs : s <:+ l'.rest) :
    ∃ m', m.readTemplate opening (u ++ s') closed opened = (.ok k, m') ∧ Alike s s' l' m' := by
  unfold readTemplate at hread ⊢
  dsimp only at hread ⊢
  cases hend : (scanTemplate (u ++ s)).2 with
  | missing =>
    rw [hend] at hread
    cases (Prod.mk.inj hread).1
  | closed =>
    rw [hend] at hread
    obtain ⟨hk, rfl⟩ := Prod.mk.inj hread
    obtain ⟨halike, hend'⟩ := alike_scanTemplate hj (by simp [hend]) hs
    rw [hend', hend]
    exact ⟨_, by rw [hk], h.advance (halike.cons opening)⟩
  | substitution =>
    rw [hend] at hread
    obtain ⟨hk, rfl⟩ := Prod.mk.inj hread
    obtain ⟨halike, hend'⟩ := alike_scanTemplate hj (by simp [hend]) hs
    rw [hend', hend]
    have hstate := (h.advance (halike.cons opening)).withBraces (.template :: l.braces)
    exact ⟨_, by rw [← hk, ← h.braces]; rfl, hstate⟩

theorem alike_one (c : Char) (u : List Char) :
    Scan.Alike s s' ⟨[c], u ++ s, 0⟩ ⟨[c], u ++ s', 0⟩ :=
  ⟨u, rfl, rfl⟩

theorem readMark_alike (hj : Joint s s') (h : Alike s s' l m) {c : Char} {u : List Char}
    (hl : l.rest = c :: u ++ s) (hm : m.rest = c :: u ++ s')
    (hread : l.readMark = (.ok k, l')) :
    ∃ m', m.readMark = (.ok k, m') ∧ Alike s s' l' m' := by
  unfold readMark at hread ⊢
  rw [hl] at hread
  rw [hm]
  rcases alike_scanPunct hj (c :: u) with ⟨hnone, hnone'⟩ | ⟨mark, x, x', hx, hx', halike⟩
  · rw [hnone] at hread
    rw [hnone']
    obtain ⟨hk, rfl⟩ := Prod.mk.inj hread
    exact ⟨m.advance ⟨[c], u ++ s', 0⟩, by rw [← hk]; rfl, h.advance (alike_one c u)⟩
  · rw [hx] at hread
    rw [hx']
    obtain ⟨hk, rfl⟩ := Prod.mk.inj hread
    exact ⟨_, by rw [← hk], h.advance halike⟩

theorem readClosing_alike (hj : Joint s s') (h : Alike s s' l m) {c : Char} {u : List Char}
    (hread : l.readClosing c (u ++ s) = (.ok k, l')) (hs : s <:+ l'.rest) :
    ∃ m', m.readClosing c (u ++ s') = (.ok k, m') ∧ Alike s s' l' m' := by
  unfold readClosing at hread ⊢
  rw [h.braces]
  match hbraces : l.braces with
  | .template :: braces =>
    rw [hbraces] at hread
    exact readTemplate_alike hj (h.withBraces braces) hread hs
  | [] =>
    rw [hbraces] at hread
    obtain ⟨hk, rfl⟩ := Prod.mk.inj hread
    rw [hk]
    exact ⟨_, rfl, (h.advance (alike_one c u)).withBraces []⟩
  | .block :: braces =>
    rw [hbraces] at hread
    obtain ⟨hk, rfl⟩ := Prod.mk.inj hread
    rw [hk]
    exact ⟨_, rfl, (h.advance (alike_one c u)).withBraces braces⟩

/-- Nothing but the end of the input is read behind the joint. -/
theorem joint_of_read (hj : Joint s s') (hl : l.rest = s) (howed : l.owed = 0)
    (hspace : ∀ c ∈ l.rest.head?, isUnicodeSpace c = false) (hread : l.read = (.ok k, l'))
    (hs : s <:+ l'.rest) : s = [] ∧ s' = [] := by
  cases hj with
  | nil => exact ⟨rfl, rfl⟩
  | @quote q r r' hq =>
    have hreads := reads_of_read hread
    have hk : k ≠ .eof := by
      rintro rfl
      cases hreads with
      | eof hrest => cases hl.symm.trans hrest
    obtain ⟨text, past, hne, hb⟩ := hreads.between hk howed hspace
    have hlength := congrArg List.length (hl.symm.trans hb.rest)
    rw [List.length_append] at hlength
    have hle := hs.length_le
    exact absurd (List.length_eq_zero_iff.1 (by omega)) hne

/-- A token in front of a joint is read the same way. -/
theorem read_alike (hj : Joint s s') (h : Alike s s' l m) (howed : l.owed = 0)
    (hspace : ∀ c ∈ l.rest.head?, isUnicodeSpace c = false) (hread : l.read = (.ok k, l'))
    (hs : s <:+ l'.rest) : ∃ m', m.read = (.ok k, m') ∧ Alike s s' l' m' := by
  obtain ⟨v, hl, hm⟩ := h.rest
  cases v with
  | nil =>
    obtain ⟨rfl, rfl⟩ := joint_of_read hj hl howed hspace hread hs
    unfold read at hread ⊢
    rw [hl] at hread
    rw [hm, h.braces]
    dsimp only [List.nil_append] at hread ⊢
    split at hread
    · cases (Prod.mk.inj hread).1
    · rename_i hopen
      obtain ⟨hk, rfl⟩ := Prod.mk.inj hread
      rw [if_neg hopen, hk]
      exact ⟨m, rfl, h⟩
  | cons c u =>
    have hstarts : m.starts c (u ++ s') = l.starts c (u ++ s) := by
      unfold starts
      rw [hj.head? u, h.regexAllowed]
    obtain ⟨start, hstart, htells, hfrom⟩ := exists_start (l := l) (r := u ++ s) hl
    rw [hfrom] at hread
    have hfrom' : m.read = m.readFrom c (u ++ s') start := by
      rw [← hstart, ← hstarts]
      exact read_cons hm
    rw [hfrom']
    cases start with
    | word => exact readWord_alike hj h hread hs
    | number =>
      obtain ⟨hk, rfl⟩ := Prod.mk.inj hread
      rw [← hk]
      exact ⟨_, rfl, h.advance (alike_scanNumber hj (c :: u))⟩
    | string =>
      dsimp only [readFrom] at hread ⊢
      obtain ⟨hk, rfl⟩ := Prod.mk.inj hread
      split at hk
      · rename_i hclosed
        have hquote : c ≠ '\\' := by
          rintro rfl
          rcases htells with h | h <;> cases h
        obtain ⟨halike, hclosed'⟩ := alike_scanString hj hquote hclosed hs
        exact ⟨_, by rw [if_pos hclosed', hk], h.advance (halike.cons c)⟩
      · cases hk
    | template => exact readTemplate_alike hj h hread hs
    | privateName =>
      obtain ⟨rfl, hword⟩ := htells
      cases u with
      | nil =>
        cases hj with
        | nil => cases hword
        | quote hq => rcases eq_of_isQuote hq with rfl | rfl | rfl <;> cases hword
      | cons d u => exact readPrivateName_alike hj h hread hs
    | regex =>
      dsimp only [readFrom] at hread ⊢
      obtain ⟨hk, rfl⟩ := Prod.mk.inj hread
      split at hk
      · rename_i hclosed
        obtain ⟨halike, hclosed'⟩ := alike_scanRegex hj hclosed hs
        exact ⟨_, by rw [if_pos hclosed', hk], h.advance (halike.cons c)⟩
      · cases hk
    | openBrace =>
      obtain ⟨hk, rfl⟩ := Prod.mk.inj hread
      dsimp only [readFrom]
      rw [h.braces, hk]
      exact ⟨_, rfl, (h.advance (alike_one c u)).withBraces (.block :: l.braces)⟩
    | closeBrace => exact readClosing_alike hj h hread hs
    | mark => exact readMark_alike hj h hl hm hread

/-! ## Calls in front of a joint -/

variable {t : Token}

/-- What is read is taken from the front of the input. -/
theorem rest_suffix_of_read (howed : l.owed = 0)
    (hspace : ∀ c ∈ l.rest.head?, isUnicodeSpace c = false) (hread : l.read = (.ok k, l')) :
    l'.rest <:+ l.rest := by
  have hreads := reads_of_read hread
  by_cases hk : k = .eof
  · subst hk
    cases hreads with
    | eof => exact List.suffix_rfl
  · obtain ⟨text, past, -, hb⟩ := hreads.between hk howed hspace
    exact ⟨text, hb.rest.symm⟩

/-- Skipping leads from in front of a joint to in front of it. -/
theorem Alike.skip (hj : Joint s s') (h : Alike s s' l m)
    (hclosed : (trivia l.pos l.rest).unclosed = none) (hs : s <:+ l.skip.rest) :
    (trivia m.pos m.rest).unclosed = none ∧ Alike s s' l.skip m.skip := by
  obtain ⟨u, hl, hm⟩ := h.rest
  obtain ⟨v, hv, hv', hclosed'⟩ := trivia_swap hj (hl ▸ hclosed) (hl ▸ hs) m.pos
  rw [← hl] at hv
  rw [← hm] at hv' hclosed'
  exact ⟨hclosed', ⟨h.owed, h.regexAllowed, h.afterMember, h.braces⟩, v, hv, hv'⟩

/-- A call that gives a token in front of a joint gives one of the same kind. -/
theorem step_alike (hj : Joint s s') (h : Alike s s' l m) (hnext : l.step = (.ok t, l'))
    (hs : s <:+ l'.rest) :
    ∃ t' m', m.step = (.ok t', m') ∧ t'.kind = t.kind ∧ Alike s s' l' m' := by
  by_cases howed : 0 < l.owed
  · have howed' : 0 < m.owed := by rw [h.owed]; exact howed
    unfold step at hnext ⊢
    rw [if_pos howed] at hnext
    rw [if_pos howed']
    obtain ⟨ht, rfl⟩ := Prod.mk.inj hnext
    obtain rfl := Except.ok.inj ht
    have howedEq : m.owed - 1 = l.owed - 1 := by rw [h.owed]
    exact ⟨_, _, rfl, rfl, ⟨howedEq, rfl, rfl, h.braces⟩, h.rest⟩
  · have hzero : l.owed = 0 := by omega
    obtain ⟨hclosed, l'', hread, -, rfl⟩ := read_of_step hzero hnext
    have hspace := skip_rest_head hclosed
    have hs' : s <:+ l''.rest := by
      split at hs <;> exact hs
    obtain ⟨hclosed', hskip⟩ := h.skip hj hclosed
      (hs'.trans (rest_suffix_of_read hzero hspace hread))
    obtain ⟨m'', hread', halike⟩ := read_alike hj hskip hzero hspace hread hs'
    refine ⟨_, _, step_of_read (h.owed.trans hzero) hclosed' hread', rfl, ?_⟩
    split
    · exact halike
    · exact halike.after t.kind

end Lexer

end EsModules
