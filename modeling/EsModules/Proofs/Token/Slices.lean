import EsModules.Proofs.Token.Gaps
import EsModules.Proofs.Token.Reserved

/-!
# Cutting tokens out of the source

A token can be cut out of its source if its span lies between two characters.  Two things stand in
the way: a word with an escape that is never closed goes on behind the end of the source, and a
number sign in front of a space outside ASCII takes the first byte of the space with it.

* `OpenEscape`: a text that starts with a word that is never closed (`scanWord_past_iff`).
* `Lexer.Calls`, `Lexer.tokens_eq_error_iff`: an error is met behind some calls.
* `Lexer.MeetsOpenEscape`: the lexer comes to such a word where it needs the text of it.
* `Lexer.Gives.slices`: which tokens can be cut out.
* `tokenize_slices`: when the lexer overruns, and which spans can be cut out when it does not.
-/

namespace EsModules

variable {source : List Char} {t : Token}

/-! ## Words that are never closed -/

/-- A text that goes on as a word up to an escape in braces that is never closed. -/
def OpenEscape (input : List Char) : Prop :=
  ∃ word tail, input = word ++ '\\' :: 'u' :: '\x7b' :: tail ∧ scanWord false word = ⟨word, [], 0⟩ ∧
    '\x7d' ∉ tail

theorem Scan.cons_eq_iff {c : Char} {x : Scan} {text rest : List Char} {past : Nat} :
    x.cons c = ⟨c :: text, rest, past⟩ ↔ x = ⟨text, rest, past⟩ := by
  obtain ⟨text', rest', past'⟩ := x
  simp [Scan.cons]

/-- A word in front of an escape that is never closed goes on to the end of the input. -/
theorem past_of_openEscape {b : Bool} {word tail : List Char}
    (hword : scanWord b word = ⟨word, [], 0⟩) (htail : '\x7d' ∉ tail) :
    (scanWord b (word ++ '\\' :: 'u' :: '\x7b' :: tail)).past = 1 := by
  have hopen : ∀ tail, '\x7d' ∉ tail → (scanWord true tail).past = 1 := by
    intro tail htail
    induction tail with
    | nil => rfl
    | cons c tail ih =>
      simp only [List.mem_cons, not_or] at htail
      rw [scanWord, bne_iff_ne.2 (Ne.symm htail.1)]
      exact ih htail.2
  fun_induction scanWord b word with
  | case1 => cases hword
  | case2 c r ih =>
    show (scanWord true (c :: (r ++ _))).past = 1
    rw [scanWord]
    exact ih (Scan.cons_eq_iff.1 hword)
  | case3 r ih =>
    have hinner : scanWord true r = ⟨r, [], 0⟩ := by
      rw [Scan.mk.injEq]
      simpa [Scan.prepend] using hword
    show (scanWord false ('\\' :: 'u' :: '\x7b' :: (r ++ _))).past = 1
    rw [scanWord]
    exact ih hinner
  | case4 c r hnot hpart ih =>
    show (scanWord false (c :: (r ++ _))).past = 1
    rw [scanWord, if_pos hpart]
    · exact ih (Scan.cons_eq_iff.1 hword)
    · -- what follows the word does not complete an escape in it
      intro r' hc hr
      rcases r with _ | ⟨d, _ | ⟨e, r⟩⟩
      · simp at hr
      · simp at hr
      · obtain ⟨rfl, rfl, -⟩ : d = 'u' ∧ e = '\x7b' ∧ _ := by simpa using hr
        exact hnot r hc rfl
  | case5 => cases hword
  | case6 => exact hopen tail htail

/-- A word that goes on to the end of the input has an escape that is never closed. -/
theorem openEscape_of_past {b : Bool} {input : List Char} (h : (scanWord b input).past ≠ 0) :
    b = true ∧ '\x7d' ∉ input ∨ ∃ word tail, input = word ++ '\\' :: 'u' :: '\x7b' :: tail ∧
      scanWord b word = ⟨word, [], 0⟩ ∧ '\x7d' ∉ tail := by
  fun_induction scanWord b input with
  | case1 => exact .inl ⟨rfl, List.not_mem_nil⟩
  | case2 c r ih =>
    rcases ih h with ⟨hc, hr⟩ | ⟨word, tail, rfl, hword, htail⟩
    · refine .inl ⟨rfl, ?_⟩
      rw [List.mem_cons, not_or]
      exact ⟨Ne.symm (bne_iff_ne.1 hc), hr⟩
    · refine .inr ⟨c :: word, tail, rfl, ?_, htail⟩
      rw [scanWord, hword]
      rfl
  | case3 r ih =>
    rcases ih h with ⟨-, hr⟩ | ⟨word, tail, rfl, hword, htail⟩
    · exact .inr ⟨[], r, rfl, rfl, hr⟩
    · refine .inr ⟨'\\' :: 'u' :: '\x7b' :: word, tail, rfl, ?_, htail⟩
      rw [scanWord, hword]
      rfl
  | case4 c r hnot hpart ih =>
    rcases ih h with ⟨hb, -⟩ | ⟨word, tail, rfl, hword, htail⟩
    · cases hb
    · refine .inr ⟨c :: word, tail, rfl, ?_, htail⟩
      rw [scanWord, if_pos hpart, hword]
      · rfl
      · rintro r' hc rfl
        exact hnot _ hc rfl
  | case5 => exact absurd rfl h
  | case6 => exact absurd rfl h

/-- A word goes on behind the end of its input exactly when it has an escape that is never
closed. -/
theorem scanWord_past_iff (input : List Char) :
    (scanWord false input).past ≠ 0 ↔ OpenEscape input := by
  constructor
  · intro h
    exact (openEscape_of_past h).resolve_left fun hb => nomatch hb.1
  · rintro ⟨word, tail, rfl, hword, htail⟩
    rw [past_of_openEscape hword htail]
    exact Nat.one_ne_zero

/-! ## Where the lexer overruns -/

namespace Lexer

variable {l l' : Lexer} {e : LexError}

/-- Calls that give the listed tokens, and the lexer behind them. -/
inductive Calls : Lexer → List Token → Lexer → Prop
  | none {l : Lexer} : Calls l [] l
  | call {l l' l'' : Lexer} {t : Token} {ts : List Token} : l.next = (.ok t, l') →
      t.kind ≠ .eof → Calls l' ts l'' → Calls l (t :: ts) l''

/-- The error of a source is the one that its calls come to. -/
theorem tokens_eq_error_iff :
    l.tokens = .error e ↔ ∃ ts l', Calls l ts l' ∧ l'.next.1 = .error e := by
  constructor
  · intro h
    fun_induction tokens l with
    | case1 l e' l' hnext =>
      obtain rfl := Except.error.inj h
      exact ⟨[], l, .none, by rw [hnext]⟩
    | case2 l t l' hnext hk => cases h
    | case3 l t l' hnext hk ih =>
      obtain ⟨ts, l'', hcalls, herror⟩ := ih (map_eq_error.1 h)
      exact ⟨t :: ts, l'', .call hnext hk hcalls, herror⟩
  · rintro ⟨ts, l', hcalls, herror⟩
    induction hcalls with
    | @none l =>
      rw [tokens_eq]
      generalize l.next = called at herror
      obtain ⟨result, l'⟩ := called
      obtain rfl : result = .error e := herror
      rfl
    | call hnext hk _ ih =>
      rw [tokens_eq, hnext]
      dsimp only
      rw [if_neg hk, ih herror]
      rfl

/-- Where the lexer needs the text of a word, it comes to one with an escape that is never closed:
a word or a private name that does not follow a point. -/
def MeetsOpenEscape (l : Lexer) : Prop :=
  l.afterMember = false ∧ ∃ c r, isWordStart c = true ∧ OpenEscape (c :: r) ∧
    (l.rest = c :: r ∨ l.rest = '#' :: c :: r)

theorem readWord_eq_overrun_iff :
    l.readWord.1 = .error .overrun ↔ l.afterMember = false ∧ OpenEscape l.rest := by
  rw [readWord_eq, ← scanWord_past_iff]
  dsimp only
  cases l.afterMember with
  | true => simp
  | false =>
    by_cases hpast : (scanWord false l.rest).past > 0
    · simp [hpast, Nat.ne_of_gt hpast]
    · simp only [Bool.false_eq_true, if_false, if_neg hpast]
      split <;> simp <;> omega

theorem readPrivateName_eq_overrun_iff {c : Char} {r : List Char} :
    (l.readPrivateName (c :: r)).1 = .error .overrun ↔
      l.afterMember = false ∧ OpenEscape (c :: r) := by
  rw [← scanWord_past_iff]
  unfold readPrivateName
  dsimp only
  split
  · rename_i c' r' htext heq
    have hpast : (scanWord false (c :: r)).past = 0 := by
      refine (scanWord_past false (c :: r)).resolve_right fun h => ?_
      have hsplit := scanWord_text_append_rest false (c :: r)
      rw [htext, h.2] at hsplit
      cases hsplit
    simp [hpast]
  · cases l.afterMember with
    | true => simp
    | false =>
      by_cases hpast : (scanWord false (c :: r)).past = 0
      · simp [hpast]
      · simp [hpast, Nat.pos_of_ne_zero hpast]

theorem readTemplate_ne_overrun {opening : Char} {input : List Char} {closed opened : TokenKind} :
    (l.readTemplate opening input closed opened).1 ≠ .error .overrun := by
  unfold readTemplate
  dsimp only
  split <;> simp

theorem readMark_ne_overrun : l.readMark.1 ≠ .error .overrun := by
  unfold readMark
  split <;> simp

/-- Where neither a word nor a private name starts, the lexer comes to no open escape. -/
theorem not_meetsOpenEscape {c : Char} {r : List Char} (hl : l.rest = c :: r)
    (hword : isWordStart c = false)
    (hsharp : c = '#' → (r.head?.map isWordStart).getD false = false) :
    ¬ l.MeetsOpenEscape := by
  rintro ⟨-, c', r', hc', -, heq | heq⟩
  · obtain ⟨rfl, -⟩ := List.cons.inj (hl.symm.trans heq)
    rw [hword] at hc'
    cases hc'
  · obtain ⟨rfl, rfl⟩ := List.cons.inj (hl.symm.trans heq)
    have hhead : isWordStart c' = false := hsharp rfl
    rw [hhead] at hc'
    cases hc'

/-- Reading overruns exactly where the lexer comes to an escape that is never closed. -/
theorem read_eq_overrun_iff : l.read.1 = .error .overrun ↔ l.MeetsOpenEscape := by
  cases hl : l.rest with
  | nil =>
    unfold MeetsOpenEscape read
    rw [hl]
    dsimp only
    split <;> simp
  | cons c r =>
    obtain ⟨start, -, htells, hread⟩ := exists_start hl
    rw [hread]
    cases start with
    | word =>
      refine readWord_eq_overrun_iff.trans (and_congr_right fun _ => ?_)
      rw [hl]
      refine ⟨fun h => ⟨c, r, htells, h, .inl rfl⟩, ?_⟩
      rintro ⟨c', r', hc', hword, heq | heq⟩
      · exact heq ▸ hword
      · obtain ⟨rfl, -⟩ := List.cons.inj heq
        cases htells
    | number =>
      refine iff_of_false (by simp [readFrom]) (not_meetsOpenEscape hl htells.1 ?_)
      rintro rfl
      rcases htells.2 with h | h <;> cases h
    | string =>
      refine iff_of_false ?_ (not_meetsOpenEscape hl ?_ ?_)
      · unfold readFrom
        dsimp only
        split <;> simp
      · rcases htells with rfl | rfl <;> rfl
      · rintro rfl
        rcases htells with h | h <;> cases h
    | template =>
      obtain rfl : c = '\x60' := htells
      exact iff_of_false readTemplate_ne_overrun (not_meetsOpenEscape hl rfl nofun)
    | privateName =>
      obtain ⟨rfl, hhead⟩ := htells
      cases r with
      | nil => cases hhead
      | cons d r =>
        refine readPrivateName_eq_overrun_iff.trans (and_congr_right fun _ => ?_)
        rw [hl]
        refine ⟨fun h => ⟨d, r, hhead, h, .inr rfl⟩, ?_⟩
        rintro ⟨c', r', hc', hword, heq | heq⟩
        · obtain ⟨rfl, -⟩ := List.cons.inj heq
          cases hc'
        · exact (List.cons.inj heq).2 ▸ hword
    | regex =>
      obtain ⟨rfl, -⟩ := htells
      refine iff_of_false ?_ (not_meetsOpenEscape hl rfl nofun)
      unfold readFrom
      dsimp only
      split <;> simp
    | openBrace =>
      obtain rfl : c = '\x7b' := htells
      exact iff_of_false (by simp [readFrom]) (not_meetsOpenEscape hl rfl nofun)
    | closeBrace =>
      obtain rfl : c = '\x7d' := htells
      refine iff_of_false ?_ (not_meetsOpenEscape hl rfl nofun)
      change (l.readClosing '\x7d' r).1 ≠ .error .overrun
      unfold readClosing
      split
      · exact readTemplate_ne_overrun
      · simp
    | mark => exact iff_of_false readMark_ne_overrun (not_meetsOpenEscape hl htells.1 htells.2)

/-- A call overruns exactly where, behind spaces and comments, the lexer comes to an escape that is
never closed. -/
theorem step_eq_overrun_iff : l.step.1 = .error .overrun ↔
    l.owed = 0 ∧ (trivia l.pos l.rest).unclosed = none ∧ l.skip.MeetsOpenEscape := by
  rw [← read_eq_overrun_iff]
  by_cases howed : l.owed = 0
  · cases hclosed : (trivia l.pos l.rest).unclosed with
    | some offset =>
      simp [step, howed, hclosed]
    | none =>
      cases hread : l.skip.read with
      | mk result l' =>
        cases result with
        | ok k => simp [step_of_read howed hclosed hread]
        | error e =>
          have hnext : l.step = (.error e, l') := by
            unfold skip at hread
            unfold step
            rw [if_neg (by omega)]
            dsimp only at hread ⊢
            rw [hclosed]
            dsimp only
            rw [hread]
          simp [hnext, howed]
  · simp [step, howed, Nat.pos_of_ne_zero howed]

theorem next_eq_overrun_iff : l.next.1 = .error .overrun ↔
    l.owed = 0 ∧ (trivia l.pos l.rest).unclosed = none ∧ l.skip.MeetsOpenEscape := by
  rw [← step_eq_overrun_iff]
  unfold next
  split
  · rename_i hstep
    simp [hstep]
  · rename_i e l' hstep
    cases e <;> simp [hstep, LexError.wrapped]

/-- Calls lead from one place to another. -/
theorem Calls.stands {ts : List Token} (h : Calls l ts l') (hplace : Stands source l) :
    Stands source l' := by
  induction h with
  | none => exact hplace
  | call hnext hk _ ih =>
    obtain ⟨t, hstep, rfl⟩ := next_eq_ok.1 hnext
    exact ih ((gives_of_step hstep).tiles hk hplace).1

/-- What an escape that is never closed goes on with holds no closing brace. -/
theorem MeetsOpenEscape.exists_open (h : l.MeetsOpenEscape) :
    ∃ a b, l.rest = a ++ '\x7b' :: b ∧ '\x7d' ∉ b := by
  obtain ⟨-, c, r, -, ⟨word, tail, hr, -, htail⟩, hrest | hrest⟩ := h
  · exact ⟨word ++ ['\\', 'u'], tail, by rw [hrest, hr]; simp, htail⟩
  · exact ⟨'#' :: (word ++ ['\\', 'u']), tail, by rw [hrest, hr]; simp, htail⟩

end Lexer

/-- The lexer does not overrun where every opening brace has a closing one behind it. -/
theorem tokenize_ne_overrun (h : ∀ a b, source = a ++ '\x7b' :: b → '\x7d' ∈ b) :
    tokenize source ≠ .error .overrun := by
  intro herror
  obtain ⟨ts, l, hcalls, hnext⟩ := Lexer.tokens_eq_error_iff.1 herror
  obtain ⟨howed, hclosed, hmeets⟩ := Lexer.next_eq_overrun_iff.1 hnext
  obtain ⟨gap, hs, hpos, -, hzero⟩ := Lexer.start_gap source
  have hplace := (hcalls.stands (.between gap hs hpos hzero)).skip_tiles howed hclosed
  obtain ⟨a, b, hrest, hb⟩ := hmeets.exists_open
  cases hplace.1 with
  | between taken hsource _ _ =>
    rw [hrest, ← List.append_assoc] at hsource
    exact hb (h _ _ hsource)
  | inside _ _ _ _ _ howes => exact absurd howed (Nat.ne_of_gt howes)
  | beyond hnil _ _ =>
    rw [hrest] at hnil
    simp at hnil

/-! ## Which spans can be cut out -/

/-- A span lies between two characters of a source, so that its text can be cut out. -/
def Span.Sliceable (source : List Char) (s : Span) : Prop := ∃ text, s.Covers source text

/-- A property name or a private name behind a point goes on behind the end of the source, since it
has an escape that is never closed. -/
def Overhangs (source : List Char) (member : Bool) (t : Token) : Prop :=
  member = true ∧ ∃ front word, OpenEscape word ∧
    (source = front ++ word ∧ t.kind = .identifier ∨
      source = front ++ '#' :: word ∧ t.kind = .privateName) ∧
    t.span = ⟨Text.byteLength front, Text.byteLength source + 1⟩

/-- A token takes a part of a space behind a number sign: its first byte together with the sign, or
one of the bytes behind that. -/
def CutsSpace (source : List Char) (t : Token) : Prop :=
  ∃ front c back, source = front ++ '#' :: c :: back ∧ isUnicodeSpace c = true ∧
    (t = ⟨.privateName, ⟨Text.byteLength front, Text.byteLength front + 2⟩⟩ ∨
      ∃ i, Text.byteLength front + 2 ≤ i ∧ i < Text.byteLength front + 1 + c.utf8Size ∧
        t = ⟨.unknown, ⟨i, i + 1⟩⟩)

theorem utf8Size_of_isUnicodeSpace {c : Char} (h : isUnicodeSpace c = true) : 1 < c.utf8Size := by
  have hcode : 0x80 ≤ c.toNat := by
    simp only [isUnicodeSpace, Bool.or_eq_true, Bool.and_eq_true, beq_iff_eq,
      decide_eq_true_eq] at h
    omega
  have hne : c.utf8Size ≠ 1 := by
    rw [Ne, Char.utf8Size_eq_one_iff, UInt32.le_iff_toNat_le]
    exact Nat.not_le.2 hcode
  have hpos := c.utf8Size_pos
  omega

theorem not_sliceable_of_overhangs {member : Bool} (h : Overhangs source member t) :
    ¬ t.span.Sliceable source := by
  rintro ⟨text, front, back, hs, -, hstop⟩
  obtain ⟨-, before, word, -, -, hspan⟩ := h
  have hsize := congrArg Text.byteLength hs
  simp only [Text.byteLength_append] at hsize
  simp only [hspan] at hstop
  omega

theorem not_sliceable_of_cutsSpace (h : CutsSpace source t) : ¬ t.span.Sliceable source := by
  rintro ⟨text, before, behind, hcut, hstart, hstop⟩
  obtain ⟨front, c, back, hs, hc, hplace⟩ := h
  have hsize := utf8Size_of_isUnicodeSpace hc
  have hs' : source = (front ++ ['#']) ++ c :: back := by
    rw [hs]
    simp
  have hsharp : Text.byteLength (front ++ ['#']) = Text.byteLength front + 1 := by
    rw [Text.byteLength_append]
    rfl
  rcases hplace with rfl | ⟨i, hfront, hback, rfl⟩
  · -- the private name ends within the space
    rw [← List.append_assoc] at hcut
    dsimp only at hstop
    rw [← Text.byteLength_append] at hstop
    exact Text.not_inside hs' hcut (by omega) (by omega)
  · -- each of the other tokens starts within the space
    dsimp only at hstart
    exact Text.not_inside hs' hcut (by omega) (by omega)

namespace Lexer

variable {l l' : Lexer} {k : TokenKind}

/-- A scan that takes nothing where a word may start stands in front of a space. -/
theorem isUnicodeSpace_of_text_nil {c : Char} {r : List Char} (hc : isWordStart c = true)
    (h : (scanWord false (c :: r)).text = []) : isUnicodeSpace c = true := by
  cases hspace : isUnicodeSpace c with
  | true => rfl
  | false => exact absurd h (scanWord_text_ne_nil hc hspace)

/-- What is read at a place can be cut out, goes on behind the end, or cuts a space. -/
theorem Reads.slices {front : List Char} (h : Reads l k l') (hk : k ≠ .eof)
    (hs : source = front ++ l.rest) (hpos : l.pos = Text.byteLength front) :
    Span.Sliceable source ⟨l.pos, l'.pos⟩ ∨
      Overhangs source l.afterMember ⟨k, ⟨l.pos, l'.pos⟩⟩ ∨
      CutsSpace source ⟨k, ⟨l.pos, l'.pos⟩⟩ := by
  have whole {x : Scan} (hsplit : x.text ++ x.rest = l.rest) (hpast : x.past = 0) :
      Span.Sliceable source ⟨l.pos, (l.advance x).pos⟩ :=
    ⟨_, covers_advance hs hpos hsplit hpast⟩
  have behind {c : Char} {r : List Char} {x : Scan} (hl : l.rest = c :: r)
      (hsplit : x.text ++ x.rest = r) (hpast : x.past = 0) :
      Span.Sliceable source ⟨l.pos, (l.advance (x.cons c)).pos⟩ :=
    whole (by simp [Scan.cons, hl, hsplit]) hpast
  have single {c : Char} {r : List Char} (hl : l.rest = c :: r) :
      Span.Sliceable source ⟨l.pos, (l.advance ⟨[c], r, 0⟩).pos⟩ :=
    whole (by simp [hl]) rfl
  -- a scan that goes on behind its input takes all of it
  have beyond {x : Scan} (hsplit : x.text ++ x.rest = l.rest) (hpast : x.past = 1)
      (hrest : x.rest = []) : (l.advance x).pos = Text.byteLength source + 1 := by
    rw [hrest, List.append_nil] at hsplit
    rw [hs, Text.byteLength_append, ← hsplit, ← hpos]
    simp only [advance, Scan.width, hpast]
    omega
  cases h with
  | eof => exact absurd rfl hk
  | property hl hc hm =>
    have hsplit := scanWord_text_append_rest false l.rest
    rcases scanWord_past false l.rest with hpast | ⟨hpast, hrest⟩
    · exact .inl (whole hsplit hpast)
    · have hopen := (scanWord_past_iff l.rest).1 (by omega)
      refine .inr (.inl ⟨hm, front, l.rest, hopen, .inl ⟨hs, rfl⟩, ?_⟩)
      rw [beyond hsplit hpast hrest, hpos]
  | keyword hl hc hm hpast hw => exact .inl (whole (scanWord_text_append_rest _ _) hpast)
  | name hl hc hm hpast hw => exact .inl (whole (scanWord_text_append_rest _ _) hpast)
  | number hl hc => exact .inl (whole (scanNumber_text_append_rest _) (scanNumber_past _))
  | string hl hq hclosed =>
    exact .inl (behind hl (scanString_text_append_rest _ _) (scanString_past _ _))
  | template hl hend =>
    exact .inl (behind hl (scanTemplate_text_append_rest _) (scanTemplate_past _))
  | templateHead hl hend =>
    exact .inl (behind hl (scanTemplate_text_append_rest _) (scanTemplate_past _))
  | @privateName c r hl hc hne hcalm =>
    have hsplit := scanWord_text_append_rest false (c :: r)
    rcases scanWord_past false (c :: r) with hpast | ⟨hpast, hrest⟩
    · exact .inl (behind hl hsplit hpast)
    · have hopen := (scanWord_past_iff (c :: r)).1 (by omega)
      have hm : l.afterMember = true := by
        cases hm : l.afterMember with
        | true => rfl
        | false =>
          have hzero := hcalm hm
          omega
      refine .inr (.inl ⟨hm, front, c :: r, hopen, .inr ⟨hs.trans (by rw [hl]), rfl⟩, ?_⟩)
      have hend := beyond (x := (scanWord false (c :: r)).cons '#')
        (by simp [Scan.cons, hl, hsplit]) hpast hrest
      rw [hend, hpos]
  | @splitName c r hl hc htext =>
    have hspace := isUnicodeSpace_of_text_nil hc htext
    refine .inr (.inr ⟨front, c, r, hs.trans (by rw [hl]), hspace, .inl ?_⟩)
    rw [hpos]
  | regex hl ha hclosed =>
    exact .inl (behind hl (scanRegex_text_append_rest _) (scanRegex_past _ hclosed))
  | openBrace hl => exact .inl (single hl)
  | templateTail hl hb hend =>
    exact .inl (behind hl (scanTemplate_text_append_rest _) (scanTemplate_past _))
  | templateMiddle hl hb hend =>
    exact .inl (behind hl (scanTemplate_text_append_rest _) (scanTemplate_past _))
  | closeBrace hl hb => exact .inl (single hl)
  | punct hmark =>
    obtain ⟨-, -, -, hsplit, hpast⟩ := scanPunct_eq_some hmark
    exact .inl (whole hsplit hpast)
  | unknown hl hc hmark => exact .inl (single hl)

/-! ## Calls and runs -/

/-- The bytes that are still owed are the last ones of a space behind a number sign. -/
def Owes (source : List Char) (l : Lexer) : Prop :=
  0 < l.owed → ∃ front c, source = front ++ '#' :: c :: l.rest ∧ isUnicodeSpace c = true ∧
    Text.byteLength front + 2 ≤ l.pos ∧ l.pos + l.owed = Text.byteLength front + 1 + c.utf8Size

/-- A call that gives a token owes bytes of a space behind a number sign, or none. -/
theorem Reads.owes {front : List Char} (h : Reads l k l') (howed : l.owed = 0)
    (hs : source = front ++ l.rest) (hpos : l.pos = Text.byteLength front) : Owes source l' := by
  intro hlt
  cases h with
  | @splitName c r hl hc htext =>
    have hspace := isUnicodeSpace_of_text_nil hc htext
    have hsize := c.utf8Size_pos
    exact ⟨front, c, hs.trans (by rw [hl]), hspace, by dsimp only; omega, by dsimp only; omega⟩
  | _ => exact absurd howed (Nat.ne_of_gt hlt)

/-- Every token that is given can be cut out, goes on behind the end, or cuts a space. -/
theorem Gives.slices (h : Gives l t l') (hk : t.kind ≠ .eof) (hplace : Stands source l)
    (howes : Owes source l) :
    (t.span.Sliceable source ∨ Overhangs source l.afterMember t ∨ CutsSpace source t) ∧
      Owes source l' := by
  cases h with
  | owed howed =>
    obtain ⟨front, c, hs, hspace, hstart, hstop⟩ := howes howed
    refine ⟨.inr (.inr ⟨front, c, l.rest, hs, hspace, .inr ⟨l.pos, hstart, by omega, rfl⟩⟩), ?_⟩
    intro hlt
    refine ⟨front, c, hs, hspace, ?_, ?_⟩
    · exact Nat.le_succ_of_le hstart
    · simp only [after] at hlt ⊢
      omega
  | eof => exact absurd rfl hk
  | read howed hclosed _ hreads =>
    obtain ⟨hskip, -⟩ := hplace.skip_tiles howed hclosed
    cases hskip with
    | between front hs hpos _ =>
      exact ⟨hreads.slices hk hs hpos, hreads.owes howed hs hpos⟩
    | inside _ _ _ _ _ hpos => exact absurd hpos (by simp [skip, howed])
    | beyond hrest _ _ =>
      obtain ⟨text, past, hne, hb⟩ := hreads.between hk howed (skip_rest_head hclosed)
      exact absurd (List.append_eq_nil_iff.1 (hb.rest ▸ hrest)).1 hne

theorem Run.slices {ts : List Token} (h : Run l ts l') (hplace : Stands source l)
    (howes : Owes source l) : ∀ front t back, ts = front ++ t :: back →
      t.span.Sliceable source ∨ Overhangs source (followsMember l.afterMember front) t ∨
        CutsSpace source t := by
  induction h with
  | done => exact fun front t back hts => absurd hts.symm (by simp)
  | step hgives hk _ ih =>
    intro front t back hts
    obtain ⟨hslices, howes'⟩ := hgives.slices hk hplace howes
    cases front with
    | nil =>
      obtain ⟨rfl, -⟩ := List.cons.inj hts
      exact hslices
    | cons p front =>
      obtain ⟨rfl, htail⟩ := List.cons.inj hts
      rw [followsMember_cons, ← (hgives.judged hk hplace).2]
      exact ih (hgives.tiles hk hplace).1 howes' front t back htail

/-- The comments of a run can be cut out. -/
theorem Run.sliceable {ts : List Token} (h : Run l ts l') (hplace : Stands source l)
    (hcomments : ∀ s ∈ l.commentPlaces, s.Sliceable source) :
    ∀ s ∈ l'.commentPlaces, s.Sliceable source := by
  refine h.forall_comments (fun front rest hs hclosed => ?_) hplace hcomments
  obtain ⟨gap, blanks, hgap, -, hgaps⟩ := trivia_gap hclosed
  exact hgaps.covers (hs.trans (by rw [← hgap])) rfl

end Lexer

/-! ## Whole sources -/

/-- **Cutting tokens out of a source.**  The lexer overruns exactly when some calls lead it to an
escape that is never closed, in a word that does not follow a point.  Otherwise all comments of a
source of less than 4 GiB can be cut out, and all tokens but those that go on behind the source and
those that cut a space. -/
theorem tokenize_slices (source : List Char) :
    (tokenize source = .error .overrun ↔ ∃ ts l, Lexer.Calls (.start source) ts l ∧ l.owed = 0 ∧
      (Lexer.trivia l.pos l.rest).unclosed = none ∧ l.skip.MeetsOpenEscape) ∧
    ∀ tokens comments, Text.byteLength source < 2 ^ 32 - 1 →
      tokenize source = .ok (tokens, comments) →
      (∀ s ∈ comments, s.Sliceable source) ∧
      ∀ front t back, tokens = front ++ t :: back →
        (t.span.Sliceable source ↔
          ¬ (Overhangs source (followsMember false front) t ∨ CutsSpace source t)) := by
  refine ⟨?_, fun tokens comments hsize h => ⟨?_, fun front t back ht => ?_⟩⟩
  · unfold tokenize
    rw [Lexer.tokens_eq_error_iff]
    simp only [Lexer.next_eq_overrun_iff]
  all_goals
    obtain ⟨l, hrun, rfl⟩ := Lexer.run_of_lexemes ((tokenize_eq_ok_of_lt hsize).1 h)
    obtain ⟨gap, hs, hpos, hgap, howed⟩ := Lexer.start_gap source
    have hplace : Lexer.Stands source (.start source) := .between gap hs hpos howed
  · have hs' : source = [] ++ (gap ++ (Lexer.start source).rest) := hs
    exact hrun.sliceable hplace (hgap.covers hs' rfl)
  · constructor
    · intro hsliceable
      rintro (hoverhangs | hcuts)
      · exact not_sliceable_of_overhangs hoverhangs hsliceable
      · exact not_sliceable_of_cutsSpace hcuts hsliceable
    · intro hnot
      have howes : Lexer.Owes source (.start source) := fun hlt => absurd howed (Nat.ne_of_gt hlt)
      have hslices := hrun.slices hplace howes front t back ht
      rw [Lexer.start_afterMember] at hslices
      exact hslices.resolve_right hnot

/-- Behind a point a word whose escape is never closed is a token that goes on behind the source. -/
theorem tokenize_slices_property :
    tokenize "a.\\u\x7bb".toList =
      .ok ([⟨.identifier, ⟨0, 1⟩⟩, ⟨.punct .dot, ⟨1, 2⟩⟩, ⟨.identifier, ⟨2, 7⟩⟩], []) ∧
    (Span.Sliceable "a.\\u\x7bb".toList ⟨2, 7⟩ ↔
      ¬ (Overhangs "a.\\u\x7bb".toList true ⟨.identifier, ⟨2, 7⟩⟩ ∨
        CutsSpace "a.\\u\x7bb".toList ⟨.identifier, ⟨2, 7⟩⟩)) :=
  have h : tokenize "a.\\u\x7bb".toList =
      .ok ([⟨.identifier, ⟨0, 1⟩⟩, ⟨.punct .dot, ⟨1, 2⟩⟩, ⟨.identifier, ⟨2, 7⟩⟩], []) := by
    decide +kernel
  ⟨h, ((tokenize_slices _).2 _ _ (by decide) h).2
    [⟨.identifier, ⟨0, 1⟩⟩, ⟨.punct .dot, ⟨1, 2⟩⟩] _ [] rfl⟩

/-- Not every source can be cut up and its tokens cut out: the lexer overruns at an escape that is
never closed. -/
theorem tokenize_slices_openEscape :
    ¬ ∀ source : List Char, Text.byteLength source < 2 ^ 32 - 1 →
      tokenize source ≠ .error .overrun ∧
      ∀ tokens comments, tokenize source = .ok (tokens, comments) →
        ∀ s ∈ tokens.map Token.span ++ comments, s.Sliceable source := by
  intro h
  have hoverrun : tokenize "\\u\x7b".toList = .error .overrun := by decide +kernel
  exact (h "\\u\x7b".toList (by decide)).1 hoverrun

end EsModules
