import EsModules.Token.Lexer

/-!
# Runs of the lexer

A run is the sequence of calls that cuts up a whole source.  This file says what one call gives
(`read_of_step`, `step_of_read`) and what all of them give (`lexemes_of_step`), turns
`Lexer.lexemes` into a relation with one case for a call that gives a token and one for the call
that meets the end (`run_of_lexemes`), and says where in its source the lexer stands between two
calls: in front of a character, within the bytes of a space that a number sign has cut up, or one
byte behind the end, where a word with an open escape leaves it.  Taking a text leads from one place
to another (`Stands.read`), so a property of a run is shown by going from place to place.

All of this is about whole offsets.  What the lexer gives out is the same with its places in 32-bit
words (`tokenize_eq_lexemize`).
-/

namespace EsModules

namespace Lexer

section

variable {l l' : Lexer} {k : TokenKind} {t : Token}

/-! ## Calls -/

theorem readWord_eq (l : Lexer) :
    l.readWord =
      (if l.afterMember then .ok .identifier
        else if (scanWord false l.rest).past > 0 then .error .overrun
        else match Keyword.ofSpelling? (scanWord false l.rest).text with
          | some word => .ok (.keyword word)
          | none => .ok .identifier,
        l.advance (scanWord false l.rest)) := by
  unfold readWord
  dsimp only
  split
  · rfl
  · split
    · rfl
    · cases Keyword.ofSpelling? (scanWord false l.rest).text <;> rfl

/-- A call that gives a token and owes no byte has skipped what stands in front of the token and
read it. -/
theorem read_of_step (howed : l.owed = 0) (h : l.step = (.ok t, l')) :
    (trivia l.pos l.rest).unclosed = none ∧ ∃ l'', l.skip.read = (.ok t.kind, l'') ∧
      t.span = ⟨l.skip.pos, l''.pos⟩ ∧ l' = if t.kind = .eof then l'' else l''.after t.kind := by
  unfold step at h
  rw [if_neg (by omega)] at h
  dsimp only at h
  split at h
  · cases (Prod.mk.inj h).1
  · rename_i hclosed
    refine ⟨hclosed, ?_⟩
    split at h
    · cases (Prod.mk.inj h).1
    · rename_i l'' hread
      obtain ⟨ht, rfl⟩ := Prod.mk.inj h
      obtain rfl := Except.ok.inj ht
      exact ⟨l'', hread, rfl, rfl⟩
    · rename_i kind l'' hne hread
      obtain ⟨ht, rfl⟩ := Prod.mk.inj h
      obtain rfl := Except.ok.inj ht
      have hkind : kind ≠ .eof := fun heof => hne (by rw [← heof])
      exact ⟨l'', hread, rfl, (if_neg hkind).symm⟩

theorem step_of_read {l'' : Lexer} (howed : l.owed = 0)
    (hclosed : (trivia l.pos l.rest).unclosed = none) (hread : l.skip.read = (.ok k, l'')) :
    l.step = (.ok ⟨k, ⟨l.skip.pos, l''.pos⟩⟩, if k = .eof then l'' else l''.after k) := by
  unfold skip at hread ⊢
  dsimp only at hread ⊢
  unfold step
  rw [if_neg (by omega)]
  dsimp only
  rw [hclosed]
  dsimp only
  rw [hread]
  cases k <;> rfl

/-- The tokens from here to the end of the input, and all comments, placed by whole offsets. -/
def lexemes (l : Lexer) : Except LexError (List Token × List Span) :=
  match _h : l.step with
  | (.error e, _) => .error e
  | (.ok t, l') =>
    if _hk : t.kind = .eof then .ok ([], l'.commentPlaces)
    else (lexemes l').map fun (ts, cs) => (t :: ts, cs)
termination_by l.remaining
decreasing_by exact step_remaining_lt _h _hk

/-- What the calls give is told by the next one. -/
theorem lexemes_eq (l : Lexer) : l.lexemes = match l.step with
    | (.error e, _) => .error e
    | (.ok t, l') =>
      if t.kind = .eof then .ok ([], l'.commentPlaces)
      else l'.lexemes.map fun (ts, cs) => (t :: ts, cs) := by
  rw [lexemes]
  split
  · rename_i e l' hnext
    rw [hnext]
  · rename_i t l' hnext
    rw [hnext]
    rfl

theorem lexemes_of_step {ts : List Token} {cs : List Span} (h : l.step = (.ok t, l'))
    (hk : t.kind ≠ .eof) (hts : l'.lexemes = .ok (ts, cs)) : l.lexemes = .ok (t :: ts, cs) := by
  rw [lexemes_eq, h]
  dsimp only
  rw [if_neg hk, hts]
  rfl

theorem lexemes_of_step_eof (h : l.step = (.ok t, l')) (hk : t.kind = .eof) :
    l.lexemes = .ok ([], l'.commentPlaces) := by
  rw [lexemes_eq, h]
  exact if_pos hk

/-! ## Places in words -/

/-- What the calls give out is told by the next one. -/
theorem tokens_eq (l : Lexer) : l.tokens = match l.next with
    | (.error e, _) => .error e
    | (.ok t, l') =>
      if t.kind = .eof then .ok ([], l'.comments)
      else l'.tokens.map fun (ts, cs) => (t :: ts, cs) := by
  rw [tokens]
  split
  · rename_i e l' hnext
    rw [hnext]
  · rename_i t l' hnext
    rw [hnext]
    rfl

theorem next_of_step_error {e : LexError} (h : l.step = (.error e, l')) :
    l.next = (.error e.wrapped, l') := by
  unfold next
  rw [h]

/-- The tokens and comments are given out with their places in 32-bit words. -/
theorem tokens_eq_lexemes (l : Lexer) : l.tokens = match l.lexemes with
    | .ok (ts, cs) => .ok (ts.map Token.wrapped, cs.map Span.wrapped)
    | .error e => .error e.wrapped := by
  fun_induction lexemes l with
  | case1 l e l' hstep =>
    rw [tokens_eq, next_of_step_error hstep]
  | case2 l t l' hstep hk =>
    rw [tokens_eq, next_eq_ok.2 ⟨t, hstep, rfl⟩]
    exact if_pos hk
  | case3 l t l' hstep hk ih =>
    rw [tokens_eq, next_eq_ok.2 ⟨t, hstep, rfl⟩]
    dsimp only
    rw [Token.wrapped_kind, if_neg hk, ih]
    cases l'.lexemes <;> rfl

end

/-! ## Runs -/

/-- Calls that give the listed tokens and then the end of the input, and the lexer behind them. -/
inductive Run : Lexer → List Token → Lexer → Prop
  | done {l l' : Lexer} {t : Token} : Gives l t l' → t.kind = .eof → Run l [] l'
  | step {l l' l'' : Lexer} {t : Token} {ts : List Token} : Gives l t l' → t.kind ≠ .eof →
      Run l' ts l'' → Run l (t :: ts) l''

/-- Cutting up the rest of a source is a run, at the end of which all comments are known. -/
theorem run_of_lexemes {l : Lexer} {ts : List Token} {cs : List Span}
    (h : l.lexemes = .ok (ts, cs)) : ∃ l', Run l ts l' ∧ l'.commentPlaces = cs := by
  fun_induction lexemes l generalizing ts cs with
  | case1 l e l' hnext => cases h
  | case2 l t l' hnext hk =>
    obtain ⟨rfl, rfl⟩ := Prod.mk.inj (Except.ok.inj h)
    exact ⟨l', .done (gives_of_step hnext) hk, rfl⟩
  | case3 l t l' hnext hk ih =>
    cases hrest : l'.lexemes with
    | error e =>
      rw [hrest] at h
      cases h
    | ok found =>
      obtain ⟨ts', cs'⟩ := found
      rw [hrest] at h
      obtain ⟨rfl, rfl⟩ := Prod.mk.inj (Except.ok.inj h)
      obtain ⟨l'', hrun, hcs⟩ := ih hrest
      exact ⟨l'', .step (gives_of_step hnext) hk hrun, hcs⟩

/-! ## Places -/

/-- The places of a source at which the lexer can stand between two calls. -/
inductive Stands (source : List Char) (l : Lexer) : Prop
  | between (taken : List Char) : source = taken ++ l.rest → l.pos = Text.byteLength taken →
      l.owed = 0 → Stands source l
  | inside (front : List Char) (c : Char) : source = front ++ c :: l.rest →
      Text.byteLength front < l.pos → l.pos + l.owed = Text.byteLength front + c.utf8Size →
      0 < l.owed → Stands source l
  | beyond : l.rest = [] → l.pos = Text.byteLength source + 1 → l.owed = 0 → Stands source l

variable {source : List Char} {l l' : Lexer}

theorem Stands.pos_le (h : Stands source l) : l.pos ≤ Text.byteLength source + 1 := by
  cases h with
  | between taken hs hp _ =>
    rw [hs, hp, Text.byteLength_append]
    omega
  | inside front c hs _ hp _ =>
    rw [hs]
    simp only [Text.byteLength_append, Text.byteLength_cons]
    omega
  | beyond _ hp _ => omega

/-- At the end of the input the lexer stands at the end of the source or behind it. -/
theorem Stands.byteLength_le (h : Stands source l) (hrest : l.rest = []) (howed : l.owed = 0) :
    Text.byteLength source ≤ l.pos := by
  cases h with
  | between taken hs hp _ =>
    exact Nat.le_of_eq (by rw [hs, hp, hrest, List.append_nil])
  | inside _ _ _ _ _ hpos => omega
  | beyond _ hp _ => omega

/-- What kind of token was read last has no part in where the lexer stands. -/
theorem Stands.after {kind : TokenKind} (h : Stands source l) : Stands source (l.after kind) := by
  cases h with
  | between taken hs hp howed => exact .between taken hs hp howed
  | inside front c hs hlt hp howed => exact .inside front c hs hlt hp howed
  | beyond hrest hp howed => exact .beyond hrest hp howed

/-- Taking a text leads from one place to another. -/
theorem Stands.read {text : List Char} {past : Nat} (h : Stands source l) (howed : l.owed = 0)
    (hb : Between l l' text past) (hne : text ≠ []) : Stands source l' := by
  have hpos := hb.pos
  cases h with
  | inside _ _ _ _ _ hpos => omega
  | beyond hrest _ _ =>
    have hnil := hb.rest.symm.trans hrest
    exact absurd (List.append_eq_nil_iff.1 hnil).1 hne
  | between taken hs hp _ =>
    have hs' : source = (taken ++ text) ++ l'.rest := by rw [hs, hb.rest, List.append_assoc]
    rcases hb.past with hpast | ⟨hpast, hrest, howed'⟩
    · rcases hb.owed with howed' | ⟨front, c, rfl, hlt⟩
      · refine .between (taken ++ text) hs' ?_ howed'
        rw [Text.byteLength_append]
        omega
      · simp only [Text.byteLength_append, Text.byteLength_cons, Text.byteLength_nil] at hpos
        by_cases hzero : l'.owed = 0
        · refine .between _ hs' ?_ hzero
          simp only [Text.byteLength_append, Text.byteLength_cons, Text.byteLength_nil]
          omega
        · refine .inside (taken ++ front) c ?_ ?_ ?_ (by omega)
          · rw [hs']
            simp
          · rw [Text.byteLength_append]
            omega
          · rw [Text.byteLength_append]
            omega
    · refine .beyond hrest ?_ howed'
      rw [hs', hrest, List.append_nil, Text.byteLength_append]
      omega

end Lexer

/-! ## A whole source -/

/-- The tokens and the comments of a source, placed by whole offsets. -/
def lexemize (source : List Char) : Except LexError (List Token × List Span) :=
  (Lexer.start source).lexemes

variable {source : List Char} {ts : List Token} {cs : List Span}

theorem tokenize_eq_lexemize (source : List Char) :
    tokenize source = match lexemize source with
      | .ok (ts, cs) => .ok (ts.map Token.wrapped, cs.map Span.wrapped)
      | .error e => .error e.wrapped :=
  Lexer.tokens_eq_lexemes _

/-- The tokens and comments of a source are given out with their places in 32-bit words. -/
theorem tokenize_eq_ok : tokenize source = .ok (ts, cs) ↔
    ∃ ts' cs', lexemize source = .ok (ts', cs') ∧ ts = ts'.map Token.wrapped ∧
      cs = cs'.map Span.wrapped := by
  rw [tokenize_eq_lexemize]
  cases hl : lexemize source with
  | error e => simp
  | ok found =>
    obtain ⟨ts', cs'⟩ := found
    simp only [Except.ok.injEq, Prod.mk.injEq]
    constructor
    · rintro ⟨rfl, rfl⟩
      exact ⟨ts', cs', ⟨rfl, rfl⟩, rfl, rfl⟩
    · rintro ⟨_, _, ⟨rfl, rfl⟩, rfl, rfl⟩
      exact ⟨rfl, rfl⟩

/-! ## Behind blanks -/

theorem Lexer.trivia_replicate_space (n pos : Nat) (source : List Char) :
    trivia pos (List.replicate n ' ' ++ source) = trivia (pos + n) source := by
  induction n generalizing pos with
  | zero => rfl
  | succ n ih =>
    rw [List.replicate_succ, List.cons_append, trivia, if_pos (by decide), ih]
    · congr 1
      show pos + 1 + n = pos + (n + 1)
      omega
    · rintro r ⟨⟩
    · rintro r ⟨⟩

/-- Blanks in front of a source do not change what is read behind them, only its place. -/
theorem lexemize_replicate_space {n : Nat} (hn : 0 < n) (source : List Char) :
    lexemize (List.replicate n ' ' ++ source) =
      Lexer.lexemes ⟨source, n, 0, true, false, [], []⟩ := by
  have hstart : Lexer.start (List.replicate n ' ' ++ source) =
      ⟨List.replicate n ' ' ++ source, 0, 0, true, false, [], []⟩ := by
    obtain ⟨n, rfl⟩ := Nat.exists_eq_succ_of_ne_zero (Nat.ne_of_gt hn)
    rfl
  have hstep : Lexer.step ⟨List.replicate n ' ' ++ source, 0, 0, true, false, [], []⟩ =
      Lexer.step ⟨source, n, 0, true, false, [], []⟩ := by
    simp only [Lexer.step, Lexer.trivia_replicate_space, Nat.zero_add, gt_iff_lt,
      Nat.lt_irrefl, if_false]
  rw [lexemize, hstart, Lexer.lexemes_eq, hstep, ← Lexer.lexemes_eq]

end EsModules
