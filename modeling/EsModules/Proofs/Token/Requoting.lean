import EsModules.Proofs.Text.Edit
import EsModules.Proofs.Token.Alike
import EsModules.Proofs.Token.Words

/-!
# Edits between quotes

Edits between the quotes of strings and of templates without substitutions change no other token.
If the edited texts are still closed, and not before their ends, a call of the lexer on the edited
input gives a token of the same kind as the call on the input.

* `TokenKind.closes`: a text is one string or template from quote to quote.
* `Lexer.quoted_of_step`, `Lexer.read_of_closes`: how such a token is read, and that any closed text
  is read in its place.
* `Edit.IsQuoted`: an edit lies between the quotes of a token that stays closed.
* `Lexer.Beside`, `Lexer.step_of_splices`: what one call gives in the edited input.
-/

namespace EsModules

/-! ## Quoted texts -/

/-- Whether a text is a string, or a template without substitutions, from quote to quote. -/
def TokenKind.closes : TokenKind → List Char → Bool
  | .string, q :: body => (q == '"' || q == '\'') && scanString q body == (⟨body, [], 0⟩, true)
  | .noSubstitutionTemplate, q :: body =>
    q == '\x60' && scanTemplate body == (⟨body, [], 0⟩, .closed)
  | _, _ => false

theorem TokenKind.kind_of_closes {k : TokenKind} {text : List Char} (h : k.closes text = true) :
    k = .string ∨ k = .noSubstitutionTemplate := by
  cases k <;> simp_all [closes]

theorem TokenKind.closes_string {q : Char} {body : List Char} :
    TokenKind.closes .string (q :: body) = true ↔
      (q = '"' ∨ q = '\'') ∧ scanString q body = (⟨body, [], 0⟩, true) := by
  simp [closes]

theorem TokenKind.closes_template {q : Char} {body : List Char} :
    TokenKind.closes .noSubstitutionTemplate (q :: body) = true ↔
      q = '\x60' ∧ scanTemplate body = (⟨body, [], 0⟩, .closed) := by
  simp [closes]

namespace Lexer

variable {l l' m : Lexer} {k : TokenKind}

/-- A string is read where one starts. -/
theorem read_string {q : Char} {r : List Char} (hl : l.rest = q :: r) (hq : q = '"' ∨ q = '\'')
    (hclosed : (scanString q r).2 = true) :
    l.read = (.ok .string, l.advance ((scanString q r).1.cons q)) := by
  have hstart : l.starts q r = .string := by rcases hq with rfl | rfl <;> rfl
  rw [read_cons hl, hstart]
  unfold readFrom
  dsimp only
  rw [if_pos hclosed]

/-- A template is read where one starts. -/
theorem read_template {r : List Char} (hl : l.rest = '\x60' :: r)
    (hclosed : (scanTemplate r).2 = .closed) :
    l.read = (.ok .noSubstitutionTemplate, l.advance ((scanTemplate r).1.cons '\x60')) := by
  have hstart : l.starts '\x60' r = .template := rfl
  rw [read_cons hl, hstart]
  unfold readFrom readTemplate
  dsimp only
  rw [hclosed]

/-- A quoted text is read as the token that it is, whatever follows it. -/
theorem read_of_closes {text r : List Char} (hclosed : k.closes text = true)
    (hl : l.rest = text ++ r) : ∃ m, l.read = (.ok k, m) ∧ m.rest = r ∧ SameMode l m := by
  match k, text with
  | .string, q :: body =>
    obtain ⟨hq, hscan⟩ := TokenKind.closes_string.1 hclosed
    have hquote : q ≠ '\\' := by
      rintro rfl
      rcases hq with h | h <;> cases h
    have happend : scanString q (body ++ r) = (⟨body, r, 0⟩, true) := by
      have h := scanString_append hquote (congrArg Prod.snd hscan) r
      rwa [hscan] at h
    have hl' : l.rest = q :: (body ++ r) := hl
    refine ⟨_, read_string hl' hq (congrArg Prod.snd happend), ?_, ⟨rfl, rfl, rfl, rfl⟩⟩
    rw [happend]
    rfl
  | .noSubstitutionTemplate, q :: body =>
    obtain ⟨rfl, hscan⟩ := TokenKind.closes_template.1 hclosed
    have happend : scanTemplate (body ++ r) = (⟨body, r, 0⟩, .closed) := by
      have h := @scanTemplate_append body (by rw [hscan]; simp) r
      rwa [hscan] at h
    have hl' : l.rest = '\x60' :: (body ++ r) := hl
    refine ⟨_, read_template hl' (congrArg Prod.snd happend), ?_, ⟨rfl, rfl, rfl, rfl⟩⟩
    rw [happend]
    rfl

/-! ## What a call takes -/

variable {t : Token}

/-- What a call that gives a token takes from the input. -/
theorem Gives.taken (h : Gives l t l') (hk : t.kind ≠ .eof) :
    ∃ text past, l.rest = text ++ l'.rest ∧ (past = 0 ∨ past = 1 ∧ l'.rest = []) ∧
      l'.pos + l'.owed = l.pos + l.owed + Text.byteLength text + past ∧
      (t.kind = .unknown ∨ l.pos + l.owed ≤ t.span.start) ∧ t.span.stop ≤ l'.pos + l'.owed := by
  cases h with
  | owed howed =>
    refine ⟨[], 0, rfl, .inl rfl, ?_, .inl rfl, ?_⟩
    · simp only [Lexer.after, Text.byteLength_nil]
      omega
    · simp only [Lexer.after]
      omega
  | eof => exact absurd rfl hk
  | @read k l'' howed hclosed _ hreads =>
    obtain ⟨gap, hgap, hpos⟩ := trivia_split hclosed
    obtain ⟨text, past, -, hb⟩ := hreads.between hk howed (skip_rest_head hclosed)
    have hskip : l.skip.pos = l.pos + Text.byteLength gap := hpos
    have hend := hb.pos
    refine ⟨gap ++ text, past, ?_, hb.past.imp_right fun h => ⟨h.1, h.2.1⟩, ?_, .inr ?_, ?_⟩
    · rw [List.append_assoc]
      exact hgap.trans (congrArg (gap ++ ·) hb.rest)
    · simp only [Lexer.after, Text.byteLength_append]
      omega
    · show l.pos + l.owed ≤ l.skip.pos
      omega
    · exact Nat.le_add_right _ _

/-- A reserved word is spelled out behind the gap in front of it. -/
theorem Gives.keyword {word : Keyword} (h : Gives l t l') (hk : t.kind = .keyword word) :
    ∃ gap, l.rest = gap ++ (word.spelling.toList ++ l'.rest) ∧
      t.span.start = l.pos + l.owed + Text.byteLength gap ∧
      t.span.stop = t.span.start + Text.byteLength word.spelling.toList ∧
      l'.pos + l'.owed = t.span.stop := by
  cases h with
  | owed => cases hk
  | eof => cases hk
  | @read k l'' howed hclosed _ hreads =>
    dsimp only at hk
    subst hk
    cases hreads with
    | keyword hl _ _ hpast hword =>
      obtain ⟨gap, hgap, hpos⟩ := trivia_split hclosed
      have hstart : l.skip.pos = l.pos + Text.byteLength gap := hpos
      rw [Keyword.spelling_of_ofSpelling? hword]
      refine ⟨gap, ?_, ?_, ?_, congrArg _ howed⟩
      · exact hgap.trans (congrArg (gap ++ ·) (scanWord_text_append_rest false _).symm)
      · show l.skip.pos = _
        omega
      · show l.skip.pos + Scan.width _ = _
        rw [Scan.width, hpast]
        rfl

/-- No token but one of the bytes of a character starts in front of what is left of the input. -/
theorem Run.le_start {l l' : Lexer} {ts : List Token} (h : Run l ts l') :
    ∀ t ∈ ts, t.kind ≠ .unknown → l.pos + l.owed ≤ t.span.start := by
  induction h with
  | done => exact fun t ht => absurd ht List.not_mem_nil
  | step hgives hk _ ih =>
    intro t ht hkind
    obtain ⟨text, past, -, -, hpos, hstart, -⟩ := hgives.taken hk
    rcases List.mem_cons.1 ht with rfl | ht
    · exact hstart.resolve_left hkind
    · have hle := ih t ht hkind
      omega

/-- A quoted token and the call that gives it. -/
structure Quoted (l l' : Lexer) (t : Token) (gap text : List Char) : Prop where
  closed : (trivia l.pos l.rest).unclosed = none
  owed : l.owed = 0
  front : l.rest = gap ++ l.skip.rest
  rest : l.skip.rest = text ++ l'.rest
  quote : ∃ q body, text = q :: body ∧ isQuote q = true
  start : t.span.start = l.pos + Text.byteLength gap
  stop : t.span.stop = t.span.start + Text.byteLength text
  pos : l'.pos + l'.owed = t.span.stop
  mode : SameMode (l.skip.after t.kind) l'

/-- A token whose text is taken from the quote in front of it is quoted. -/
theorem quoted_of_advance {x : Scan} {q : Char} {r : List Char} (howed : l.owed = 0)
    (hclosed : (trivia l.pos l.rest).unclosed = none) (hl : l.skip.rest = q :: r)
    (hq : isQuote q = true) (hsplit : x.text ++ x.rest = r) (hpast : x.past = 0)
    (kind : TokenKind) :
    ∃ gap text, Quoted l ((l.skip.advance (x.cons q)).after kind)
      ⟨kind, ⟨l.skip.pos, (l.skip.advance (x.cons q)).pos⟩⟩ gap text := by
  obtain ⟨gap, hgap, hpos⟩ := trivia_split hclosed
  refine ⟨gap, q :: x.text, hclosed, howed, hgap, ?_, ⟨q, _, rfl, hq⟩, hpos, ?_, ?_, ?_⟩
  · rw [hl, List.cons_append]
    exact congrArg (q :: ·) hsplit.symm
  · simp [advance, Scan.width, Scan.cons, hpast]
  · exact congrArg _ howed
  · exact ⟨rfl, rfl, rfl, rfl⟩

/-- A string or a template without substitutions is given from quote to quote. -/
theorem quoted_of_step (h : l.step = (.ok t, l')) {text : List Char}
    (hcloses : t.kind.closes text = true) : ∃ gap text, Quoted l l' t gap text := by
  cases gives_of_step h with
  | owed => cases hcloses
  | eof => cases hcloses
  | @read k l'' howed hclosed _ hreads =>
    rcases TokenKind.kind_of_closes hcloses with hk | hk
    · dsimp only at hk
      subst hk
      cases hreads with
      | @string q r hl hq _ =>
        refine quoted_of_advance howed hclosed hl ?_ (scanString_text_append_rest q r)
          (scanString_past q r) _
        rcases hq with rfl | rfl <;> rfl
    · dsimp only at hk
      subst hk
      cases hreads with
      | @template r hl _ =>
        exact quoted_of_advance howed hclosed hl rfl (scanTemplate_text_append_rest r)
          (scanTemplate_past r) _

/-- A call with the same input up to a joint behind its token takes the same. -/
theorem step_of_unedited {text b : List Char} (hnext : l.step = (.ok t, l')) (hmode : SameMode l m)
    (hl : l.rest = text ++ l'.rest) (hm : m.rest = text ++ b)
    (hjoint : ∃ v s s', Joint s s' ∧ l'.rest = v ++ s ∧ b = v ++ s') :
    ∃ t' m', m.step = (.ok t', m') ∧ t'.kind = t.kind ∧ SameMode l' m' ∧ m'.rest = b := by
  obtain ⟨v, s, s', hj, hv, rfl⟩ := hjoint
  have halike : Alike s s' l m :=
    ⟨hmode, text ++ v, by rw [hl, hv, List.append_assoc], by rw [hm, List.append_assoc]⟩
  obtain ⟨t', m', hnext', hkind, hmode', w, hw, hw'⟩ := step_alike hj halike hnext ⟨v, hv.symm⟩
  obtain rfl := List.append_cancel_right (hv.symm.trans hw)
  exact ⟨t', m', hnext', hkind, hmode', hw'⟩

/-- A call with another quoted text in the place of its token takes that text. -/
theorem step_of_edited {gap text text' b : List Char} (hquoted : Quoted l l' t gap text)
    (hmode : SameMode l m) (hm : m.rest = gap ++ (text' ++ b))
    (hcloses : t.kind.closes text' = true) (hhead : text'.head? = text.head?) :
    ∃ t' m', m.step = (.ok t', m') ∧ t'.kind = t.kind ∧ SameMode l' m' ∧ m'.rest = b := by
  obtain ⟨q, body, rfl, hq⟩ := hquoted.quote
  obtain ⟨body', rfl⟩ := List.head?_eq_some_iff.1 hhead
  have hj : Joint (q :: body ++ l'.rest) (q :: body' ++ b) := .quote hq
  have halike : Alike (q :: body ++ l'.rest) (q :: body' ++ b) l m :=
    ⟨hmode, gap, by rw [← hquoted.rest, ← hquoted.front], hm⟩
  obtain ⟨hclosed, hskip⟩ := halike.skip hj hquoted.closed ⟨[], hquoted.rest.symm⟩
  obtain ⟨v, hv, hv'⟩ := hskip.rest
  have hnil : [] ++ (q :: body ++ l'.rest) = v ++ (q :: body ++ l'.rest) :=
    hquoted.rest.symm.trans hv
  obtain rfl := List.append_cancel_right hnil
  obtain ⟨m'', hread, hrest, hmode''⟩ := read_of_closes hcloses hv'
  have hk : t.kind ≠ .eof := by
    rcases TokenKind.kind_of_closes hcloses with h | h <;> simp [h]
  refine ⟨_, _, step_of_read (hmode.owed.trans hquoted.owed) hclosed hread, rfl, ?_, ?_⟩
  · rw [if_neg hk]
    exact hquoted.mode.symm.trans ((hskip.toSameMode.trans hmode'').after t.kind)
  · rw [if_neg hk]
    exact hrest

end Lexer

/-! ## Edits between quotes -/

/-- Whether an edit lies between the first and the last character of a token. -/
def Token.holds (t : Token) (e : Edit) : Bool :=
  t.span.start < e.span.start && e.span.stop < t.span.stop

/-- The text of a token after the edits that lie within it. -/
def Token.edited (source : List Char) (edits : List Edit) (t : Token) : List Char :=
  Edit.applyFrom t.span.start (edits.filter t.holds) (t.span.text source)

/-- Whether an edit lies between the quotes of a token that the edits leave closed. -/
def Edit.IsQuoted (source : List Char) (edits : List Edit) (tokens : List Token) (e : Edit) :
    Prop :=
  ∃ t ∈ tokens, t.holds e = true ∧ t.kind.closes (t.edited source edits) = true

namespace Lexer

variable {source : List Char} {edits : List Edit} {l l' m : Lexer} {t : Token}

theorem Stands.exists_front (h : Stands source l) :
    l.rest = [] ∨ ∃ front, source = front ++ l.rest ∧ Text.byteLength front = l.pos + l.owed := by
  cases h with
  | between taken hs hp howed => exact .inr ⟨taken, hs, by omega⟩
  | inside front c hs _ hp _ =>
    refine .inr ⟨front ++ [c], by rw [hs]; simp, ?_⟩
    simp only [Text.byteLength_append, Text.byteLength_cons, Text.byteLength_nil]
    omega
  | beyond hrest _ _ => exact .inl hrest

/-- A quoted token starts with its quote. -/
theorem Origin.exists_quote (h : Origin source t) {text : List Char}
    (hcloses : t.kind.closes text = true) :
    ∃ front q r, source = front ++ q :: r ∧ t.span.start = Text.byteLength front ∧
      isQuote q = true := by
  cases h with
  | piece _ _ _ ht =>
    subst ht
    cases hcloses
  | @read l₁ l₂ front hs hp _ hreads hspan =>
    have hquote : ∃ q r, l₁.rest = q :: r ∧ isQuote q = true := by
      rcases TokenKind.kind_of_closes hcloses with hk | hk
      · rw [hk] at hreads
        cases hreads with
        | @string q r hl hq _ =>
          refine ⟨q, r, hl, ?_⟩
          rcases hq with rfl | rfl <;> rfl
      · rw [hk] at hreads
        cases hreads with
        | @template r hl _ => exact ⟨_, r, hl, rfl⟩
    obtain ⟨q, r, hl, hq⟩ := hquote
    exact ⟨front, q, r, hl ▸ hs, by rw [hspan, hp], hq⟩

/-- Up to the quote in front of the first edit, the text before and the text after are the same. -/
theorem exists_joint {l'' : Lexer} {ts : List Token} {es : List Edit} {out : List Char}
    (hplace : Stands source l) (hrun : Run l ts l'')
    (hsplices : Edit.Splices (l.pos + l.owed) es l.rest out)
    (hquoted : ∀ e ∈ es, e.IsQuoted source edits ts) :
    ∃ v s s', Joint s s' ∧ l.rest = v ++ s ∧ out = v ++ s' := by
  generalize hinput : l.rest = input at hsplices
  cases hsplices with
  | done => exact ⟨_, [], [], .nil, (List.append_nil _).symm, (List.append_nil _).symm⟩
  | @edit _ e es gap old rest out start stop more =>
    obtain ⟨t, ht, hholds, hcloses⟩ := hquoted e List.mem_cons_self
    obtain ⟨front, q, r, hsource, hstart, hq⟩ := (hrun.origin hplace t ht).exists_quote hcloses
    have hle := hrun.le_start t ht (by
      rcases TokenKind.kind_of_closes hcloses with h | h <;> simp [h])
    simp only [Token.holds, Bool.and_eq_true, decide_eq_true_eq] at hholds
    rcases hplace.exists_front with hrest | ⟨taken, hsource', htaken⟩
    · have hnil := congrArg Text.byteLength (hinput.symm.trans hrest)
      simp only [Text.byteLength_append, Text.byteLength_nil] at hnil
      omega
    · obtain ⟨g, rfl, hg⟩ := Text.exists_append_of_byteLength_le
        (hsource'.symm.trans hsource) (by omega)
      rw [Text.byteLength_append] at hstart
      obtain ⟨g', rfl, hr⟩ := Text.exists_append_of_byteLength_lt
        (hg.symm.trans hinput) (by omega)
      refine ⟨g, q :: (g' ++ (old ++ rest)), q :: (g' ++ (e.replacement ++ out)), .quote hq, ?_, ?_⟩
      · simp
      · simp

/-- The edits of a token are those among all edits that lie within it. -/
theorem filter_holds_eq {done front back : List Edit}
    (hdone : ∀ e ∈ done, e.span.start ≤ e.span.stop ∧ e.span.stop ≤ t.span.start)
    (hfront : ∀ e ∈ front, t.holds e = true)
    (hback : ∀ e ∈ back, e.span.start ≤ e.span.stop ∧ t.span.stop ≤ e.span.start) :
    (done ++ (front ++ back)).filter t.holds = front := by
  have hdone' : done.filter t.holds = [] := by
    refine List.filter_eq_nil_iff.2 fun e he hholds => ?_
    have hle := hdone e he
    simp only [Token.holds, Bool.and_eq_true, decide_eq_true_eq] at hholds
    omega
  have hback' : back.filter t.holds = [] := by
    refine List.filter_eq_nil_iff.2 fun e he hholds => ?_
    have hle := hback e he
    simp only [Token.holds, Bool.and_eq_true, decide_eq_true_eq] at hholds
    omega
  rw [List.filter_append, List.filter_append, hdone', hback', List.filter_eq_self.2 hfront]
  simp

/-- What is taken with a quoted token is the gap in front of it and its text. -/
theorem Quoted.text_eq {gap text taken : List Char} (h : Quoted l l' t gap text)
    (hl : l.rest = taken ++ l'.rest) : taken = gap ++ text := by
  have hrest := h.front.trans (congrArg (gap ++ ·) h.rest)
  rw [hl, ← List.append_assoc] at hrest
  exact List.append_cancel_right hrest

/-- What the edits within a quoted token make of its text. -/
theorem Quoted.edited {gap text text' : List Char} {done front back : List Edit}
    (h : Quoted l l' t gap text) (hplace : Stands source l)
    (hdone : ∀ e ∈ done, e.span.start ≤ e.span.stop ∧ e.span.stop ≤ l.pos + l.owed)
    (hfront : ∀ e ∈ front, t.holds e = true)
    (hback : ∀ e ∈ back, e.span.start ≤ e.span.stop ∧ t.span.stop ≤ e.span.start)
    (hsplices : Edit.Splices (l.pos + l.owed) front (gap ++ text) text') :
    text' = gap ++ t.edited source (done ++ (front ++ back)) ∧
      (t.edited source (done ++ (front ++ back))).head? = text.head? := by
  obtain ⟨q, body, rfl, hq⟩ := h.quote
  have hsize : Text.byteLength [q] = 1 := by
    rcases eq_of_isQuote hq with rfl | rfl | rfl <;> rfl
  have howed := h.owed
  have hstart := h.start
  have hstop := h.stop
  have hbody : Text.byteLength (q :: body) = 1 + Text.byteLength body := by
    rw [← hsize]
    exact Text.byteLength_append [q] body
  have hin : ∀ e ∈ front, l.pos + l.owed + Text.byteLength gap < e.span.start := by
    intro e he
    have hholds := hfront e he
    simp only [Token.holds, Bool.and_eq_true, decide_eq_true_eq] at hholds
    omega
  obtain ⟨x, rfl, hx⟩ := hsplices.exists_append fun e he => Nat.le_of_lt (hin e he)
  have hfilter := filter_holds_eq (t := t)
    (fun e he => ⟨(hdone e he).1, by have := (hdone e he).2; omega⟩) hfront hback
  have htext : t.span.text source = q :: body := by
    have hrest := h.front.trans (congrArg (gap ++ ·) h.rest)
    rcases hplace.exists_front with hnil | ⟨before, hsource, hbefore⟩
    · rw [hnil] at hrest
      simp at hrest
    · refine Span.Covers.text_eq ⟨before ++ gap, l'.rest, ?_, ?_, ?_⟩
      · rw [hsource, hrest, List.append_assoc]
      · rw [Text.byteLength_append]
        omega
      · rw [Text.byteLength_append]
        omega
  have hedited : t.edited source (done ++ (front ++ back)) = x := by
    unfold Token.edited
    rw [hfilter, htext, hstart]
    have happly := hx.applyFrom_eq
    rwa [howed, Nat.add_zero] at happly
  rw [hedited]
  refine ⟨rfl, ?_⟩
  obtain ⟨body', rfl, -⟩ := Edit.Splices.exists_append (a := [q]) hx fun e he => by
    have hlt := hin e he
    omega
  rfl

/-- A call on the edited input beside one on the input: it gives a token of the same kind and takes
what the first edits make of what the other takes.  Only a quoted token has edits in it. -/
structure Beside (l l' m m' : Lexer) (t t' : Token) (front : List Edit) : Prop where
  step : m.step = (.ok t', m')
  kind : t'.kind = t.kind
  mode : SameMode l' m'
  takes : ∃ text text', l.rest = text ++ l'.rest ∧ m.rest = text' ++ m'.rest ∧
    Edit.Splices (l.pos + l.owed) front text text'
  bounds : ∀ e ∈ front, e.span.start ≤ e.span.stop ∧ e.span.stop ≤ l'.pos + l'.owed
  quoted : front ≠ [] → ∃ text, t.kind.closes text = true
  ends : m'.rest = [] → l'.rest = []

/-- One call of the lexer on the edited input; what is left are the edits behind the token. -/
theorem step_of_splices {ts : List Token} {l'' : Lexer} {done es : List Edit}
    (hplace : Stands source l) (hnext : l.step = (.ok t, l')) (hk : t.kind ≠ .eof)
    (hrun : Run l' ts l'') (hmode : SameMode l m)
    (hdone : ∀ e ∈ done, e.span.start ≤ e.span.stop ∧ e.span.stop ≤ l.pos + l.owed)
    (hsplices : Edit.Splices (l.pos + l.owed) es l.rest m.rest)
    (hquoted : ∀ e ∈ es, e.IsQuoted source (done ++ es) (t :: ts)) :
    ∃ t' m' front back, Beside l l' m m' t t' front ∧ es = front ++ back ∧
      Edit.Splices (l'.pos + l'.owed) back l'.rest m'.rest ∧
      ∀ e ∈ back, e.IsQuoted source (done ++ es) ts := by
  have hgives := gives_of_step hnext
  obtain ⟨hplace', -⟩ := hgives.tiles hk hplace
  obtain ⟨text, past, hl, hpast, hpos, hstart, hstop⟩ := hgives.taken hk
  -- every edit lies within this token or within a later one
  have hheld : ∀ e ∈ es, t.holds e = true ∧ t.kind.closes (t.edited source (done ++ es)) = true ∨
      l'.pos + l'.owed < e.span.start ∧ e.IsQuoted source (done ++ es) ts := by
    intro e he
    obtain ⟨t', ht', hholds, hcloses⟩ := hquoted e he
    rcases List.mem_cons.1 ht' with rfl | ht'
    · exact .inl ⟨hholds, hcloses⟩
    · refine .inr ⟨?_, t', ht', hholds, hcloses⟩
      have hle := hrun.le_start t' ht' (by
        rcases TokenKind.kind_of_closes hcloses with h | h <;> simp [h])
      simp only [Token.holds, Bool.and_eq_true, decide_eq_true_eq] at hholds
      omega
  have hholds_stop : ∀ e, t.holds e = true → e.span.stop < l'.pos + l'.owed := by
    intro e hholds
    simp only [Token.holds, Bool.and_eq_true, decide_eq_true_eq] at hholds
    omega
  have hsplit : Edit.Splices (l.pos + l.owed) es (text ++ l'.rest) m.rest := hl ▸ hsplices
  obtain ⟨front, back, text', b, rfl, hm, hfront, hback⟩ := hsplit.split fun e he => by
    rcases hheld e he with ⟨hholds, -⟩ | ⟨hlt, -⟩
    · have hlt := hholds_stop e hholds
      omega
    · omega
  have hin : ∀ e ∈ front, t.holds e = true ∧
      t.kind.closes (t.edited source (done ++ (front ++ back))) = true := by
    intro e he
    have hbounds := hfront.bounds e he
    rcases hheld e (List.mem_append_left back he) with h | ⟨hlt, -⟩
    · exact h
    · omega
  have hbehind : ∀ e ∈ back, l'.pos + l'.owed < e.span.start ∧
      e.IsQuoted source (done ++ (front ++ back)) ts := by
    intro e he
    have hbounds := hback.bounds e he
    rcases hheld e (List.mem_append_right front he) with ⟨hholds, hcloses⟩ | h
    · -- a quoted token ends within the input, and an edit within it in front of that
      obtain ⟨gap, quoted, hq⟩ := quoted_of_step hnext hcloses
      obtain rfl := hq.text_eq hl
      have hqstart := hq.start
      have hqstop := hq.stop
      have hqpos := hq.pos
      have howed := hq.owed
      simp only [Token.holds, Bool.and_eq_true, decide_eq_true_eq] at hholds
      rw [Text.byteLength_append] at hpos hbounds
      omega
    · exact h
  have hback' : Edit.Splices (l'.pos + l'.owed) back l'.rest b := by
    rcases hpast with rfl | ⟨rfl, hrest⟩
    · rwa [hpos, Nat.add_zero]
    · cases back with
      | nil =>
        cases hback
        exact .done
      | cons e back =>
        have hbounds := hback.bounds e List.mem_cons_self
        have hlt := (hbehind e List.mem_cons_self).1
        rw [hrest, Text.byteLength_nil] at hbounds
        omega
  have hquotedBack := fun e he => (hbehind e he).2
  have hjoint := exists_joint hplace' hrun hback' hquotedBack
  have hcall : ∃ t' m', m.step = (.ok t', m') ∧ t'.kind = t.kind ∧ SameMode l' m' ∧
      m'.rest = b := by
    cases front with
    | nil =>
      cases hfront
      exact step_of_unedited hnext hmode hl hm hjoint
    | cons e front =>
      obtain ⟨-, hcloses⟩ := hin e List.mem_cons_self
      obtain ⟨gap, quoted, hq⟩ := quoted_of_step hnext hcloses
      obtain rfl := hq.text_eq hl
      obtain ⟨htext, hhead⟩ := hq.edited hplace hdone (fun d hd => (hin d hd).1)
        (fun d hd => ⟨(hback.bounds d hd).2.1, by
          have hlt := (hbehind d hd).1
          omega⟩) hfront
      refine step_of_edited hq hmode ?_ hcloses hhead
      rw [hm, htext, List.append_assoc]
  obtain ⟨t', m', hnext', hkind, hmode', rfl⟩ := hcall
  refine ⟨t', m', front, back, ⟨hnext', hkind, hmode', ⟨text, text', hl, hm, hfront⟩,
    fun e he => ?_, fun hne => ?_, fun hnil => ?_⟩, rfl, hback', hquotedBack⟩
  · have hbounds := hfront.bounds e he
    omega
  · obtain ⟨e, he⟩ := List.exists_mem_of_ne_nil front hne
    exact ⟨_, (hin e he).2⟩
  · obtain ⟨v, s, s', hj, hv, hv'⟩ := hjoint
    obtain ⟨rfl, rfl⟩ := List.append_eq_nil_iff.1 (hv'.symm.trans hnil)
    cases hj
    exact hv

end Lexer

end EsModules
