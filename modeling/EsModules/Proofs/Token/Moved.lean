import EsModules.Proofs.Token.Requoting
import Mathlib.Data.List.Forall2

/-!
# The tokens of an edited source

A source that is edited between quotes has tokens of the same kinds as before.  Where the words
stand that start declarations is told by the edits in front of them.

* `Lexer.Displaced`, `Lexer.Displaced.step`: the lexers in the two inputs and how they go on.
* `Token.Moved`: a token of the same kind, with the places of a word moved.
* `Lexer.lexemes_of_splices`: what the calls up to the end of the edited input give.
* `lexemize_moved`, `lexemize_of_splices`: the tokens of an edited source.
-/

namespace EsModules

namespace Lexer

variable {source : List Char} {l l' m m' : Lexer} {t t' : Token} {done front back : List Edit}

/-! ## Places of tokens -/

/-- The lexer behind a front of the source and the one behind what edits make of that front, unless
nothing is left. -/
def Displaced (source : List Char) (done : List Edit) (l m : Lexer) : Prop :=
  l.rest = [] ∨ ∃ a a', source = a ++ l.rest ∧ Edit.Splices 0 done a a' ∧
    l.pos + l.owed = Text.byteLength a ∧ m.pos + m.owed = Text.byteLength a'

/-- A call on the input and the one beside it lead from such places to such places. -/
theorem Displaced.step (h : Displaced source done l m) (hb : Beside l l' m m' t t' front)
    (hgives : Gives l t l') (hk : t.kind ≠ .eof) : Displaced source (done ++ front) l' m' := by
  obtain ⟨text, text', hl, hm, hsplices⟩ := hb.takes
  have hgives' := gives_of_step hb.step
  obtain ⟨taken, past, htaken, hpast, hpos, -, -⟩ := hgives.taken hk
  obtain ⟨taken', past', htaken', hpast', hpos', -, -⟩ := hgives'.taken (hb.kind ▸ hk)
  obtain rfl := List.append_cancel_right (htaken.symm.trans hl)
  obtain rfl := List.append_cancel_right (htaken'.symm.trans hm)
  rcases h with hnil | ⟨a, a', hsource, hdone, ha, ha'⟩
  · exact .inl (List.append_eq_nil_iff.1 (hl.symm.trans hnil)).2
  · rcases hpast with rfl | ⟨-, hnil⟩
    · rcases hpast' with rfl | ⟨-, hnil⟩
      · refine .inr ⟨a ++ taken, a' ++ taken', ?_, hdone.append ?_, ?_, ?_⟩
        · rw [hsource, hl, List.append_assoc]
        · rwa [Nat.zero_add, ← ha]
        · rw [hpos, ha, Text.byteLength_append, Nat.add_zero]
        · rw [hpos', ha', Text.byteLength_append, Nat.add_zero]
      · exact .inl (hb.ends hnil)
    · exact .inl hnil

end Lexer

/-- A token of the same kind; the places between which a word that starts a declaration stands
are moved. -/
structure Token.Moved (source : List Char) (edits : List Edit) (t t' : Token) : Prop where
  kind : t'.kind = t.kind
  places : ∀ word ∈ Keyword.declaring, t.kind = .keyword word →
    Edit.Moves source edits t.span.start t'.span.start ∧
      Edit.Moves source edits t.span.stop t'.span.stop

namespace Lexer

variable {source : List Char} {edits : List Edit} {l l' m m' : Lexer} {t t' : Token}
  {done front back : List Edit}

/-- A token that is read beside another is that one moved. -/
theorem Displaced.moved (h : Displaced source done l m) (hb : Beside l l' m m' t t' front)
    (hgives : Gives l t l') (hback : ∀ e ∈ back, l'.pos + l'.owed ≤ e.span.start) :
    t.Moved source (done ++ (front ++ back)) t' := by
  refine ⟨hb.kind, fun word hword hk => ?_⟩
  obtain ⟨gap, hl, hstart, hstop, hpos⟩ := hgives.keyword hk
  obtain ⟨gap', hm, hstart', hstop', -⟩ := (gives_of_step hb.step).keyword (hb.kind.trans hk)
  obtain ⟨text, text', htext, htext', hsplices⟩ := hb.takes
  obtain rfl : front = [] := by
    by_contra hne
    obtain ⟨closed, hcloses⟩ := hb.quoted hne
    rw [hk] at hcloses
    cases hcloses
  cases hsplices
  rw [hl, ← List.append_assoc] at htext
  rw [hm, ← List.append_assoc] at htext'
  obtain rfl := List.append_cancel_right htext
  obtain rfl := List.append_cancel_right (List.append_cancel_right htext')
  rcases h with hnil | ⟨a, a', hsource, hdone, ha, ha'⟩
  · rw [hnil] at hl
    obtain ⟨-, hrest⟩ := List.append_eq_nil_iff.1 hl.symm
    exact absurd (List.append_eq_nil_iff.1 hrest).1 (Keyword.spelling_ne_nil word hword)
  · have hkept : ∀ text, Edit.Splices 0 done (a ++ text) (a' ++ text) := by
      intro text
      have hmore : Edit.Splices (0 + Text.byteLength a) [] text text := .done
      have hboth := hdone.append hmore
      rwa [List.append_nil] at hboth
    refine ⟨⟨done, back, a ++ gap', a' ++ gap', word.spelling.toList ++ l'.rest, rfl, ?_, hkept _,
      fun e he => ?_, ?_, ?_⟩, ⟨done, back, a ++ (gap' ++ word.spelling.toList),
      a' ++ (gap' ++ word.spelling.toList), l'.rest, rfl, ?_, hkept _, fun e he => ?_, ?_, ?_⟩⟩
    · rw [hsource, hl, List.append_assoc]
    · have hle := hback e he
      omega
    · rw [hstart, ha, Text.byteLength_append]
    · rw [hstart', ha', Text.byteLength_append]
    · rw [hsource, hl, List.append_assoc, List.append_assoc]
    · exact hpos ▸ hback e he
    · rw [hstop, hstart, ha, Text.byteLength_append, Text.byteLength_append, Nat.add_assoc]
    · rw [hstop', hstart', ha', Text.byteLength_append, Text.byteLength_append, Nat.add_assoc]

/-- Edits between quotes that stay closed leave the tokens as they are, but for their places. -/
theorem lexemes_of_splices {ts : List Token} {cs : List Span} {done es : List Edit}
    (h : l.lexemes = .ok (ts, cs)) (hplace : Stands source l) (hmode : SameMode l m)
    (hdone : ∀ e ∈ done, e.span.start ≤ e.span.stop ∧ e.span.stop ≤ l.pos + l.owed)
    (hdisplaced : Displaced source done l m)
    (hsplices : Edit.Splices (l.pos + l.owed) es l.rest m.rest)
    (hquoted : ∀ e ∈ es, e.IsQuoted source (done ++ es) ts) :
    ∃ ts' cs', m.lexemes = .ok (ts', cs') ∧
      List.Forall₂ (Token.Moved source (done ++ es)) ts ts' := by
  fun_induction lexemes l generalizing m ts cs done es with
  | case1 l e l' hnext => cases h
  | case2 l t l' hnext hk =>
    obtain ⟨rfl, rfl⟩ := Prod.mk.inj (Except.ok.inj h)
    cases es with
    | cons e es =>
      obtain ⟨t, ht, -⟩ := hquoted e List.mem_cons_self
      cases ht
    | nil =>
      generalize hinput : l.rest = input at hsplices
      generalize houtput : m.rest = output at hsplices
      cases hsplices
      have halike : Alike [] [] l m :=
        ⟨hmode, input, by rw [hinput, List.append_nil], by rw [houtput, List.append_nil]⟩
      obtain ⟨t', m', hnext', hkind, -⟩ := step_alike .nil halike hnext List.nil_suffix
      exact ⟨[], _, lexemes_of_step_eof hnext' (hkind.trans hk), .nil⟩
  | case3 l t l' hnext hk ih =>
    cases hrest : l'.lexemes with
    | error e =>
      rw [hrest] at h
      cases h
    | ok found =>
      obtain ⟨ts', cs'⟩ := found
      rw [hrest] at h
      obtain ⟨rfl, rfl⟩ := Prod.mk.inj (Except.ok.inj h)
      obtain ⟨l'', hrun, -⟩ := run_of_lexemes hrest
      obtain ⟨t', m', front, back, hbeside, rfl, hback, hquoted'⟩ :=
        step_of_splices hplace hnext hk hrun hmode hdone hsplices hquoted
      have hgives := gives_of_step hnext
      obtain ⟨hplace', -⟩ := hgives.tiles hk hplace
      obtain ⟨text, past, -, -, hpos, -, -⟩ := hgives.taken hk
      have hmoved := hdisplaced.moved hbeside hgives fun e he => (hback.bounds e he).1
      rw [← List.append_assoc] at hquoted' hmoved ⊢
      have hdone' : ∀ e ∈ done ++ front, e.span.start ≤ e.span.stop ∧
          e.span.stop ≤ l'.pos + l'.owed := by
        intro e he
        rcases List.mem_append.1 he with he | he
        · have hle := hdone e he
          omega
        · exact hbeside.bounds e he
      obtain ⟨ts'', cs'', htokens, htokens'⟩ := ih hrest hplace' hbeside.mode hdone'
        (hdisplaced.step hbeside hgives hk) hback hquoted'
      exact ⟨t' :: ts'', cs'',
        lexemes_of_step hbeside.step (by rw [hbeside.kind]; exact hk) htokens,
        .cons hmoved htokens'⟩

/-! ## The start of a source -/

theorem start_of_ne {source : List Char} (h : ∀ r, source ≠ '#' :: '!' :: r) :
    start source = ⟨source, 0, 0, true, false, [], []⟩ := by
  unfold start
  dsimp only
  split
  · rename_i r
    exact absurd rfl (h r)
  · rfl

theorem sameMode_start (source out : List Char) : SameMode (start source) (start out) := by
  have hstart : ∀ text, SameMode ⟨[], 0, 0, true, false, [], []⟩ (start text) := by
    intro text
    unfold start
    dsimp only
    split <;> exact ⟨rfl, rfl, rfl, rfl⟩
  exact (hstart source).symm.trans (hstart out)

/-- What the lexer skips at the start of a source. -/
theorem start_front (source : List Char) : ∃ front, source = front ++ (start source).rest ∧
    Text.byteLength front = (start source).pos + (start source).owed := by
  by_cases hmark : ∃ r, source = '#' :: '!' :: r
  · obtain ⟨r, rfl⟩ := hmark
    exact ⟨_, (Scan.takeWhile_text_append_rest (fun c => !Ascii.isLineEnd c) _).symm,
      (Nat.zero_add _).symm⟩
  · have hne : ∀ r, source ≠ '#' :: '!' :: r := fun r h => hmark ⟨r, h⟩
    rw [start_of_ne hne]
    exact ⟨[], rfl, rfl⟩

/-- Behind the same front, up to a joint, a source starts the same way. -/
theorem start_rest_of_joint {front v s s' : List Char} (hj : Joint s s')
    (hsource : source = front ++ (start source).rest) (hv : (start source).rest = v ++ s) :
    (start (front ++ (v ++ s'))).rest = v ++ s' := by
  by_cases hmark : ∃ r, source = '#' :: '!' :: r
  · obtain ⟨r, rfl⟩ := hmark
    have hsplit := Scan.takeWhile_text_append_rest (fun c => !Ascii.isLineEnd c) ('#' :: '!' :: r)
    obtain rfl := List.append_cancel_right (hsplit.trans hsource)
    have hhead := hj.head? v
    rw [← hv] at hhead
    exact congrArg Scan.rest (Scan.takeWhile_append hhead)
  · have hne : ∀ r, source ≠ '#' :: '!' :: r := fun r h => hmark ⟨r, h⟩
    rw [start_of_ne hne] at hsource hv
    have hfront : [] ++ source = front ++ source := hsource
    obtain rfl := List.append_cancel_right hfront
    rw [start_of_ne, List.nil_append]
    intro r h
    obtain ⟨v, rfl, hr⟩ := hj.symm.exists_cons (by decide) h.symm
    obtain ⟨v, rfl, -⟩ := hj.symm.exists_cons (by decide) hr
    exact hne _ hv

end Lexer

section Splices

variable {source out : List Char} {tokens : List Token} {comments : List Span} {edits : List Edit}

/-- **Edits between quotes.**  Edits that lie between the quotes of strings and of templates without
substitutions, and leave those closed, turn a source that the lexer accepts into one that it
accepts.  The words that start declarations are moved. -/
theorem lexemize_moved (h : lexemize source = .ok (tokens, comments))
    (hsplices : Edit.Splices 0 edits source out)
    (hquoted : ∀ e ∈ edits, e.IsQuoted source edits tokens) :
    ∃ tokens' comments', lexemize out = .ok (tokens', comments') ∧
      List.Forall₂ (Token.Moved source edits) tokens tokens' := by
  obtain ⟨l, hrun, -⟩ := Lexer.run_of_lexemes h
  obtain ⟨hplace, -⟩ := Lexer.start_tiles source
  obtain ⟨front, hsource, hfront⟩ := Lexer.start_front source
  have hsplit : Edit.Splices 0 edits (front ++ (Lexer.start source).rest) out :=
    hsource ▸ hsplices
  obtain ⟨rest, rfl, hrest⟩ := hsplit.exists_append fun e he => by
    obtain ⟨t, ht, hholds, hcloses⟩ := hquoted e he
    have hle := hrun.le_start t ht (by
      rcases TokenKind.kind_of_closes hcloses with hk | hk <;> simp [hk])
    simp only [Token.holds, Bool.and_eq_true, decide_eq_true_eq] at hholds
    omega
  rw [Nat.zero_add, hfront] at hrest
  obtain ⟨v, s, s', hj, hv, rfl⟩ := Lexer.exists_joint hplace hrun hrest hquoted
  have hstart := Lexer.start_rest_of_joint hj hsource hv
  rw [← hstart] at hrest
  have hdone : ∀ e ∈ ([] : List Edit), e.span.start ≤ e.span.stop ∧
      e.span.stop ≤ (Lexer.start source).pos + (Lexer.start source).owed :=
    fun e he => absurd he List.not_mem_nil
  have hdisplaced : Lexer.Displaced source [] (Lexer.start source)
      (Lexer.start (front ++ (v ++ s'))) := by
    obtain ⟨front', hout, hfront'⟩ := Lexer.start_front (front ++ (v ++ s'))
    rw [hstart] at hout
    obtain rfl := List.append_cancel_right hout
    exact .inr ⟨front, front, hsource, .done, hfront.symm, hfront'.symm⟩
  exact Lexer.lexemes_of_splices h hplace (Lexer.sameMode_start _ _) hdone hdisplaced hrest hquoted

/-- Edits between quotes leave the kinds of the tokens as they are. -/
theorem lexemize_of_splices (h : lexemize source = .ok (tokens, comments))
    (hsplices : Edit.Splices 0 edits source out)
    (hquoted : ∀ e ∈ edits, e.IsQuoted source edits tokens) :
    ∃ tokens' comments', lexemize out = .ok (tokens', comments') ∧
      tokens'.map Token.kind = tokens.map Token.kind := by
  obtain ⟨tokens', comments', htokens, hmoved⟩ := lexemize_moved h hsplices hquoted
  refine ⟨tokens', comments', htokens, ?_⟩
  have hkinds : List.Forall₂ (· = ·) (tokens'.map Token.kind) (tokens.map Token.kind) := by
    rw [List.forall₂_map_left_iff, List.forall₂_map_right_iff]
    exact (hmoved.imp fun t t' h => h.kind).flip
  exact List.forall₂_eq_eq_eq ▸ hkinds

end Splices

end EsModules
