import EsModules.Module.Format
import EsModules.Proofs.Token.Stripped

/-!
# Sources without their comments

What tells the format of a source may look at it without its comments.  These are cut out with
nothing put in their place, so that what stood on both sides of one comes together.

* `stripComments_keepsTokens`: when the tokens stay as they are.
* `stripComments_joinsWords`: they do not always.
-/

namespace EsModules

variable {source : List Char} {tokens : List Token} {comments : List Span}

/-- A part that a source has at a place can be cut out there. -/
theorem Format.piece_of_covers {start stop : Nat} {text : List Char}
    (h : (⟨start, stop⟩ : Span).Covers source text) :
    withoutSpans.piece source start stop = .ok text := by
  unfold withoutSpans.piece
  rw [Text.slice?_eq_some_iff.2 h]

/-- Spans that follow one another are taken out of a source as edits that put nothing in their
place. -/
theorem Format.withoutSpans_of_splices {spans : List Span} {taken rest out : List Char}
    {offset : Nat} (hsource : source = taken ++ rest) (hoffset : offset = Text.byteLength taken)
    (h : Edit.Splices offset (spans.map Edit.erase) rest out) :
    withoutSpans source offset spans = .ok out := by
  induction spans generalizing taken rest out offset with
  | nil =>
    cases h
    exact piece_of_covers ⟨taken, [], by rw [hsource, List.append_nil], hoffset,
      by rw [hsource, Text.byteLength_append]⟩
  | cons s spans ih =>
    cases h with
    | @edit _ _ _ gap old rest out start stop more =>
      have hfront : withoutSpans.piece source offset s.start = .ok gap :=
        piece_of_covers ⟨taken, old ++ rest, hsource, hoffset, by rw [← hoffset]; exact start⟩
      have hsource' : source = (taken ++ (gap ++ old)) ++ rest := by
        rw [hsource]
        simp
      have hstop : s.stop = Text.byteLength (taken ++ (gap ++ old)) := by
        simp only [Text.byteLength_append, ← hoffset]
        exact stop.trans (by rw [start, Nat.add_assoc])
      have hback := ih hsource' hstop more
      unfold withoutSpans
      rw [hfront]
      exact congrArg (fun found : Except Fault (List Char) =>
        found.bind fun back => .ok (gap ++ back)) hback

/-- What stripping the comments of a source leaves. -/
theorem stripComments_of_splices {out : List Char} (h : tokenize source = .ok (tokens, comments))
    (hsplices : Edit.Splices 0 (comments.map Edit.erase) source out) :
    Format.stripComments source = .ok out := by
  have hspans : commentSpans source = .ok comments := by
    unfold commentSpans
    rw [h]
    rfl
  unfold Format.stripComments
  rw [hspans]
  have hsource : source = [] ++ source := rfl
  exact Format.withoutSpans_of_splices hsource rfl hsplices

/-- Taking out makes no text longer. -/
theorem Edit.Splices.byteLength_le {spans : List Span} {offset : Nat} {rest out : List Char}
    (h : Edit.Splices offset (spans.map Edit.erase) rest out) :
    Text.byteLength out ≤ Text.byteLength rest := by
  induction spans generalizing offset rest out with
  | nil =>
    cases h
    exact Nat.le_refl _
  | cons s spans ih =>
    cases h with
    | @edit _ _ _ gap old rest out start stop more =>
      have hle := ih more
      show Text.byteLength (gap ++ ([] ++ out)) ≤ _
      simp only [Text.byteLength_append, Text.byteLength_nil]
      omega

namespace Lexer

/-- What is left of a source gives the same tokens and no comment exactly if it does not start with
a line that is a comment, and each token ends in front of what then follows it. -/
theorem exists_stripped (h : lexemize source = .ok (tokens, comments)) :
    ∃ out, Edit.Splices 0 (comments.map Edit.erase) source out ∧
      ((∃ tokens', lexemize out = .ok (tokens', []) ∧
          List.Forall₂ (Token.SameIn source out) tokens tokens') ↔
        ¬ ['#', '!'] <+: out ∧ ∀ t ∈ tokens, t.KeepsEnd source comments) := by
  obtain ⟨gap, hsource, hpos, hgap, howed⟩ := start_gap source
  have hplace : Stands source (start source) := .between gap hsource hpos howed
  have hcomments : ∀ s ∈ (start source).commentPlaces, s.start ≤ (start source).pos := by
    intro s hs
    have hbounds := hgap.splices.bounds _ (List.mem_map_of_mem hs)
    dsimp only [Edit.erase] at hbounds
    omega
  obtain ⟨more, out, rfl, hmore, hrepeats⟩ := lexemes_beside h hplace hcomments
  have hsplices : Edit.Splices 0 (((start source).commentPlaces ++ more).map Edit.erase) source
      out := by
    rw [howed, Nat.add_zero, hpos, ← Nat.zero_add (Text.byteLength gap)] at hmore
    rw [List.map_append]
    have happend := hgap.splices.append hmore
    rwa [← hsource] at happend
  refine ⟨out, hsplices, ?_⟩
  by_cases hmark : ['#', '!'] <+: out
  · refine iff_of_false ?_ fun h => h.1 hmark
    rintro ⟨tokens', htokens, -⟩
    obtain ⟨r, rfl⟩ := hmark
    have hnone := (comments_of_tokens htokens).1.length_le
    exact absurd hnone (Nat.not_succ_le_zero 0)
  · have hstart : start out = ⟨out, 0, 0, true, false, [], []⟩ :=
      start_of_ne fun r hr => hmark ⟨r, hr.symm⟩
    have hrest : (start out).rest = out := by rw [hstart]
    have hplace' : Stands out (start out) :=
      .between [] (by rw [hrest]; rfl) (by rw [hstart]; rfl) (by rw [hstart])
    rw [← hrepeats (sameMode_start source out) hplace' hrest, and_iff_right hmark]
    unfold Repeats lexemize
    rw [hstart]

end Lexer

/-- **Stripping comments.**  What is left of a source of less than 4 GiB that can be cut up is the
source with just the places of the comments cut out, and this is what tells its format.  It can be
cut up into the same tokens and no comment exactly if it does not start with a line that is a
comment, and each token still ends in front of what then follows it; in that case there is nothing
more to strip. -/
theorem stripComments_keepsTokens (h : tokenize source = .ok (tokens, comments))
    (hsize : Text.byteLength source < 2 ^ 32 - 1) :
    ∃ out, Format.stripComments source = .ok out ∧
      Edit.Splices 0 (comments.map Edit.erase) source out ∧
      Format.ofSource true source = .ok (Format.ofText out) ∧
      ((∃ tokens', tokenize out = .ok (tokens', []) ∧
          List.Forall₂ (Token.SameIn source out) tokens tokens') ↔
        ¬ ['#', '!'] <+: out ∧ ∀ t ∈ tokens, t.KeepsEnd source comments) ∧
      ∀ tokens', tokenize out = .ok (tokens', []) → Format.stripComments out = .ok out := by
  obtain ⟨out, hsplices, hrepeats⟩ := Lexer.exists_stripped ((tokenize_eq_ok_of_lt hsize).1 h)
  have hstrip := stripComments_of_splices h hsplices
  have hshort : Text.byteLength out < 2 ^ 32 - 1 := Nat.lt_of_le_of_lt hsplices.byteLength_le hsize
  refine ⟨out, hstrip, hsplices, ?_, ?_, fun tokens' htokens => ?_⟩
  · unfold Format.ofSource Format.prepare
    rw [if_pos rfl, hstrip]
    rfl
  · simp only [tokenize_eq_ok_of_lt hshort]
    exact hrepeats
  · exact stripComments_of_splices htokens .done

/-- Between spaces and at the end a comment is stripped and the tokens stay. -/
theorem stripComments_keepsTokens_spaced :
    tokenize "a /* x */+ b//y".toList =
        .ok ([⟨.identifier, ⟨0, 1⟩⟩, ⟨.punct .plus, ⟨9, 10⟩⟩, ⟨.identifier, ⟨11, 12⟩⟩],
          [⟨2, 9⟩, ⟨12, 15⟩]) ∧
      ∃ out, Format.stripComments "a /* x */+ b//y".toList = .ok out ∧
        Edit.Splices 0 ([⟨2, 9⟩, ⟨12, 15⟩].map Edit.erase) "a /* x */+ b//y".toList out ∧
        Format.ofSource true "a /* x */+ b//y".toList = .ok (Format.ofText out) ∧
        ((∃ tokens', tokenize out = .ok (tokens', []) ∧
            List.Forall₂ (Token.SameIn "a /* x */+ b//y".toList out)
              [⟨.identifier, ⟨0, 1⟩⟩, ⟨.punct .plus, ⟨9, 10⟩⟩, ⟨.identifier, ⟨11, 12⟩⟩] tokens') ↔
          ¬ ['#', '!'] <+: out ∧
            ∀ t ∈ ([⟨.identifier, ⟨0, 1⟩⟩, ⟨.punct .plus, ⟨9, 10⟩⟩, ⟨.identifier, ⟨11, 12⟩⟩] :
              List Token), t.KeepsEnd "a /* x */+ b//y".toList [⟨2, 9⟩, ⟨12, 15⟩]) ∧
        ∀ tokens', tokenize out = .ok (tokens', []) → Format.stripComments out = .ok out :=
  have h : tokenize "a /* x */+ b//y".toList =
      .ok ([⟨.identifier, ⟨0, 1⟩⟩, ⟨.punct .plus, ⟨9, 10⟩⟩, ⟨.identifier, ⟨11, 12⟩⟩],
        [⟨2, 9⟩, ⟨12, 15⟩]) := by decide +kernel
  ⟨h, stripComments_keepsTokens h (by decide)⟩

/-- A comment between two words is stripped, and the two become one: the tokens are not those of
the source. -/
theorem stripComments_joinsWords :
    ¬ ∀ source tokens comments, tokenize source = .ok (tokens, comments) →
      ∃ out tokens', Format.stripComments source = .ok out ∧ tokenize out = .ok (tokens', []) ∧
        tokens'.map (fun t => (t.kind, t.span.text out)) =
          tokens.map fun t => (t.kind, t.span.text source) := by
  intro h
  have htokens : tokenize "a/**/b".toList =
      .ok ([⟨.identifier, ⟨0, 1⟩⟩, ⟨.identifier, ⟨5, 6⟩⟩], [⟨1, 5⟩]) := by decide +kernel
  have hstrip : Format.stripComments "a/**/b".toList = .ok "ab".toList := by decide +kernel
  have hjoined : tokenize "ab".toList = .ok ([⟨.identifier, ⟨0, 2⟩⟩], []) := by decide +kernel
  obtain ⟨out, tokens', hout, htokens', hsame⟩ := h _ _ _ htokens
  obtain rfl := Except.ok.inj (hstrip.symm.trans hout)
  obtain ⟨rfl, -⟩ := Prod.mk.inj (Except.ok.inj (hjoined.symm.trans htokens'))
  exact absurd (congrArg List.length hsame) (by decide)

end EsModules
