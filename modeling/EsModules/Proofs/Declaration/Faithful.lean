import EsModules.Declaration.Analyzer
import EsModules.Proofs.Declaration.PatchedParts
import EsModules.Proofs.Declaration.PatchedShapes
import EsModules.Proofs.Declaration.Sites
import EsModules.Proofs.Pattern.Steady

/-!
# What records say about their places

A record covers its text in the source, and its specifier is what stands between two quotes, without
the spaces next to them.  That the specifier does not start with a space is no property of the shape,
which allows for one: it is so because the spaces behind the opening quote are taken greedily, and
no way to go on is open behind fewer of them that is not open behind all.

* `Specifier.IsQuoted`: a specifier between quotes.
* `Shape.Tidy`: shapes whose attempts remember quoted specifiers only; `tidy_quoted` is the case with
  an argument in it, and the others are put together from it.
* `records_faithful`: the places of all records.
-/

namespace EsModules

open Pattern

variable {source : List Char}

/-! ## Specifiers between quotes -/

/-- A specifier is a text of one line between two quotes of one kind, without the spaces next to
them. -/
structure Specifier.IsQuoted (source : List Char) (s : Specifier) : Prop where
  /-- It reads what stands in its place. -/
  reads : s.Reads source
  ne_nil : s.text ≠ []
  /-- It starts with no space. -/
  first : ∀ c ∈ s.text.head?, Ascii.isSpace c = false
  /-- It ends in no space. -/
  last : ∀ c ∈ s.text.getLast?, Ascii.isSpace c = false
  line : '\n' ∉ s.text
  /-- Around it stand spaces, and around these the quotes. -/
  quotes : ∃ quote front lead trail back, (quote = '"' ∨ quote = '\'') ∧ quote ∉ s.text ∧
    source = front ++ (quote :: lead ++ (s.text ++ (trail ++ quote :: back))) ∧
    s.span.start = Text.byteLength (front ++ quote :: lead) ∧
    (∀ c ∈ lead, Ascii.isSpace c = true) ∧ ∀ c ∈ trail, Ascii.isSpace c = true

/-- The place behind a text is a place of the same source. -/
theorem Cursor.At.past {before : Option Char} {pos : Nat} {text rest : List Char}
    (h : Cursor.At source ⟨before, pos, text ++ rest⟩) :
    (Cursor.past before pos text rest).At source := by
  induction text generalizing before pos with
  | nil => exact h
  | cons c text ih =>
    rw [Cursor.past_cons]
    exact ih h.cons

namespace Shape

variable {β : Type} {p q : Pattern Part} {c c' : Cursor} {caps caps' : Captures Part} {start : Nat}

/-- What was remembered from a place on up to another: every specifier lies between the two and
stands between quotes. -/
structure KeepsQuotes (source : List Char) (start : Nat) (c : Cursor) (caps : Captures Part) :
    Prop where
  place : c.At source
  start_le : start ≤ c.pos
  isQuoted : ∀ s, (Part.specifier, s) ∈ caps → start ≤ s.start ∧ s.stop ≤ c.pos ∧
    Specifier.IsQuoted source ⟨s.text source, s⟩

/-- An attempt at a shape remembers quoted specifiers only, if what follows asks for the place
alone. -/
structure Tidy (source : List Char) (p : Pattern Part) : Prop where
  keeps : ∀ {β : Type} {k : Follow Part β} {start : Nat} {c : Cursor} {caps : Captures Part} {b : β},
    Steady k → KeepsQuotes source start c caps → p.attempt c caps k = some b →
      ∃ c' caps', KeepsQuotes source start c' caps' ∧ k c' caps' = some b

theorem tidy_of_forgets (hp : p.forgets .specifier = true) : Tidy source p := by
  constructor
  intro β k start c caps b _ hkeeps h
  obtain ⟨c', caps', hmatch, hk⟩ := exists_matches_of_attempt h
  obtain ⟨hat, hle⟩ := hmatch.at hkeeps.place
  refine ⟨c', caps', ⟨hat, Nat.le_trans hkeeps.start_le hle, fun s hs => ?_⟩, hk⟩
  obtain ⟨hstart, hstop, hquoted⟩ := hkeeps.isQuoted s (hmatch.mem_of_forgets hp hs)
  exact ⟨hstart, Nat.le_trans hstop hle, hquoted⟩

theorem Tidy.append (hp : Tidy source p) (hq : Tidy source q) : Tidy source (p ++ q) := by
  constructor
  intro β k start c caps b hk hkeeps h
  obtain ⟨c', caps', hkeeps', h'⟩ := hp.keeps (hk.followedBy q) hkeeps h
  exact hq.keeps hk hkeeps' h'

theorem Tidy.alt (hp : Tidy source p) (hq : Tidy source q) : Tidy source (alt p q) := by
  constructor
  intro β k start c caps b hk hkeeps h
  rw [attempt, Option.orElse_eq_or] at h
  rcases Option.or_eq_some_iff.1 h with h | ⟨-, h⟩
  · exact hp.keeps hk hkeeps h
  · exact hq.keeps hk hkeeps h

theorem Tidy.orNothing (hp : Tidy source p) : Tidy source (orNothing p) :=
  hp.alt (tidy_of_forgets rfl)

/-! ## The specifier -/

variable {quote : Char}

/-- The characters of a specifier, the last of which is no space. -/
def content (quote : Char) : Pattern Part :=
  run (isSpecifierChar quote) ++ char (isSpecifierEnd quote)

/-- What is asked behind the spaces that follow an opening quote. -/
def behindSpaces (quote : Char) (k : Follow Part β) : Follow Part β := fun c caps =>
  (content quote).attempt c caps fun c' caps' =>
    (spaces ++ char (· == quote)).attempt c' ((Part.specifier, ⟨c.pos, c'.pos⟩) :: caps') k

theorem attempt_quoted (k : Follow Part β) : (quoted quote).attempt c caps k =
    (char (· == quote)).attempt c caps ((spaces : Pattern Part).followedBy
      (behindSpaces quote k)) := rfl

/-- A content that starts with a space is one without it too. -/
theorem matches_content_tail {before : Option Char} {pos : Nat} {a : Char} {rest : List Char}
    (ha : Ascii.isSpace a = true)
    (h : Matches (content quote) ⟨before, pos, a :: rest⟩ caps c' caps') :
    Matches (content quote) ⟨some a, pos + a.utf8Size, rest⟩ caps c' caps' := by
  cases h with
  | seq hrun hend =>
    cases hrun with
    | manyDone =>
      cases hend with
      | char hlast =>
        simp [isSpecifierEnd, ha] at hlast
    | manyMore _ hchar hmany =>
      cases hchar
      exact .seq hmany hend

/-- Behind a space what follows the opening quote succeeds if it does in front of the space. -/
theorem isSome_behindSpaces {k : Follow Part β} (hk : Steady k) {before : Option Char} {pos : Nat}
    {a : Char} {rest : List Char} (ha : Ascii.isSpace a = true)
    (h : (behindSpaces quote k ⟨before, pos, a :: rest⟩ caps).isSome = true) :
    (behindSpaces quote k ⟨some a, pos + a.utf8Size, rest⟩ caps).isSome = true := by
  obtain ⟨c', caps', hmatch, hsome⟩ := isSome_attempt_iff.1 h
  refine isSome_attempt_of_matches (matches_content_tail ha hmatch) ?_
  exact hk.followedBy _ _ _ _ hsome

theorem exists_text_of_content (h : Matches (content quote) c caps c' caps') :
    ∃ word last, (∀ a ∈ word, isSpecifierChar quote a = true) ∧
      isSpecifierEnd quote last = true ∧ c.rest = word ++ last :: c'.rest ∧
      c' = .past c.before c.pos (word ++ [last]) c'.rest ∧ caps' = caps := by
  cases h with
  | seq hrun hend =>
    obtain ⟨word, hword, hrest, hpast, rfl⟩ := hrun.exists_text
    cases hend with
    | @char _ before pos last rest _ hlast =>
      refine ⟨word, last, hword, hlast, hrest, ?_, rfl⟩
      simp only [Cursor.past, Cursor.mk.injEq, Text.byteLength_append, Text.byteLength_cons,
        Text.byteLength_nil, List.getLast?_concat] at hpast ⊢
      refine ⟨by simp, ?_, trivial⟩
      omega

/-- The content of quotes stands between them as a specifier should. -/
theorem isQuoted_of_content (hquote : quote = '"' ∨ quote = '\'')
    {front lead word trail back : List Char} {last : Char}
    (hsource : source = front ++ (quote :: lead ++ (word ++ [last] ++ (trail ++ quote :: back))))
    (hlead : ∀ a ∈ lead, Ascii.isSpace a = true) (htrail : ∀ a ∈ trail, Ascii.isSpace a = true)
    (hfirst : ∀ a ∈ (word ++ [last]).head?, Ascii.isSpace a = false)
    (hword : ∀ a ∈ word, isSpecifierChar quote a = true)
    (hlast : isSpecifierEnd quote last = true) :
    Specifier.IsQuoted source ⟨word ++ [last],
      ⟨Text.byteLength (front ++ quote :: lead),
        Text.byteLength (front ++ quote :: lead) + Text.byteLength (word ++ [last])⟩⟩ := by
  simp only [isSpecifierEnd, Bool.and_eq_true, bne_iff_ne, Bool.not_eq_true'] at hlast
  simp only [isSpecifierChar, Bool.and_eq_true, bne_iff_ne] at hword
  have hnot {a : Char} (hchar : ∀ b ∈ word, b ≠ a) (hend : last ≠ a) : a ∉ word ++ [last] := by
    intro ha
    rcases List.mem_append.1 ha with ha | ha
    · exact hchar a ha rfl
    · exact hend (List.mem_singleton.1 ha).symm
  have hline : last ≠ '\n' := by
    rintro rfl
    exact absurd hlast.2 (by decide)
  exact
    { reads := ⟨front ++ quote :: lead, trail ++ quote :: back, by rw [hsource]; simp, rfl, rfl⟩
      ne_nil := by simp
      first := hfirst
      last := by simpa using hlast.2
      line := hnot (fun b hb => (hword b hb).2) hline
      quotes := ⟨quote, front, lead, trail, back, hquote,
        hnot (fun b hb => (hword b hb).1) hlast.1, hsource, rfl, hlead, htrail⟩ }

/-- **Quoted specifiers.**  The spaces behind the opening quote are all taken, since what follows
them succeeds behind all of them if it does behind some. -/
theorem tidy_quoted (hquote : quote = '"' ∨ quote = '\'') : Tidy source (quoted quote) := by
  constructor
  intro β k start c caps b hk hkeeps h
  rw [attempt_quoted] at h
  obtain ⟨c₁, caps₁, hopen, hspaces⟩ := exists_matches_of_attempt h
  cases hopen with
  | @char _ before pos a rest _ ha =>
  obtain rfl := eq_of_beq ha
  obtain ⟨lead, rest, rfl, hlead, hrest, hbehind⟩ :=
    exists_of_attempt_run (fun _ _ _ _ => isSome_behindSpaces hk) hspaces
  obtain ⟨c₂, caps₂, hcontent, hafter⟩ := exists_matches_of_attempt hbehind
  obtain ⟨word, last, hword, hlast, htext, hpast, rfl⟩ := exists_text_of_content hcontent
  obtain ⟨c₃, caps₃, hclose, hfollow⟩ := exists_matches_of_attempt hafter
  obtain ⟨hat, hle⟩ := hclose.at (hcontent.at hkeeps.place.cons.past).1
  obtain ⟨front, hsource, hpos, -⟩ := hkeeps.place
  have hstartLe := hkeeps.start_le
  cases hclose with
  | seq hgap hchar =>
  obtain ⟨trail, htrail, hgapRest, -, rfl⟩ := hgap.exists_text
  cases hchar with
  | @char _ before' pos' a' back _ ha' =>
  obtain rfl := eq_of_beq ha'
  dsimp only [Cursor.past] at hpos hstartLe hle htext hgapRest
  have hrestText : rest = word ++ [last] ++ (trail ++ a' :: back) := by
    simpa [hgapRest] using htext
  -- the part that is remembered is the content in its place
  have hstart : (Cursor.past (some a') (pos + a'.utf8Size) lead rest).pos =
      Text.byteLength (front ++ a' :: lead) := by
    simp only [Cursor.past, Text.byteLength_append, Text.byteLength_cons, hpos]
    omega
  have hstop : c₂.pos = Text.byteLength (front ++ a' :: lead) +
      Text.byteLength (word ++ [last]) := by
    rw [hpast, ← hstart]
    rfl
  have hquoted := isQuoted_of_content hquote (by simpa [hrestText] using hsource) hlead htrail
    (by simpa [hrestText] using hrest) hword hlast
  have hfront : start ≤ Text.byteLength (front ++ a' :: lead) := by
    rw [Text.byteLength_append]
    omega
  refine ⟨_, _, ⟨hat, by dsimp only; omega, fun s hs => ?_⟩, hfollow⟩
  rw [hstart, hstop] at hs
  rcases List.mem_cons.1 hs with heq | hs
  · obtain rfl := (Prod.mk.inj heq).2
    rw [hquoted.reads.text_eq]
    exact ⟨hfront, by dsimp only; omega, hquoted⟩
  · obtain ⟨hbegin, hend, hold⟩ := hkeeps.isQuoted s hs
    have hshift : pos ≤ Text.byteLength (front ++ a' :: lead) := by
      rw [Text.byteLength_append, hpos]
      omega
    dsimp only at hend
    exact ⟨hbegin, by dsimp only; omega, hold⟩

theorem tidy_specifier : Tidy source specifier :=
  (tidy_quoted (.inl rfl)).alt (tidy_quoted (.inr rfl))

/-! ## Shapes -/

theorem tidy_importEnd : Tidy source importEnd := tidy_specifier.append (tidy_of_forgets rfl)

theorem tidy_staticImport : Tidy source staticImport :=
  (tidy_of_forgets rfl).append tidy_importEnd

theorem tidy_typeImport : Tidy source typeImport := (tidy_of_forgets rfl).append tidy_importEnd

theorem tidy_fromClause : Tidy source fromClause :=
  ((tidy_of_forgets rfl).append tidy_specifier).append (tidy_of_forgets rfl)

theorem tidy_exportList : Tidy source exportList :=
  (tidy_of_forgets rfl).append tidy_fromClause.orNothing

theorem tidy_exportNamed : Tidy source exportNamed := (tidy_of_forgets rfl).append tidy_exportList

theorem tidy_exportNamedTypes : Tidy source exportNamedTypes :=
  (tidy_of_forgets rfl).append tidy_exportList

theorem tidy_exportStar : Tidy source exportStar :=
  (tidy_of_forgets rfl).append tidy_fromClause.orNothing

/-- In what a search for a tidy shape selects, the specifier lies within the match and stands between
quotes. -/
theorem Tidy.isQuoted_of_select {accept : Match Part → Bool} (hp : Tidy source p) :
    ∀ m ∈ p.select accept source, ∀ s, Specifier.ofMatch? source m = some s →
      m.span.encloses s.span = true ∧ s.IsQuoted source := by
  intro m hm s hs
  have hfront := (found_of_select m hm).1.front_at
  have hmatch := matchAt?_of_select m hm
  obtain ⟨front, back, captures⟩ := m
  have hkeeps : KeepsQuotes source front.pos front [] :=
    ⟨hfront, Nat.le_refl _, fun s hs => absurd hs List.not_mem_nil⟩
  obtain ⟨c', caps', hkeeps', hback⟩ := hp.keeps (fun _ _ _ _ => rfl) hkeeps hmatch
  obtain ⟨rfl, rfl⟩ : c' = back ∧ caps' = captures := by simpa using hback
  obtain ⟨span, hpart, rfl⟩ := Option.map_eq_some_iff.1 hs
  obtain ⟨part, hfind, rfl⟩ := Option.map_eq_some_iff.1 hpart
  have hlabel : part.1 = .specifier := by simpa using List.find?_some hfind
  obtain ⟨hstart, hstop, hquoted⟩ := hkeeps'.isQuoted part.2
    (hlabel ▸ List.mem_of_find?_eq_some hfind)
  exact ⟨Bool.and_eq_true_iff.2 ⟨decide_eq_true hstart, decide_eq_true hstop⟩, hquoted⟩

end Shape

/-! ## Records -/

/-- A record covers its text, and its specifier lies within it and stands between quotes. -/
structure Faithful (source code : List Char) (span : Span) (specifier : Option Specifier) : Prop where
  covers : span.Covers source code
  isQuoted : ∀ s ∈ specifier, span.encloses s.span = true ∧ s.IsQuoted source

/-- What a search finds covers its text. -/
theorem Pattern.Found.covers {p : Pattern Part} {m : Match Part} (h : Found p source m) :
    m.span.Covers source (m.span.text source) := by
  obtain ⟨hat, hle⟩ := h.matched.at h.front_at
  obtain ⟨text, hcovers⟩ := covers_of_at h.front_at hat hle
  show Span.Covers source (Span.text ⟨m.front.pos, m.back.pos⟩ source) ⟨m.front.pos, m.back.pos⟩
  rwa [hcovers.text_eq]

/-- What a search for a tidy shape selects is faithful. -/
theorem Shape.Tidy.faithful {p : Pattern Part} {accept : Match Part → Bool}
    (hp : Shape.Tidy source p) : ∀ m ∈ p.select accept source,
      Faithful source (m.span.text source) m.span (Specifier.ofMatch? source m) :=
  fun m hm => ⟨(found_of_select m hm).1.covers, hp.isQuoted_of_select m hm⟩

namespace StaticImport

theorem faithful_of_shape {shape : Pattern Part} {kind : ImportKind}
    (hshape : Shape.Tidy source shape) : ∀ i ∈ ofShape shape kind source,
      Faithful source i.code i.span (some i.specifier) := by
  intro i hi
  obtain ⟨m, hm, hmatch⟩ := List.mem_filterMap.1 hi
  obtain ⟨specifier, hspecifier, rfl⟩ := Option.map_eq_some_iff.1 hmatch
  rw [← hspecifier]
  exact hshape.faithful m hm

theorem faithful_of_typeCandidates : ∀ i ∈ typeCandidates source,
    Faithful source i.code i.span (some i.specifier) := by
  intro i hi
  rcases List.mem_append.1 (List.mem_mergeSort.1 hi) with hi | hi
  · exact faithful_of_shape Shape.tidy_typeImport i hi
  · exact faithful_of_shape Shape.tidy_staticImport i (List.mem_filter.1 hi).1

end StaticImport

namespace ExportRecord

/-- The records of a tidy shape are faithful if they take their texts and places from its
matches. -/
theorem faithful_of_shape {shape : Pattern Part} {record : Match Part → ExportRecord}
    (hshape : Shape.Tidy source shape) (hcode : ∀ m, (record m).code = m.span.text source)
    (hspan : ∀ m, (record m).span = m.span)
    (hspecifier : ∀ m, (record m).specifier = Specifier.ofMatch? source m) :
    ∀ r ∈ (shape.matchesIn source).map record, Faithful source r.code r.span r.specifier := by
  intro r hr
  obtain ⟨m, hm, rfl⟩ := List.mem_map.1 hr
  rw [hcode, hspan, hspecifier]
  exact hshape.faithful m hm

theorem code_ofDeclaration (m : Match Part) :
    (ofDeclaration source m).code = m.span.text source := by
  unfold ofDeclaration
  dsimp only
  split
  · split <;> rfl
  · rfl

theorem faithful_of_candidates : ∀ r ∈ candidates source,
    Faithful source r.code r.span r.specifier := by
  intro r hr
  obtain ⟨raw, hraw, rfl⟩ := List.mem_map.1 hr
  show Faithful source raw.code raw.span raw.specifier
  have hforgets {shape : Pattern Part} (h : shape.forgets .specifier = true) :
      Shape.Tidy source shape := Shape.tidy_of_forgets h
  simp only [List.mem_append] at hraw
  rcases hraw with ((((hraw | hraw) | hraw) | hraw) | hraw) | hraw
  · exact faithful_of_shape (hforgets rfl) code_ofDeclaration span_ofDeclaration
      specifier_ofDeclaration raw hraw
  · exact faithful_of_shape Shape.tidy_exportNamed (fun _ => rfl) (fun _ => rfl) (fun _ => rfl) raw
      hraw
  · exact faithful_of_shape (hforgets rfl) (fun _ => rfl) (fun _ => rfl) (fun _ => rfl) raw hraw
  · exact faithful_of_shape (hforgets rfl) (fun _ => rfl) (fun _ => rfl) (fun _ => rfl) raw hraw
  · exact faithful_of_shape (hforgets rfl) (fun _ => rfl) (fun _ => rfl) (fun _ => rfl) raw hraw
  · exact faithful_of_shape Shape.tidy_exportStar (fun _ => rfl) (fun _ => rfl) (fun _ => rfl) raw
      hraw

theorem faithful_of_typeCandidates : ∀ r ∈ typeCandidates source,
    Faithful source r.code r.span r.specifier := by
  intro r hr
  obtain ⟨raw, hraw, rfl⟩ := List.mem_map.1 hr
  show Faithful source raw.code raw.span raw.specifier
  rcases List.mem_append.1 hraw with hraw | hraw
  · exact faithful_of_shape (Shape.tidy_of_forgets rfl) (fun _ => rfl) (fun _ => rfl)
      (fun _ => rfl) raw hraw
  · exact faithful_of_shape Shape.tidy_exportNamedTypes (fun _ => rfl) (fun _ => rfl)
      (fun _ => rfl) raw hraw

end ExportRecord

namespace DynamicImport

/-- A call covers its text.  It has a literal exactly if its argument is a quoted text between
blanks, and the literal is what stands in its place between the two quotes. -/
structure IsFaithful (source : List Char) (d : DynamicImport) : Prop where
  covers : d.span.Covers source d.code
  literal : ∀ text, unquoted? (Text.trim d.argument) = some text ↔
    ∃ span, d.literal? = some ⟨text, span⟩
  quotes : ∀ s, d.literal? = some s → s.Reads source ∧ ∃ quote front back, isQuote quote = true ∧
    quote ∉ s.text ∧ source = front ++ quote :: (s.text ++ quote :: back) ∧
    s.span.start = Text.byteLength (front ++ [quote])

/-- The literal of a call stands between two quotes in the source. -/
theorem exists_quotes_of_literal? {d : DynamicImport} {s : Specifier}
    (hargument : d.argumentSpan.Covers source d.argument) (h : d.literal? = some s) :
    ∃ quote front back, isQuote quote = true ∧ quote ∉ s.text ∧
      source = front ++ quote :: (s.text ++ quote :: back) ∧
      s.span.start = Text.byteLength (front ++ [quote]) := by
  obtain ⟨lead, quote, tail, htext, -, -, hquote, hnot, -, hs, -⟩ := literal?_eq_some_iff.1 h
  obtain ⟨front, back, hsource, hstart, -⟩ := hargument
  refine ⟨quote, front ++ lead, tail ++ back, hquote, hnot, ?_, ?_⟩
  · rw [hsource, htext]
    simp
  · rw [hs, hstart]
    simp only [Text.byteLength_append, Text.byteLength_cons, Text.byteLength_nil,
      Patch.utf8Size_of_isQuote hquote]

theorem isFaithful_of_candidates : ∀ d ∈ candidates source, d.IsFaithful source := by
  intro d hd
  have hreads := reads_of_candidates d hd
  obtain ⟨m, hm, hmatch⟩ := List.mem_filterMap.1 hd
  obtain ⟨span, hpart, rfl⟩ := Option.map_eq_some_iff.1 hmatch
  have hfound := found_of_matchesIn m hm
  obtain ⟨argument, hargument⟩ := covers_of_part? hfound hpart
  refine ⟨hfound.covers, fun text => ?_, fun s hs => ⟨hreads s hs, ?_⟩⟩
  · rw [literal?]
    simp
  · refine exists_quotes_of_literal? ?_ hs
    show span.Covers source (span.text source)
    rwa [hargument.text_eq]

end DynamicImport

/-! ## Finders -/

/-- **Records are faithful to their places**, whatever the validator: each covers its text, and each
specifier lies within its record and stands between quotes. -/
theorem records_faithful (a : Analyzer) (source : List Char) :
    (∀ found, a.staticImports source = .ok found →
      ∀ i ∈ found, Faithful source i.code i.span (some i.specifier)) ∧
    (∀ found, a.typeImports source = .ok found →
      ∀ i ∈ found, Faithful source i.code i.span (some i.specifier)) ∧
    (∀ found, a.dynamicImports source = .ok found → ∀ d ∈ found, d.IsFaithful source) ∧
    (∀ found, a.exports source = .ok found →
      ∀ r ∈ found, Faithful source r.code r.span r.specifier) ∧
    ∀ found, a.typeExports source = .ok found →
      ∀ r ∈ found, Faithful source r.code r.span r.specifier := by
  refine ⟨fun found h i hi => ?_, fun found h i hi => ?_, fun found h d hd => ?_,
    fun found h r hr => ?_, fun found h r hr => ?_⟩
  · have hcandidate := Analyzer.mem_of_confirmed h i hi
    exact StaticImport.faithful_of_shape Shape.tidy_staticImport i hcandidate
  · exact StaticImport.faithful_of_typeCandidates i (Analyzer.mem_of_confirmed h i hi)
  · exact DynamicImport.isFaithful_of_candidates d (Analyzer.mem_of_confirmed h d hd)
  · obtain ⟨kept, hkept, rfl⟩ := map_eq_ok.1 h
    have hmem := List.mem_mergeSort.1 ((ExportRecord.collapse_sublist _).subset hr)
    exact ExportRecord.faithful_of_candidates r (Analyzer.mem_of_confirmed hkept r hmem)
  · obtain ⟨kept, hkept, rfl⟩ := map_eq_ok.1 h
    have hmem := (ExportRecord.collapse_sublist _).subset hr
    exact ExportRecord.faithful_of_typeCandidates r (Analyzer.mem_of_confirmed hkept r hmem)

/-- The spaces next to the quotes belong to the declaration, and not to its specifier. -/
theorem records_faithful_spaced :
    (Analyzer.standard.staticImports "import ' é '".toList =
        .ok [⟨.value, "import ' é '".toList, ⟨0, 13⟩, [], ⟨['é'], ⟨9, 11⟩⟩⟩] ∧
      Faithful "import ' é '".toList "import ' é '".toList ⟨0, 13⟩ (some ⟨['é'], ⟨9, 11⟩⟩)) ∧
    (∃ i, Analyzer.standard.typeImports "import type T from ' c'".toList = .ok [i] ∧
      Faithful "import type T from ' c'".toList i.code i.span (some i.specifier)) ∧
    (∃ d, Analyzer.standard.dynamicImports "import( \x60d\x60)".toList = .ok [d] ∧
      d.literal? = some ⟨['d'], ⟨9, 10⟩⟩ ∧ d.IsFaithful "import( \x60d\x60)".toList) ∧
    (∃ r, Analyzer.standard.exports "export * from \"x \"".toList = .ok [r] ∧
      Faithful "export * from \"x \"".toList r.code r.span r.specifier) ∧
    ∃ r, Analyzer.standard.typeExports "export type \x7b U \x7d from 'y'".toList = .ok [r] ∧
      Faithful "export type \x7b U \x7d from 'y'".toList r.code r.span r.specifier := by
  have hstatic : Analyzer.standard.staticImports "import ' é '".toList =
      .ok [⟨.value, "import ' é '".toList, ⟨0, 13⟩, [], ⟨['é'], ⟨9, 11⟩⟩⟩] := by
    repeat rw [String.toList_ofList]
    decide +kernel
  have htype : Analyzer.standard.typeImports "import type T from ' c'".toList =
      .ok [⟨.typeOnly, "import type T from ' c'".toList, ⟨0, 23⟩, "T ".toList,
        ⟨['c'], ⟨21, 22⟩⟩⟩] := by
    repeat rw [String.toList_ofList]
    decide +kernel
  have hdynamic : Analyzer.standard.dynamicImports "import( \x60d\x60)".toList =
      .ok [⟨"import( \x60d\x60)".toList, ⟨0, 12⟩, " \x60d\x60".toList, ⟨7, 11⟩⟩] := by
    repeat rw [String.toList_ofList]
    decide +kernel
  have hexport : Analyzer.standard.exports "export * from \"x \"".toList =
      .ok [⟨.star, none, "export * from \"x \"".toList, ⟨0, 18⟩, none, [],
        some ⟨['x'], ⟨15, 16⟩⟩, none, none, none⟩] := by
    repeat rw [String.toList_ofList]
    decide +kernel
  have htypeExport : Analyzer.standard.typeExports "export type \x7b U \x7d from 'y'".toList =
      .ok [⟨.named, none, "export type \x7b U \x7d from 'y'".toList, ⟨0, 26⟩, some ['U'], [['U']],
        some ⟨['y'], ⟨24, 25⟩⟩, none, none, none⟩] := by
    repeat rw [String.toList_ofList]
    decide +kernel
  refine ⟨⟨hstatic, ?_⟩, ⟨_, htype, ?_⟩, ⟨_, hdynamic, by decide +kernel, ?_⟩, ⟨_, hexport, ?_⟩,
    _, htypeExport, ?_⟩
  · exact (records_faithful _ _).1 _ hstatic _ List.mem_cons_self
  · exact (records_faithful _ _).2.1 _ htype _ List.mem_cons_self
  · exact (records_faithful _ _).2.2.1 _ hdynamic _ List.mem_cons_self
  · exact (records_faithful _ _).2.2.2.1 _ hexport _ List.mem_cons_self
  · exact (records_faithful _ _).2.2.2.2 _ htypeExport _ List.mem_cons_self

end EsModules
