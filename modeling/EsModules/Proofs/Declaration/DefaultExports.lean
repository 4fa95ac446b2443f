import EsModules.Proofs.Declaration.Openings
import EsModules.Proofs.Declaration.WrittenClause
import EsModules.Proofs.Token.Slices

/-!
# Default exports of a name

`export default` in front of a name is one export.  The words and characters whose values have no
name are looked for first, and without asking whether a word ends behind them, so that a name that
starts with one of them is cut off behind it and lost.

* `Shape.unnamedValue`: those words and characters.
* `Shape.matchAt?_unnamed`, `Shape.matchAt?_named`: what the shape of default exports finds.
* `Identifier.exports_default`: the name is kept exactly if it starts with none of them.
-/

namespace EsModules

open Pattern

/-! ## The shape of default exports -/

namespace Shape

/-- The words whose values have no name. -/
def unnamedWords : List String := ["async function", "function", "class", "true", "false"]

/-- The characters whose values have no name. -/
def isUnnamedStart (c : Char) : Bool := !Ascii.isWordChar c || Ascii.isDigit c

/-- What starts a value without a name. -/
def unnamedValue : Pattern Part := alt (oneWord unnamedWords) (char isUnnamedStart)

variable {β : Type} {before : Option Char} {pos : Nat} {caps caps' : Captures Part} {c c' : Cursor}
  {k : Follow Part β} {rest : List Char}

/-- A text is one of the words and characters that start a value without a name. -/
def IsUnnamed (w : List Char) : Prop :=
  (∃ word ∈ unnamedWords, w = word.toList) ∨ ∃ a, isUnnamedStart a = true ∧ w = [a]

theorem matches_unnamedValue_iff : Matches unnamedValue c caps c' caps' ↔
    ∃ w, IsUnnamed w ∧ c.rest = w ++ c'.rest ∧ c' = .past c.before c.pos w c'.rest ∧
      caps' = caps := by
  constructor
  · intro h
    cases h with
    | altFirst h =>
      obtain ⟨word, hword, hmatch⟩ := matches_oneWord_iff.1 h
      obtain ⟨hrest, hend, hcaps⟩ := hmatch.of_literal
      exact ⟨word.toList, .inl ⟨word, hword, rfl⟩, hrest, hend, hcaps⟩
    | altSecond h =>
      cases h with
      | @char _ before pos a rest _ ha => exact ⟨[a], .inr ⟨a, ha, rfl⟩, rfl, rfl, rfl⟩
  · rintro ⟨w, hw, hrest, hend, rfl⟩
    obtain ⟨before, pos, rest⟩ := c
    obtain rfl : rest = w ++ c'.rest := hrest
    rw [hend]
    rcases hw with ⟨word, hword, rfl⟩ | ⟨a, ha, rfl⟩
    · exact .altFirst (matches_oneWord_iff.2 ⟨word, hword, matches_literal _ _ _ _ _⟩)
    · exact .altSecond (.char ha)

/-- The front of a default export. -/
theorem attempt_exportDefaultFront (h : ∀ c ∈ rest.head?, Ascii.isSpace c = false) :
    exportDefaultFront.attempt (.start ("export default ".toList ++ rest)) [] k =
      k ⟨some ' ', 15, rest⟩ [] := by
  let behind : Follow Part β := (word "default").followedBy (spaces1.followedBy k)
  have hword : behind ⟨some ' ', 7, "default".toList ++ ' ' :: rest⟩ [] =
      spaces1.attempt ⟨some 't', 14, ' ' :: rest⟩ [] k :=
    attempt_literal "default".toList (' ' :: rest)
  show exportFront.attempt (.start ("export".toList ++ ' ' :: ("default".toList ++ ' ' :: rest))) []
    (spaces1.followedBy behind) = _
  rw [attempt_exportFront]
  show spaces1.attempt ⟨some 't', 6, ' ' :: ("default".toList ++ ' ' :: rest)⟩ [] behind = _
  rw [attempt_spaces1 (by rintro c ⟨⟩; rfl), hword, attempt_spaces1 h]

/-- What the shape finds is told by what its two halves find behind the front. -/
theorem matchAt?_exportDefault (h : ∀ c ∈ rest.head?, Ascii.isSpace c = false) {source : List Char}
    (hsource : source = "export default ".toList ++ rest) :
    exportDefault.matchAt? (.start source) =
      (unnamedValue.attempt ⟨some ' ', 15, rest⟩ [] fun back captures =>
          some ⟨.start source, back, captures⟩).orElse fun _ =>
        (capture .value (run isInLine)).attempt ⟨some ' ', 15, rest⟩ [] fun back captures =>
          some ⟨.start source, back, captures⟩ := by
  let found : Follow Part (Match Part) := fun back captures => some ⟨.start source, back, captures⟩
  have hshape : exportDefault = alt (exportDefaultFront ++ unnamedValue)
      (exportDefaultFront ++ capture .value (run isInLine)) := rfl
  have hhalves {p q : Pattern Part} :
      (alt (exportDefaultFront ++ p) (exportDefaultFront ++ q)).matchAt? (.start source) =
        (exportDefaultFront.attempt (.start source) [] (p.followedBy found)).orElse
          fun _ => exportDefaultFront.attempt (.start source) [] (q.followedBy found) := rfl
  rw [hshape, hhalves, hsource, attempt_exportDefaultFront h, attempt_exportDefaultFront h]
  subst hsource
  rfl

/-- A value that starts without a name is cut off behind its start. -/
theorem matchAt?_unnamed {w : List Char} (hw : IsUnnamed w) (hstart : w <+: rest)
    (hspace : ∀ c ∈ rest.head?, Ascii.isSpace c = false) {source : List Char}
    (hsource : source = "export default ".toList ++ rest) :
    ∃ w' s m, IsUnnamed w' ∧ rest = w' ++ s ∧ exportDefault.matchAt? (.start source) = some m ∧
      m.span = ⟨0, 15 + Text.byteLength w'⟩ ∧ m.captures = [] := by
  let found : Follow Part (Match Part) := fun back captures => some ⟨.start source, back, captures⟩
  obtain ⟨s, rfl⟩ := hstart
  have hmatch : Matches unnamedValue ⟨some ' ', 15, w ++ s⟩ [] (.past (some ' ') 15 w s) [] :=
    matches_unnamedValue_iff.2 ⟨w, hw, rfl, rfl, rfl⟩
  obtain ⟨m, hm⟩ := Option.isSome_iff_exists.1 (isSome_attempt_of_matches (k := found) hmatch rfl)
  obtain ⟨c', caps', hmatch', hc'⟩ := exists_matches_of_attempt hm
  obtain ⟨w', hw', hrest, hend, rfl⟩ := matches_unnamedValue_iff.1 hmatch'
  obtain rfl := Option.some.inj hc'
  refine ⟨w', c'.rest, ⟨.start source, c', []⟩, hw', hrest, ?_, ?_, rfl⟩
  · rw [matchAt?_exportDefault hspace hsource, hm]
    rfl
  · show Span.mk 0 c'.pos = _
    rw [hend]
    rfl

/-- Any other value is taken up to the end of its line. -/
theorem matchAt?_named {line : List Char} (hspace : ∀ c ∈ line.head?, Ascii.isSpace c = false)
    (hnamed : ∀ w, IsUnnamed w → ¬ w <+: line) (hline : ∀ c ∈ line, isInLine c = true)
    {source : List Char} (hsource : source = "export default ".toList ++ line) :
    ∃ m, exportDefault.matchAt? (.start source) = some m ∧
      m.span = ⟨0, 15 + Text.byteLength line⟩ ∧
      m.captures = [(.value, ⟨15, 15 + Text.byteLength line⟩)] := by
  let found : Follow Part (Match Part) := fun back captures => some ⟨.start source, back, captures⟩
  have hfirst : unnamedValue.attempt ⟨some ' ', 15, line⟩ [] found = none := by
    refine attempt_eq_none fun c' caps' hmatch => ?_
    obtain ⟨w, hw, hrest, -⟩ := matches_unnamedValue_iff.1 hmatch
    exact absurd ⟨c'.rest, hrest.symm⟩ (hnamed w hw)
  let value : Follow Part (Match Part) := fun c caps => found c ((Part.value, ⟨15, c.pos⟩) :: caps)
  have hrun : (run isInLine).attempt ⟨some ' ', 15, line ++ []⟩ [] value =
      value (.past (some ' ') 15 line []) [] := attempt_run hline nofun rfl
  rw [List.append_nil] at hrun
  refine ⟨⟨.start source, .past (some ' ') 15 line [], [(.value, ⟨15, 15 + Text.byteLength line⟩)]⟩,
    ?_, rfl, rfl⟩
  rw [matchAt?_exportDefault hspace hsource, hfirst]
  exact hrun

/-- No class follows where no space stands. -/
theorem matchAt?_exportDefaultClass (hspace : ∀ c ∈ rest, Ascii.isSpace c = false)
    {source : List Char} (hsource : source = "export default ".toList ++ rest) :
    exportDefaultClass.matchAt? (.start source) = none := by
  let found : Follow Part (Match Part) := fun back captures => some ⟨.start source, back, captures⟩
  have hshape : exportDefaultClass.matchAt? (.start source) =
      exportDefaultFront.attempt (.start source) []
        ((capture .declaration (word "class")).followedBy
          (spaces1.followedBy ((capture Part.name identifier).followedBy found))) := rfl
  rw [hshape, hsource, attempt_exportDefaultFront fun c hc => hspace c (List.mem_of_mem_head? hc)]
  refine attempt_eq_none fun c' caps' hmatch => attempt_eq_none fun c'' caps'' hspaces => ?_
  cases hmatch with
  | capture hword =>
    obtain ⟨hrest, -⟩ := hword.of_literal
    cases hspaces with
    | seq hfirst _ =>
      cases hfirst with
      | @char _ _ _ a r _ ha =>
        have hsplit : rest = "class".toList ++ a :: r := hrest
        rw [hspace a (hsplit ▸ List.mem_append_right _ List.mem_cons_self)] at ha
        cases ha

end Shape

namespace ExportRecord

variable {source : List Char}

/-- The record of a default export, given what was found. -/
structure IsDefault (source : List Char) (m : Match Part) (r : ExportRecord) : Prop where
  kind : r.kind = .default
  name : r.name = some "default".toList
  names : r.names = ["default".toList]
  span : r.span = m.span
  code : r.code = m.span.text source
  defaultName : r.defaultName = (m.part? .value).bind fun s => defaultText? (s.text source)

theorem isDefault_ofDefault (m : Match Part) : (ofDefault source m).normalize.IsDefault source m :=
  ⟨rfl, rfl, rfl, rfl, rfl, rfl⟩

end ExportRecord

/-! ## Names -/

namespace Identifier

/-- The fronts of names that are taken for values without a name. -/
def lostFronts : List String := ["function", "class", "true", "false", "$"]

variable (x : Identifier)

/-- The line that exports a name by default. -/
def defaultLine : List Char := "export default ".toList ++ (x.text ++ [';'])

theorem forall_mem_value (test : Char → Bool) (hname : ∀ c, isNameChar c = true → test c = true)
    (hend : test ';' = true) : ∀ c ∈ x.text ++ [';'], test c = true := by
  intro c hc
  rcases List.mem_append.1 hc with hc | hc
  · exact hname c (x.isNameChar_of_mem hc)
  · rw [List.mem_singleton.1 hc]
    exact hend

theorem isSpace_value : ∀ c ∈ x.text ++ [';'], Ascii.isSpace c = false := by
  have h := x.forall_mem_value (fun c => !Ascii.isSpace c)
    (fun c hc => by simp [isSpace_of_isNameChar hc]) rfl
  simpa using h

/-- Where a value without a name seems to start in front of a name, its start is one of the lost
fronts. -/
theorem exists_lostFront {w : List Char} (hw : Shape.IsUnnamed w)
    (hbegins : w <+: x.text ++ [';']) : ∃ word ∈ lostFronts, w = word.toList := by
  rcases hw with ⟨word, hword, rfl⟩ | ⟨a, ha, rfl⟩
  · have hspace : ' ' ∉ word.toList := fun hmem => by
      have h := x.isSpace_value ' ' (hbegins.subset hmem)
      cases h
    have hwords : ∀ w ∈ Shape.unnamedWords, ' ' ∈ w.toList ∨ w ∈ lostFronts := by decide
    exact ⟨word, (hwords word hword).resolve_left hspace, rfl⟩
  · obtain ⟨c, t, hct⟩ := List.exists_cons_of_ne_nil x.text_ne_nil
    rw [hct] at hbegins
    obtain ⟨rfl, -⟩ := List.cons_prefix_cons.1 hbegins
    have hname := x.isNameChar_of_mem (hct ▸ List.mem_cons_self)
    have hdigit : Ascii.isDigit a = false := by
      have h := (Bool.and_eq_true_iff.1 x.isIdentifier).2
      simpa [hct] using h
    have hword : Ascii.isWordChar a = false := by simpa [Shape.isUnnamedStart, hdigit] using ha
    obtain rfl : a = '$' := by simpa [isNameChar, hword] using hname
    exact ⟨"$", by decide, rfl⟩

theorem isUnnamed_lostFront : ∀ word ∈ lostFronts, Shape.IsUnnamed word.toList := by
  have hwords : ∀ word ∈ lostFronts, word ∈ Shape.unnamedWords ∨ word = "$" := by decide
  intro word hword
  rcases hwords word hword with hword | rfl
  · exact .inl ⟨word, hword, rfl⟩
  · exact .inr ⟨'$', rfl, rfl⟩

/-- A front that does not hold the semicolon lies within the name. -/
theorem prefix_value_iff {w : List Char} (hw : ';' ∉ w) :
    w <+: x.text ++ [';'] ↔ w <+: x.text := by
  refine ⟨fun h => ?_, fun h => h.trans (List.prefix_append _ _)⟩
  rw [List.prefix_concat_iff] at h
  refine h.resolve_left ?_
  rintro rfl
  simp at hw

/-- Nothing is dropped behind a name. -/
theorem dropWhile_reverse {test : Char → Bool} (h : ∀ c, isNameChar c = true → test c = false) :
    (x.text.reverse.dropWhile test).reverse = x.text := by
  have hname : ∀ c ∈ x.text.reverse, test c = false := fun c hc =>
    h c (x.isNameChar_of_mem (List.mem_reverse.1 hc))
  cases hreverse : x.text.reverse with
  | nil => exact absurd (List.reverse_eq_nil_iff.1 hreverse) x.text_ne_nil
  | cons c t =>
    rw [List.dropWhile_cons_of_neg (by simp [hname c (by simp [hreverse])]), ← hreverse,
      List.reverse_reverse]

/-- The value of a default export is the name. -/
theorem defaultText?_value : ExportRecord.defaultText? (x.text ++ [';']) = some x.text := by
  have hblank : ∀ c ∈ x.text ++ [';'], Text.isBlank c = false := by
    have h := x.forall_mem_value (fun c => !Text.isBlank c)
      (fun c hc => by simp [isBlank_of_isNameChar hc]) (by decide)
    simpa using h
  have htrim : Text.trim (x.text ++ [';']) = x.text ++ [';'] := by
    have h := @Text.trim_append [] (x.text ++ [';']) [] nofun nofun (by simp)
      (fun c hc => hblank c (List.mem_of_mem_head? hc))
      (fun c hc => hblank c (List.mem_of_mem_getLast? hc))
    rwa [List.append_nil, List.nil_append] at h
  have hdrop : ((x.text ++ [';']).reverse.dropWhile (· == ';')).reverse = x.text := by
    rw [List.reverse_append, List.reverse_singleton, List.singleton_append,
      List.dropWhile_cons_of_pos (by decide)]
    exact x.dropWhile_reverse fun c hc => by simpa using ne_of_isNameChar hc (by decide)
  have hend : Text.trimEnd x.text = x.text := x.dropWhile_reverse fun _ => isBlank_of_isNameChar
  have hne : x.text.isEmpty = false := by simpa using x.text_ne_nil
  unfold ExportRecord.defaultText?
  rw [htrim, hdrop, hend]
  dsimp only
  rw [hne]
  rfl

/-! ## Lines -/

theorem tokenize_ne_overrun : tokenize x.defaultLine ≠ .error .overrun := by
  refine EsModules.tokenize_ne_overrun fun a b hab => ?_
  have hbrace : '\x7b' ∈ x.defaultLine := hab ▸ List.mem_append_right a List.mem_cons_self
  rcases List.mem_append.1 hbrace with h | h
  · exact absurd h (by decide)
  · have hname := x.forall_mem_value (fun c => c != '\x7b')
      (fun c hc => by simpa using ne_of_isNameChar hc (by decide)) rfl
    simpa using hname _ h

/-- Exports start at the front of the line only. -/
theorem start_of_opensAt {words : List String} (hwords : words ⊆ Shape.openings) {range : Span}
    (h : OpensAt x.defaultLine words range) : range.start = 0 := by
  have hfront : Shut "xport default ".toList ((x.text ++ [';']) ++ []) :=
    shut_of_notInfix (u := "xport default".toList) (d := ' ') (by decide) (by decide +kernel)
  have hname : Shut x.text ([';'] ++ []) := by
    refine shut_of_parts x.word.parts (fun c hc => ?_) fun _ hopens => ?_
    · obtain rfl := Option.some.inj hc
      decide
    · have hend := hopens.apart ';' rfl
      revert hend
      decide
  have hshut : Shut ("xport default ".toList ++ (x.text ++ [';'])) [] :=
    hfront.append (hname.append (shut_of_ne (by decide)))
  obtain ⟨a, b, hs, hstart, hopens⟩ := h
  have hsplit : x.defaultLine = "export".toList ++ (" default ".toList ++ (x.text ++ [';'])) := rfl
  have hat : OpensAt x.defaultLine Shape.openings range := ⟨a, b, hs, hstart, hopens.mono hwords⟩
  rw [hsplit] at hat
  exact hat.start_eq_zero hshut

/-- The line has one candidate, which is what the shape of default exports finds. -/
theorem candidates_eq {m : Match Part}
    (hm : Shape.exportDefault.matchAt? (.start x.defaultLine) = some m) :
    ExportRecord.candidates x.defaultLine =
      [(ExportRecord.ofDefault x.defaultLine m).normalize] := by
  have hother : ∀ {words : List String} {shape : Pattern Part}, Shape.GoesOnWith words shape →
      words ⊆ Shape.openings → (∀ w ∈ words, w.toList.head?.any (· != 'd') = true) →
        shape.matchesIn x.defaultLine = [] := by
    intro words shape hshape hwords hheads
    refine hshape.matchesIn_eq_nil (fun _ => x.start_of_opensAt hwords) ?_
    exact hshape.matchAt?_eq_none (b := ' ' :: 'd' :: ("efault ".toList ++ (x.text ++ [';'])))
      (not_opens_of_head rfl hheads)
  have hclass : Shape.exportDefaultClass.matchesIn x.defaultLine = [] :=
    Shape.goesOnWith_exportDefaultClass.matchesIn_eq_nil (fun _ => x.start_of_opensAt (by decide))
      (Shape.matchAt?_exportDefaultClass x.isSpace_value rfl)
  unfold ExportRecord.candidates
  rw [hother Shape.goesOnWith_exportDeclaration (by decide) (by decide),
    hother Shape.goesOnWith_exportNamed (by decide) (by decide),
    hother Shape.goesOnWith_exportDestructured (by decide) (by decide),
    Shape.goesOnWith_exportDefault.matchesIn_eq_singleton
      (fun _ => x.start_of_opensAt (by decide)) hm,
    hclass, hother Shape.goesOnWith_exportStar (by decide) (by decide)]
  rfl

/-- The line is the export that the shape of default exports finds. -/
theorem exports_eq {m : Match Part}
    (hm : Shape.exportDefault.matchAt? (.start x.defaultLine) = some m) (hstart : m.span.start = 0)
    (hstop : 6 ≤ m.span.stop) : Analyzer.standard.exports x.defaultLine =
      .ok [(ExportRecord.ofDefault x.defaultLine m).normalize] :=
  Analyzer.exports_of_single (s := " default ".toList ++ (x.text ++ [';'])) rfl
    (by rintro c ⟨⟩; decide) (x.candidates_eq hm) hstart hstop x.tokenize_ne_overrun

/-- What the shape finds covers the front of the line. -/
theorem text_of_span {w t : List Char} (h : x.text ++ [';'] = w ++ t) :
    (Span.mk 0 (15 + Text.byteLength w)).text x.defaultLine = "export default ".toList ++ w := by
  have hfront : Text.byteLength "export default ".toList = 15 := by decide
  have hcovers : Span.Covers x.defaultLine ("export default ".toList ++ w)
      ⟨0, 15 + Text.byteLength w⟩ := by
    refine ⟨[], t, ?_, rfl, ?_⟩
    · unfold defaultLine
      rw [h]
      exact (List.append_assoc _ _ _).symm
    · rw [Text.byteLength_append, Text.byteLength_nil, Nat.zero_add, hfront]
  exact hcovers.text_eq

/-- Only one of the lost fronts can be the front of a name. -/
theorem eq_of_lostFronts {front front' : String} (h : front ∈ lostFronts) (h' : front' ∈ lostFronts)
    {text : List Char} (hbegins : front.toList <+: text) (hbegins' : front'.toList <+: text) :
    front = front' := by
  have hall : ∀ a ∈ lostFronts, ∀ b ∈ lostFronts, a.toList <+: b.toList → a = b := by decide
  rcases List.prefix_or_prefix_of_prefix hbegins hbegins' with hle | hle
  · exact hall front h front' h' hle
  · exact (hall front' h' front h hle).symm

theorem isSpace_head : ∀ c ∈ (x.text ++ [';']).head?, Ascii.isSpace c = false := fun c hc =>
  x.isSpace_value c (List.mem_of_mem_head? hc)

/-- A name that starts with a lost front is cut off behind it. -/
theorem exports_lost {front : String} (hfront : front ∈ lostFronts)
    (hbegins : front.toList <+: x.text) :
    ∃ m r, Analyzer.standard.exports x.defaultLine = .ok [r] ∧ r.IsDefault x.defaultLine m ∧
      r.defaultName = none ∧ r.code = "export default ".toList ++ front.toList := by
  have hstart := hbegins.trans (List.prefix_append x.text [';'])
  obtain ⟨w, t, m, hw, hsplit, hm, hspan, hcaps⟩ :=
    Shape.matchAt?_unnamed (isUnnamed_lostFront front hfront) hstart x.isSpace_head rfl
  have hw' : w <+: x.text ++ [';'] := ⟨t, hsplit.symm⟩
  obtain ⟨front', hfront', rfl⟩ := x.exists_lostFront hw hw'
  obtain rfl := eq_of_lostFronts hfront hfront' hstart hw'
  have hexports := x.exports_eq hm (by rw [hspan]) (by rw [hspan]; dsimp only; omega)
  have hrecord := @ExportRecord.isDefault_ofDefault x.defaultLine m
  refine ⟨m, _, hexports, hrecord, ?_, ?_⟩
  · rw [hrecord.defaultName, Match.part?, hcaps]
    rfl
  · rw [hrecord.code, hspan]
    exact x.text_of_span hsplit

/-- Any other name is kept. -/
theorem exports_kept (hfronts : ∀ front ∈ lostFronts, ¬ front.toList <+: x.text) :
    ∃ m r, Analyzer.standard.exports x.defaultLine = .ok [r] ∧ r.IsDefault x.defaultLine m ∧
      r.defaultName = some x.text ∧ r.code = x.defaultLine := by
  have hnamed : ∀ w, Shape.IsUnnamed w → ¬ w <+: x.text ++ [';'] := by
    intro w hw hbegins
    obtain ⟨front, hfront, rfl⟩ := x.exists_lostFront hw hbegins
    have hsemicolon : ∀ front ∈ lostFronts, ';' ∉ front.toList := by decide
    exact hfronts front hfront ((x.prefix_value_iff (hsemicolon front hfront)).1 hbegins)
  have hline : ∀ c ∈ x.text ++ [';'], isInLine c = true :=
    x.forall_mem_value isInLine (fun c hc => bne_iff_ne.2 (ne_of_isNameChar hc (by decide))) rfl
  obtain ⟨m, hm, hspan, hcaps⟩ := Shape.matchAt?_named x.isSpace_head hnamed hline rfl
  have hexports := x.exports_eq hm (by rw [hspan]) (by rw [hspan]; dsimp only; omega)
  have hrecord := @ExportRecord.isDefault_ofDefault x.defaultLine m
  have hvalue : Span.Covers x.defaultLine (x.text ++ [';'])
      ⟨15, 15 + Text.byteLength (x.text ++ [';'])⟩ :=
    ⟨"export default ".toList, [], by rw [List.append_nil]; rfl, rfl, rfl⟩
  refine ⟨m, _, hexports, hrecord, ?_, ?_⟩
  · have hpart : m.part? .value = some ⟨15, 15 + Text.byteLength (x.text ++ [';'])⟩ := by
      rw [Match.part?, hcaps]
      rfl
    rw [hrecord.defaultName, hpart, Option.bind_some, hvalue.text_eq, defaultText?_value]
  · rw [hrecord.code, hspan]
    exact x.text_of_span (List.append_nil _).symm

end Identifier

/-- **A name that is exported by default is one export.**  Its record keeps the name, and covers it,
exactly if the name starts with none of the lost fronts; otherwise it ends behind the front. -/
theorem Identifier.exports_default (x : Identifier) :
    ∃ r, Analyzer.standard.exports ("export default ".toList ++ (x.text ++ [';'])) = .ok [r] ∧
      r.kind = .default ∧ r.name = some "default".toList ∧ r.names = ["default".toList] ∧
      (r.defaultName = some x.text ∧ "export default ".toList ++ x.text <+: r.code ↔
        ∀ front ∈ lostFronts, ¬ front.toList <+: x.text) ∧
      ∀ front ∈ lostFronts, front.toList <+: x.text →
        r.defaultName = none ∧ r.code = "export default ".toList ++ front.toList := by
  by_cases hlost : ∃ front ∈ lostFronts, front.toList <+: x.text
  · obtain ⟨front, hfront, hbegins⟩ := hlost
    obtain ⟨m, r, hexports, hrecord, hvalue, hcode⟩ := x.exports_lost hfront hbegins
    refine ⟨r, hexports, hrecord.kind, hrecord.name, hrecord.names, ?_, ?_⟩
    · refine iff_of_false (fun h => ?_) fun h => h front hfront hbegins
      rw [hvalue] at h
      cases h.1
    · intro front' hfront' hbegins'
      obtain rfl := eq_of_lostFronts hfront hfront' hbegins hbegins'
      exact ⟨hvalue, hcode⟩
  · have hfronts : ∀ front ∈ lostFronts, ¬ front.toList <+: x.text := fun front hfront hbegins =>
      hlost ⟨front, hfront, hbegins⟩
    obtain ⟨m, r, hexports, hrecord, hvalue, hcode⟩ := x.exports_kept hfronts
    refine ⟨r, hexports, hrecord.kind, hrecord.name, hrecord.names, ?_, ?_⟩
    · refine iff_of_true ⟨hvalue, [';'], ?_⟩ hfronts
      rw [hcode, List.append_assoc]
      rfl
    · exact fun front hfront hbegins => absurd hbegins (hfronts front hfront)

/-- A name is not always kept, be it no reserved word: one that starts with `class` is cut off. -/
theorem Identifier.exports_default_classes : ¬ ∀ x : Identifier,
    Keyword.ofSpelling? x.text = none →
      ∃ r, Analyzer.standard.exports ("export default ".toList ++ (x.text ++ [';'])) = .ok [r] ∧
        r.kind = .default ∧ r.defaultName = some x.text ∧
        "export default ".toList ++ x.text <+: r.code := by
  intro h
  obtain ⟨r, hexports, -, hvalue, -⟩ := h ⟨"classes".toList, by decide⟩ (by decide)
  have hfound : Analyzer.standard.exports "export default classes;".toList = .ok [
      { kind := .default, kindByForm := none, code := "export default class".toList,
        span := ⟨0, 20⟩, name := some "default".toList, names := ["default".toList],
        specifier := none, declaration := none, declarationType := none,
        defaultName := none }] := by
    repeat rw [String.toList_ofList]
    decide +kernel
  have hsame := Except.ok.inj (hfound.symm.trans hexports)
  obtain rfl := List.singleton_inj.1 hsame
  cases hvalue

end EsModules
