import EsModules.Module.Rewriting
import EsModules.Proofs.Declaration.Place
import EsModules.Proofs.Text.Edit
import EsModules.Proofs.Text.Order
import EsModules.Proofs.Text.Pieces

/-!
# Where specifiers stand

The specifier of an import or an export is a part of its match, or lies between the quotes of an
argument.  Either way its span covers its text in the source.

* `Pattern.covers_of_part?`: the remembered parts of a match are texts of the source.
* `Specifier.Reads`: a specifier reads what the source has in its place.
* `Rewriting.reads_of_sites`: all sites of a source read what stands there.
* `Rewriting.exists_sites`: in a source that the lexer accepts the sites can be listed.
-/

namespace EsModules

/-! ## Parts of matches -/

namespace Pattern

variable {Label : Type} {source : List Char}

/-- What lies between two places of a text is covered. -/
theorem covers_of_at {c c' : Cursor} (hc : c.At source) (hc' : c'.At source)
    (hle : c.pos ≤ c'.pos) : ∃ text, Span.Covers source text ⟨c.pos, c'.pos⟩ := by
  obtain ⟨front, hsource, hpos, -⟩ := hc
  obtain ⟨front', hsource', hpos', -⟩ := hc'
  obtain ⟨text, rfl, hrest⟩ := Text.exists_append_of_byteLength_le
    (hsource.symm.trans hsource') (by omega)
  refine ⟨text, front, c'.rest, by rw [hsource, hrest], hpos, ?_⟩
  rw [← Text.byteLength_append]
  exact hpos'

/-- The parts that a match remembers are texts of the source. -/
theorem Matches.covers {p : Pattern Label} {c c' : Cursor} {caps caps' : Captures Label}
    (h : Matches p c caps c' caps') (hat : c.At source)
    (hcaps : ∀ part ∈ caps, ∃ text, part.2.Covers source text) :
    ∀ part ∈ caps', ∃ text, part.2.Covers source text := by
  induction h with
  | empty | char | manyDone | wordEdge | lineStart | textEnd => exact hcaps
  | seq hp _ ih ih' => exact ih' (hp.at hat).1 (ih hat hcaps)
  | altFirst _ ih | altSecond _ ih => exact ih hat hcaps
  | manyMore _ hp _ ih ih' => exact ih' (hp.at hat).1 (ih hat hcaps)
  | capture hp ih =>
    intro part hpart
    rcases List.mem_cons.1 hpart with rfl | hpart
    · exact covers_of_at hat (hp.at hat).1 (hp.at hat).2
    · exact ih hat hcaps part hpart

/-- A remembered part of a match is a text of the source. -/
theorem covers_of_part? [DecidableEq Label] {p : Pattern Label} {m : Match Label} {label : Label}
    {s : Span} (h : Found p source m) (hpart : m.part? label = some s) :
    ∃ text, s.Covers source text := by
  obtain ⟨part, hfind, rfl⟩ := Option.map_eq_some_iff.1 hpart
  exact h.matched.covers h.front_at (fun part hpart => absurd hpart List.not_mem_nil) part
    (List.mem_of_find?_eq_some hfind)

end Pattern

open Pattern

variable {source : List Char}

/-! ## Specifiers -/

/-- A specifier reads what the source has in its place. -/
def Specifier.Reads (source : List Char) (s : Specifier) : Prop := s.span.Covers source s.text

/-- What a match names as its specifier reads what stands there. -/
theorem Specifier.reads_of_ofMatch? {p : Pattern Part} {m : Match Part} {s : Specifier}
    (h : Found p source m) (hs : Specifier.ofMatch? source m = some s) : s.Reads source := by
  obtain ⟨span, hpart, rfl⟩ := Option.map_eq_some_iff.1 hs
  obtain ⟨text, hcovers⟩ := covers_of_part? h hpart
  show span.Covers source (span.text source)
  rw [hcovers.text_eq]
  exact hcovers

theorem StaticImport.reads_of_candidates : ∀ i ∈ candidates source, i.specifier.Reads source := by
  intro i hi
  obtain ⟨m, hm, hmatch⟩ := List.mem_filterMap.1 hi
  obtain ⟨specifier, hspecifier, rfl⟩ := Option.map_eq_some_iff.1 hmatch
  exact Specifier.reads_of_ofMatch? (found_of_select m hm).1 hspecifier

/-- The text between two quotes. -/
theorem DynamicImport.exists_quote_of_unquoted? {text inner : List Char}
    (h : unquoted? text = some inner) :
    ∃ quote : Char, quote.utf8Size = 1 ∧ text = quote :: (inner ++ [quote]) := by
  cases text with
  | nil => cases h
  | cons quote r =>
    rw [unquoted?] at h
    by_cases hquote : (quote == '"' || quote == '\'' || quote == '\x60') = true
    · rw [if_pos hquote] at h
      have hsize : quote.utf8Size = 1 := by
        simp only [Bool.or_eq_true, beq_iff_eq] at hquote
        rcases hquote with (rfl | rfl) | rfl <;> rfl
      cases hsuffix : Text.dropSuffix? [quote] r with
      | none =>
        rw [hsuffix] at h
        cases h
      | some found =>
        rw [hsuffix] at h
        dsimp only at h
        split at h
        · cases h
        · obtain rfl := Option.some.inj h
          exact ⟨quote, hsize, congrArg _ (Text.dropSuffix?_eq_some_iff.1 hsuffix).symm⟩
    · rw [if_neg hquote] at h
      cases h

/-- The quoted text that a call of `import` has as its argument reads what stands there. -/
theorem DynamicImport.reads_of_literal? {d : DynamicImport} {s : Specifier}
    (hargument : d.argumentSpan.Covers source d.argument) (h : d.literal? = some s) :
    s.Reads source := by
  obtain ⟨inner, hinner, rfl⟩ := Option.map_eq_some_iff.1 h
  obtain ⟨quote, hsize, htrim⟩ := exists_quote_of_unquoted? hinner
  obtain ⟨tail, htail⟩ := Text.trim_prefix_trimStart d.argument
  have hargumentText : d.argument =
      d.argument.takeWhile Text.isBlank ++ (quote :: (inner ++ [quote]) ++ tail) := by
    rw [← htrim, htail]
    exact (List.takeWhile_append_dropWhile).symm
  obtain ⟨front, back, hsource, hstart, -⟩ := hargument
  refine ⟨front ++ (d.argument.takeWhile Text.isBlank ++ [quote]),
    [quote] ++ tail ++ back, ?_, ?_, ?_⟩
  · calc source = front ++ (d.argument ++ back) := hsource
      _ = front ++ ((d.argument.takeWhile Text.isBlank ++
            (quote :: (inner ++ [quote]) ++ tail)) ++ back) :=
          congrArg (fun argument => front ++ (argument ++ back)) hargumentText
      _ = _ := by simp
  · simp [hstart, hsize]
    omega
  · simp [hstart, hsize]
    omega

theorem DynamicImport.reads_of_candidates :
    ∀ d ∈ candidates source, ∀ s, d.literal? = some s → s.Reads source := by
  intro d hd s hs
  obtain ⟨m, hm, hmatch⟩ := List.mem_filterMap.1 hd
  obtain ⟨span, hpart, rfl⟩ := Option.map_eq_some_iff.1 hmatch
  obtain ⟨text, hcovers⟩ := covers_of_part? (found_of_matchesIn m hm) hpart
  refine reads_of_literal? ?_ hs
  show span.Covers source (span.text source)
  rw [hcovers.text_eq]
  exact hcovers

namespace ExportRecord

/-- Every record of a shape whose specifier is that of its match reads what stands there. -/
theorem reads_of_shape {shape : Pattern Part} {record : Match Part → ExportRecord}
    (hrecord : ∀ m, (record m).specifier = Specifier.ofMatch? source m) :
    ∀ r ∈ (shape.matchesIn source).map record, ∀ s, r.specifier = some s → s.Reads source := by
  intro r hr s hs
  obtain ⟨m, hm, rfl⟩ := List.mem_map.1 hr
  exact Specifier.reads_of_ofMatch? (found_of_matchesIn m hm) ((hrecord m).symm.trans hs)

theorem specifier_ofDeclaration (m : Match Part) :
    (ofDeclaration source m).specifier = Specifier.ofMatch? source m := by
  unfold ofDeclaration
  dsimp only
  split
  · split <;> rfl
  · rfl

theorem reads_of_candidates :
    ∀ r ∈ candidates source, ∀ s, r.specifier = some s → s.Reads source := by
  intro r hr
  obtain ⟨raw, hraw, rfl⟩ := List.mem_map.1 hr
  simp only [List.mem_append] at hraw
  rcases hraw with ((((hraw | hraw) | hraw) | hraw) | hraw) | hraw
  · exact reads_of_shape specifier_ofDeclaration raw hraw
  · exact reads_of_shape (fun _ => rfl) raw hraw
  · exact reads_of_shape (fun _ => rfl) raw hraw
  · exact reads_of_shape (fun _ => rfl) raw hraw
  · exact reads_of_shape (fun _ => rfl) raw hraw
  · exact reads_of_shape (fun _ => rfl) raw hraw

end ExportRecord

/-! ## Sites -/

/-- Specifiers sorted by their starts, of those with one start the first. -/
theorem Rewriting.sorted_spec (all : List Specifier) :
    (∀ s ∈ (all.mergeSort fun s t => s.span.start ≤ t.span.start).eraseRepsBy
        fun s t => s.span.start == t.span.start, s ∈ all) ∧
      ((all.mergeSort fun s t => s.span.start ≤ t.span.start).eraseRepsBy
        fun s t => s.span.start == t.span.start).Pairwise
          fun s t => s.span.start < t.span.start := by
  have htrans : ∀ s t u : Specifier, decide (s.span.start ≤ t.span.start) = true →
      decide (t.span.start ≤ u.span.start) = true →
      decide (s.span.start ≤ u.span.start) = true := by
    intro s t u
    simp only [decide_eq_true_eq]
    exact Nat.le_trans
  have htotal : ∀ s t : Specifier, (decide (s.span.start ≤ t.span.start) ||
      decide (t.span.start ≤ s.span.start)) = true := by
    intro s t
    simp only [Bool.or_eq_true, decide_eq_true_eq]
    exact Nat.le_total _ _
  have hsame : ∀ s t : Specifier, (s.span.start == t.span.start) = true ↔
      decide (s.span.start ≤ t.span.start) = true ∧
        decide (t.span.start ≤ s.span.start) = true := by
    intro s t
    simp only [beq_iff_eq, decide_eq_true_eq]
    omega
  obtain ⟨hsublist, -, hpairs⟩ := eraseRepsBy_spec htrans htotal hsame
    (List.pairwise_mergeSort htrans htotal all)
  refine ⟨fun s hs => List.mem_mergeSort.1 (hsublist.subset hs), hpairs.imp fun {s t} h => ?_⟩
  simp only [decide_eq_true_eq, beq_eq_false_iff_ne] at h
  omega

/-- **The sites of a source** read what stands in their places, and each starts behind the start of
the one before it. -/
theorem Rewriting.reads_of_sites {a : Analyzer} {found : List Specifier}
    (h : sites a source = .ok found) :
    (∀ s ∈ found, s.Reads source) ∧ found.Pairwise fun s t => s.span.start < t.span.start := by
  obtain ⟨static, hstatic, h⟩ := bind_eq_ok.1 h
  obtain ⟨dynamic, hdynamic, h⟩ := bind_eq_ok.1 h
  obtain ⟨exported, hexported, h⟩ := bind_eq_ok.1 h
  obtain rfl := Except.ok.inj h
  obtain ⟨hmem, hpairs⟩ := sorted_spec _
  refine ⟨fun s hs => ?_, hpairs⟩
  have hall := hmem s hs
  simp only [List.mem_append] at hall
  rcases hall with (hs | hs) | hs
  · obtain ⟨i, hi, rfl⟩ := List.mem_map.1 hs
    exact StaticImport.reads_of_candidates i (Analyzer.mem_of_confirmed hstatic i hi)
  · obtain ⟨d, hd, hliteral⟩ := List.mem_filterMap.1 hs
    exact DynamicImport.reads_of_candidates d (Analyzer.mem_of_confirmed hdynamic d hd) s hliteral
  · obtain ⟨r, hr, hspecifier⟩ := List.mem_filterMap.1 hs
    obtain ⟨kept, hkept, rfl⟩ := map_eq_ok.1 hexported
    have hr := List.mem_mergeSort.1 ((ExportRecord.collapse_sublist _).subset hr)
    exact ExportRecord.reads_of_candidates r (Analyzer.mem_of_confirmed hkept r hr) s hspecifier

/-- The sites of a source that the lexer accepts can be listed. -/
theorem Rewriting.exists_sites {tokens : List Token} {comments : List Span}
    (h : tokenize source = .ok (tokens, comments)) :
    ∃ found, sites .standard source = .ok found ∧ (∀ s ∈ found, s.Reads source) ∧
      found.Pairwise fun s t => s.span.start < t.span.start := by
  have hfinders := findersKeep_of_confirmed (Analyzer.confirmed_of_accepted h)
  have hsites : ∃ found, sites .standard source = .ok found := by
    unfold sites
    rw [hfinders.staticImports, hfinders.dynamicImports, hfinders.exports]
    exact ⟨_, rfl⟩
  obtain ⟨found, hfound⟩ := hsites
  exact ⟨found, hfound, reads_of_sites hfound⟩

end EsModules
