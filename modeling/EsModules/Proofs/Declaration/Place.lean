import EsModules.Proofs.Declaration.Retention
import EsModules.Proofs.Pattern.Matches
import EsModules.Proofs.Token.Words

/-!
# Where records start

Every import and export that is found starts where the source reads the word it is about, and
encloses that keyword.  It need not start at the keyword it encloses: a candidate may start within
a comment or a text and run on into the code behind it.

* `ReadsWord`: a range starts where the source reads a given word; all candidates do, since every
  shape begins with its word.
* `Anchored`: where a record starts, and what it runs on to.
* `records_anchored`: the records of every source of less than 4 GiB that the lexer accepts are
  anchored.
-/

namespace EsModules

open Pattern

/-! ## Candidates start with their word -/

/-- A range starts where a source reads a reserved word. -/
def ReadsWord (source : List Char) (word : Keyword) (range : Span) : Prop :=
  ∃ a b, source = a ++ (word.spelling.toList ++ b) ∧ range.start = Text.byteLength a

variable {source : List Char}

/-- An import starts with `import` if its shape begins so. -/
theorem StaticImport.readsWord_of_shape {shape : Pattern Part} {kind : ImportKind}
    (hshape : Begins Keyword.importKw.spelling.toList shape) :
    ∀ i ∈ ofShape shape kind source, ReadsWord source .importKw i.span := by
  intro i hi
  obtain ⟨m, hm, hmatch⟩ := List.mem_filterMap.1 hi
  obtain ⟨specifier, -, rfl⟩ := Option.map_eq_some_iff.1 hmatch
  exact (found_of_select m hm).1.exists_append hshape

theorem StaticImport.readsWord_of_candidates :
    ∀ i ∈ candidates source, ReadsWord source .importKw i.span :=
  readsWord_of_shape ((((begins_literal _).append _).append _).append _)

theorem StaticImport.readsWord_of_typeCandidates :
    ∀ i ∈ typeCandidates source, ReadsWord source .importKw i.span := by
  intro i hi
  rcases List.mem_append.1 (List.mem_mergeSort.1 hi) with hi | hi
  · refine readsWord_of_shape ?_ i hi
    exact ((((((begins_literal _).append _).append _).append _).append _).append _).append _
      |>.append _
  · exact readsWord_of_candidates i (List.mem_filter.1 hi).1

theorem DynamicImport.readsWord_of_candidates :
    ∀ d ∈ candidates source, ReadsWord source .importKw d.span := by
  intro d hd
  obtain ⟨m, hm, hmatch⟩ := List.mem_filterMap.1 hd
  obtain ⟨argument, -, rfl⟩ := Option.map_eq_some_iff.1 hmatch
  refine (found_of_matchesIn m hm).exists_append ?_
  exact ((((begins_literal _).append _).append _).append _).append _

theorem Shape.begins_exportFront : Begins Keyword.exportKw.spelling.toList exportFront :=
  (begins_literal _).wordEdge_append

namespace ExportRecord

/-- The records that a shape gives start with `export` if the shape begins so, and the record of a
match has its place. -/
theorem readsWord_of_shape {shape : Pattern Part} {record : Match Part → ExportRecord}
    (hshape : Begins Keyword.exportKw.spelling.toList shape)
    (hplace : ∀ m, (record m).span = m.span) :
    ∀ r ∈ (shape.matchesIn source).map record, ReadsWord source .exportKw r.span := by
  intro r hr
  obtain ⟨m, hm, rfl⟩ := List.mem_map.1 hr
  rw [hplace]
  exact (found_of_matchesIn m hm).exists_append hshape

theorem span_ofDeclaration (m : Match Part) : (ofDeclaration source m).span = m.span := by
  unfold ofDeclaration
  dsimp only
  split
  · split <;> rfl
  · rfl

/-- Filling in a record leaves it in its place. -/
theorem readsWord_of_normalize {records : List ExportRecord}
    (h : ∀ r ∈ records, ReadsWord source .exportKw r.span) :
    ∀ r ∈ records.map normalize, ReadsWord source .exportKw r.span := by
  intro r hr
  obtain ⟨r', hr', rfl⟩ := List.mem_map.1 hr
  exact h r' hr'

theorem readsWord_of_candidates :
    ∀ r ∈ candidates source, ReadsWord source .exportKw r.span := by
  have front := Shape.begins_exportFront
  have defaultFront : Begins Keyword.exportKw.spelling.toList Shape.exportDefaultFront :=
    ((front.append _).append _).append _
  refine readsWord_of_normalize fun r hr => ?_
  simp only [List.mem_append] at hr
  rcases hr with ((((hr | hr) | hr) | hr) | hr) | hr
  · refine readsWord_of_shape ?_ span_ofDeclaration r hr
    exact (((((front.append _).append _).append _).append _).append _).append _
  · exact readsWord_of_shape ((front.append _).append _) (fun _ => rfl) r hr
  · refine readsWord_of_shape ?_ (fun _ => rfl) r hr
    exact (((((front.append _).append _).append _).append _).append _).append _
  · refine readsWord_of_shape ?_ (fun _ => rfl) r hr
    exact (defaultFront.append _).alt (defaultFront.append _)
  · refine readsWord_of_shape ?_ (fun _ => rfl) r hr
    exact (((((front.append _).append _).append _).append _).append _).append _
  · refine readsWord_of_shape ?_ (fun _ => rfl) r hr
    exact ((((front.append _).append _).append _).append _).append _

theorem readsWord_of_typeCandidates :
    ∀ r ∈ typeCandidates source, ReadsWord source .exportKw r.span := by
  have front := Shape.begins_exportFront
  refine readsWord_of_normalize fun r hr => ?_
  rcases List.mem_append.1 hr with hr | hr
  · refine readsWord_of_shape ?_ (fun _ => rfl) r hr
    exact (((front.append _).append _).append _).append _
  · refine readsWord_of_shape ?_ (fun _ => rfl) r hr
    exact (((front.append _).append _).append _).append _

theorem collapse_sublist (records : List ExportRecord) : (collapse records).Sublist records := by
  fun_induction collapse records with
  | case1 => exact List.Sublist.refl []
  | case2 r => exact List.Sublist.refl [r]
  | case3 r next rest _ ih => exact ih.cons r
  | case4 r next rest _ ih => exact ih.cons_cons r

end ExportRecord

/-! ## Where a record starts, and what it runs on to -/

variable {tokens : List Token} {comments : List Span}

/-- A record reads its word where it starts and encloses that keyword.  It starts at the keyword
unless its start lies in a comment or in a token that hides its text; then it runs on beyond that,
and encloses a keyword behind it. -/
structure Anchored (source : List Char) (tokens : List Token) (comments : List Span)
    (word : Keyword) (range : Span) : Prop where
  reads : ReadsWord source word range
  encloses : ∃ t ∈ tokens, t.kind = .keyword word ∧ range.encloses t.span = true
  starts_iff : (∃ t ∈ tokens, t.kind = .keyword word ∧ t.span.start = range.start) ↔
    ∀ s ∈ hiddenSpans tokens comments, s.contains range.start = false
  beyond : ∀ s ∈ hiddenSpans tokens comments, s.contains range.start = true →
    ∃ t ∈ tokens, t.kind = .keyword word ∧ s.stop ≤ t.span.start ∧ t.span.stop ≤ range.stop

/-- A range that starts with its word and encloses the keyword is anchored. -/
theorem anchored_of_enclosesToken (h : lexemize source = .ok (tokens, comments)) {word : Keyword}
    (hword : word ∈ Keyword.declaring) {range : Span} (hreads : ReadsWord source word range)
    (hencloses : enclosesToken tokens word range = true) :
    Anchored source tokens comments word range := by
  obtain ⟨t, ht, hkept⟩ := List.any_eq_true.1 hencloses
  simp only [Bool.and_eq_true, beq_iff_eq] at hkept
  obtain ⟨hk, hin⟩ := hkept
  have hhides : ∀ t : Token, t.kind = .keyword word → t.kind.hidesText = false :=
    fun t ht => by rw [ht]; rfl
  refine ⟨hreads, ⟨t, ht, hk, hin⟩, ⟨?_, fun hnot => ?_⟩, fun s hs hs' => ?_⟩
  · rintro ⟨k, hmem, hkind, hstart⟩ s hs
    cases hcontains : s.contains range.start with
    | false => rfl
    | true =>
      simp only [Span.contains, Bool.and_eq_true, decide_eq_true_eq] at hcontains
      have hstop := hidden_stop_le h hs hmem (hhides k hkind) (by omega)
      omega
  · obtain ⟨a, b, hs, ha⟩ := hreads
    rw [ha] at hnot ⊢
    refine (start_of_word h hword hs).resolve_right ?_
    rintro ⟨s, hs, hcontains⟩
    rw [hnot s hs] at hcontains
    cases hcontains
  · simp only [Span.encloses, Bool.and_eq_true, decide_eq_true_eq] at hin
    simp only [Span.contains, Bool.and_eq_true, decide_eq_true_eq] at hs'
    exact ⟨t, ht, hk, hidden_stop_le h hs ht (hhides t hk) (by omega), hin.2⟩

/-- Of candidates that start with their word, those that enclose a keyword are anchored. -/
theorem anchored_of_kept {α : Type} (h : lexemize source = .ok (tokens, comments)) {word : Keyword}
    (hword : word ∈ Keyword.declaring) {place : α → Span} {candidates : List α}
    (hreads : ∀ c ∈ candidates, ReadsWord source word (place c)) :
    ∀ c ∈ candidates.filter fun c => enclosesToken tokens word (place c),
      Anchored source tokens comments word (place c) := by
  intro c hc
  obtain ⟨hc, hkept⟩ := List.mem_filter.1 hc
  exact anchored_of_enclosesToken h hword (hreads c hc) hkept

/-- **Every record is anchored at a keyword** of a source of less than 4 GiB that the lexer accepts,
and every finder gives its records. -/
theorem records_anchored (h : tokenize source = .ok (tokens, comments))
    (hsize : Text.byteLength source < 2 ^ 32 - 1) :
    (∃ found, Analyzer.standard.staticImports source = .ok found ∧
      ∀ i ∈ found, Anchored source tokens comments .importKw i.span) ∧
    (∃ found, Analyzer.standard.typeImports source = .ok found ∧
      ∀ i ∈ found, Anchored source tokens comments .importKw i.span) ∧
    (∃ found, Analyzer.standard.dynamicImports source = .ok found ∧
      ∀ d ∈ found, Anchored source tokens comments .importKw d.span) ∧
    (∃ found, Analyzer.standard.exports source = .ok found ∧
      ∀ r ∈ found, Anchored source tokens comments .exportKw r.span) ∧
    ∃ found, Analyzer.standard.typeExports source = .ok found ∧
      ∀ r ∈ found, Anchored source tokens comments .exportKw r.span := by
  have himport : Keyword.importKw ∈ Keyword.declaring := by decide
  have hexport : Keyword.exportKw ∈ Keyword.declaring := by decide
  have hfinders := findersKeep_of_confirmed (Analyzer.confirmed_of_lt hsize h)
  have hlexemes := (tokenize_eq_ok_of_lt hsize).1 h
  refine ⟨⟨_, hfinders.staticImports, ?_⟩, ⟨_, hfinders.typeImports, ?_⟩,
    ⟨_, hfinders.dynamicImports, ?_⟩, ⟨_, hfinders.exports, fun r hr => ?_⟩,
    ⟨_, hfinders.typeExports, fun r hr => ?_⟩⟩
  · exact anchored_of_kept hlexemes himport StaticImport.readsWord_of_candidates
  · exact anchored_of_kept hlexemes himport StaticImport.readsWord_of_typeCandidates
  · exact anchored_of_kept hlexemes himport DynamicImport.readsWord_of_candidates
  · have hmem := List.mem_mergeSort.1 ((ExportRecord.collapse_sublist _).subset hr)
    exact anchored_of_kept hlexemes hexport ExportRecord.readsWord_of_candidates r hmem
  · have hmem := (ExportRecord.collapse_sublist _).subset hr
    exact anchored_of_kept hlexemes hexport ExportRecord.readsWord_of_typeCandidates r hmem

/-- The candidate that starts in the comment runs on into the declaration behind it. -/
theorem records_anchored_commented :
    tokenize commentedImport = .ok (commentedImportTokens, [⟨0, 9⟩]) ∧
    ∃ found, Analyzer.standard.staticImports commentedImport = .ok found ∧
      ∀ i ∈ found, Anchored commentedImport commentedImportTokens [⟨0, 9⟩] .importKw i.span :=
  ⟨tokenize_commentedImport, (records_anchored tokenize_commentedImport (by decide)).1⟩

/-- Not every record starts at a keyword: the only one of this source starts in the comment. -/
theorem staticImport_starts_in_comment :
    ¬ ∀ (source : List Char) (tokens : List Token) (comments : List Span),
      tokenize source = .ok (tokens, comments) →
      ∀ found, Analyzer.standard.staticImports source = .ok found →
      ∀ i ∈ found, ∃ t ∈ tokens, t.kind = .keyword .importKw ∧ t.span.start = i.span.start := by
  intro h
  have hfound : Analyzer.standard.staticImports commentedImport = .ok
      [⟨.value, "import\nimport a from 'b'".toList, ⟨3, 27⟩, "import a ".toList,
        ⟨"b".toList, ⟨25, 26⟩⟩⟩] := by
    decide +kernel
  obtain ⟨t, ht, hk, hstart⟩ :=
    h _ _ _ tokenize_commentedImport _ hfound _ List.mem_cons_self
  revert t
  decide

end EsModules
