import EsModules.Proofs.Declaration.PatchedRecords
import EsModules.Proofs.Module.Rewriting
import EsModules.Proofs.Resolution.Search

/-!
# The sites of a rewritten source

A rewritten source imports the resolved modules: its sites are those of the source, in the same
order, and each names the location that its specifier was resolved to.  For this the locations have
to fit: specifiers and locations are plain texts that fill their quotes, no two of them share a
quote, and no specifier lies where an exported declaration takes a value apart, since the names read
there decide which of two neighbouring exports counts.

Nothing escapes the locations: one with an apostrophe, which the path of a file may have, ends a
string between apostrophes.

* `enclosesToken_eq_of_aligned`: aligned spans enclose the same keywords.
* `Rewriting.Fits`: what is asked of specifiers and locations.
* `Rewriting.sites_rewritten`: the sites of a rewritten source.
* `Rewriting.rewrite_resolved`: what rewriting makes of a source and of its sites.
* `Rewriting.rewrite_apostrophe`: a source that is accepted no more once it is rewritten.
-/

namespace EsModules

open Patch

variable {source out : List Char} {tokens tokens' : List Token} {all : List Patch}
  {edits : List Edit}

/-- What the edits of patches move is aligned. -/
theorem Edit.Moves.aligned {a a' : Nat} (h : Edit.Moves (all.flatMap old) edits a a')
    (hweaves : Weaves 0 edits all) : Aligned all a a' := by
  obtain ⟨front, back, x, x', y, hedits, hsource, hsplices, hback, rfl, rfl⟩ := h
  refine hweaves.aligned hedits hsource hsplices fun e he => ?_
  rw [Nat.zero_add]
  exact hback e he

/-- Aligned spans enclose the same keywords of the two texts. -/
theorem enclosesToken_eq_of_aligned (hall : ∀ p ∈ all, p.Valid) (hweaves : Weaves 0 edits all)
    (htokens : List.Forall₂ (Token.Moved (all.flatMap old) edits) tokens tokens')
    {word : Keyword} (hword : word ∈ Keyword.declaring) {s s' : Span} (h : AlignedSpan all s s') :
    enclosesToken tokens word s = enclosesToken tokens' word s' := by
  unfold enclosesToken
  induction htokens with
  | nil => rfl
  | @cons t t' tokens tokens' ht _ ih =>
    rw [List.any_cons, List.any_cons, ih, ht.kind]
    by_cases hk : t.kind = .keyword word
    · obtain ⟨hstart, hstop⟩ := ht.places word hword hk
      have hfront := h.1.le_iff hall (hstart.aligned hweaves)
      have hback := (hstop.aligned hweaves).le_iff hall h.2
      simp only [Span.encloses, hfront, hback]
    · rw [beq_false_of_ne hk, Bool.false_and, Bool.false_and]

namespace Rewriting

variable {resolve : List Char → Except Error (List Char)} {location : List Char → List Char}
  {found : List Specifier}

/-- Edits that put plain texts between quotes: no two of them share a quote, each lies in a token
that stays closed, and none lies where an exported declaration takes a value apart. -/
structure Fits (source : List Char) (tokens : List Token) (edits : List Edit) : Prop where
  quotes : ∀ e ∈ edits, Quotes source e
  apart : edits.Pairwise fun d e => d.span.stop + 1 < e.span.start
  quoted : ∀ e ∈ edits, e.IsQuoted source edits tokens
  entries : ∀ m ∈ Shape.exportDestructured.matchesIn source, ∀ s, m.part? .entries = some s →
    ∀ e ∈ edits, s.encloses e.span = false

/-- Edits that do not lie where a value is taken apart swap no text there. -/
theorem Fits.keepsEntries (h : Fits (all.flatMap old) tokens edits)
    (hweaves : Weaves 0 edits all) : ExportRecord.KeepsEntries all := by
  intro m hm s hs pre q x y post hall hle
  obtain ⟨e, he, hstart, hstop⟩ := hweaves.exists_edit hall
  have hnot := h.entries m hm s hs e he
  simp only [Span.encloses, Bool.and_eq_false_iff, decide_eq_false_iff_not] at hnot
  simp only [old, Text.byteLength_cons, Text.byteLength_append, Text.byteLength_nil]
  omega

/-- A site at the place of a specifier in the rewritten source names its location. -/
theorem text_eq_of_aligned (hall : ∀ p ∈ all, p.Valid)
    (hweaves : Weaves 0 (replacements location found) all) {s s' : Specifier} (hs : s ∈ found)
    (hreads : s'.Reads (all.flatMap new)) (haligned : s.Aligned all s') :
    s'.text = location s.text := by
  obtain ⟨pre, q, x, post, hsplit, hstart, hstop⟩ :=
    hweaves.exists_swap ⟨s.span, location s.text⟩ (List.mem_map.2 ⟨s, hs, rfl⟩)
  dsimp only at hsplit hstart hstop
  have hopening := (haligned.1.eq_iff hall (aligned_opening hsplit)).1 (by omega)
  have hclosing := (haligned.2.eq_iff hall (aligned_closing hsplit)).1 (by omega)
  have hcovers : s'.span.Covers (all.flatMap new) (location s.text) := by
    refine ⟨pre.flatMap new ++ [q], [q] ++ post.flatMap new, ?_, ?_, ?_⟩
    · rw [hsplit]
      simp [new]
    · rw [hopening, Text.byteLength_append]
      rfl
    · rw [hclosing, Text.byteLength_append]
      rfl
  exact hreads.text_eq.symm.trans hcovers.text_eq

/-- **A rewritten source imports the resolved modules.**  If all sites of a source that the lexer
accepts are resolved, and the locations fit, the sites of the rewritten source name the locations,
one for each site of the source and in the same order.  Both texts are shorter than 4 GiB. -/
theorem sites_rewritten {comments : List Span} (h : tokenize source = .ok (tokens, comments))
    (hsize : Text.byteLength source < 2 ^ 32 - 1)
    (hsites : sites .standard source = .ok found)
    (hresolve : ∀ s ∈ found, resolve s.text = .ok (location s.text))
    (hfits : Fits source tokens (replacements location found))
    (hout : rewrite resolve source = .ok out) (hshort : Text.byteLength out < 2 ^ 32 - 1) :
    ∃ found', sites .standard out = .ok found' ∧
      found'.map Specifier.text = found.map fun s => location s.text := by
  obtain ⟨_, hlisted, hreads, -⟩ := exists_sites h
  obtain rfl := Except.ok.inj (hsites.symm.trans hlisted)
  have hcovers : ∀ e ∈ replacements location found, ∃ text, e.span.Covers source text :=
    covers_replacements hreads
  have hordered : Edit.areOrdered 0 (replacements location found) = true := by
    refine (Edit.areOrdered_iff fun e he => (hcovers e he).elim fun _ h => h.start_le).2
      ⟨fun e _ => Nat.zero_le _, hfits.apart.imp fun hlt => by omega⟩
  have hsplices := Edit.splices_applyAll hcovers hordered
  have hrewrite := rewrite_eq hsites hresolve
  rw [if_pos hordered] at hrewrite
  obtain rfl := Except.ok.inj (hrewrite.symm.trans hout)
  obtain ⟨tokens', comments', hlexemes, hmoved⟩ :=
    lexemize_moved ((tokenize_eq_ok_of_lt hsize).1 h) hsplices hfits.quoted
  have htokens := (tokenize_eq_ok_of_lt hshort).2 hlexemes
  obtain ⟨all, hweaves, hall, hold, hnew⟩ := exists_weaves hfits.quotes hfits.apart
    (show source = [] ++ source from rfl) (fun e he => by
      obtain ⟨front, q, x, back, -, -, -, hstart, -⟩ := (hfits.quotes e he).covers
      rw [hstart]
      exact Nat.succ_pos _) hsplices
  subst hold
  rw [← hnew] at htokens hshort ⊢
  obtain ⟨_, found', hlisted, hsites', haligned⟩ := exists_aligned_sites hall
    (hfits.keepsEntries hweaves)
    (fun word hword s s' => enclosesToken_eq_of_aligned hall hweaves hmoved hword)
    (findersKeep_of_confirmed (Analyzer.confirmed_of_lt hsize h))
    (findersKeep_of_confirmed (Analyzer.confirmed_of_lt hshort htokens))
  obtain rfl := Except.ok.inj (hsites.symm.trans hlisted)
  obtain ⟨_, hlisted', hreads', -⟩ := exists_sites htokens
  obtain rfl := Except.ok.inj (hsites'.symm.trans hlisted')
  refine ⟨found', hsites', ?_⟩
  have hboth : List.Forall₂ (fun s' s => s'.Reads (all.flatMap new) ∧ s ∈ found ∧ s.Aligned all s')
      found' found :=
    (List.forall₂_and_left _ _).2
      ⟨hreads', ((List.forall₂_and_left _ _).2 ⟨fun _ hs => hs, haligned⟩).flip⟩
  have htexts : List.Forall₂ (· = ·) (found'.map Specifier.text)
      (found.map fun s => location s.text) := by
    rw [List.forall₂_map_left_iff, List.forall₂_map_right_iff]
    exact hboth.imp fun s' s hs => text_eq_of_aligned hall hweaves hs.2.1 hs.1 hs.2.2
  exact List.forall₂_eq_eq_eq ▸ htexts

/-- **Rewriting an accepted source.**  Its sites can be listed, and each reads what stands in its
place.  If all are resolved and stand one behind the other, rewriting puts each location in the
place of its specifier and keeps everything else.  If the source is shorter than 4 GiB, the result
is accepted again, with tokens of the same kinds, if all locations lie between quotes that they
leave closed; and if they fit and the result is shorter than 4 GiB too, its sites name the
locations, one for each site of the source and in the same order.  If two sites overlap, rewriting
fails. -/
theorem rewrite_resolved {comments : List Span} (h : tokenize source = .ok (tokens, comments)) :
    ∃ found, sites .standard source = .ok found ∧ (∀ s ∈ found, s.Reads source) ∧
      (found.Pairwise fun s t => s.span.start < t.span.start) ∧
      ∀ (resolve : List Char → Except Error (List Char)) (location : List Char → List Char),
        (∀ s ∈ found, resolve s.text = .ok (location s.text)) →
          (Apart found → ∃ out, rewrite resolve source = .ok out ∧
            Edit.Splices 0 (replacements location found) source out ∧
            (Text.byteLength source < 2 ^ 32 - 1 →
              (∀ e ∈ replacements location found,
                e.IsQuoted source (replacements location found) tokens) →
              ∃ tokens' comments', tokenize out = .ok (tokens', comments') ∧
                tokens'.map Token.kind = tokens.map Token.kind) ∧
            (Text.byteLength source < 2 ^ 32 - 1 → Text.byteLength out < 2 ^ 32 - 1 →
              Fits source tokens (replacements location found) →
              ∃ found', sites .standard out = .ok found' ∧
                found'.map Specifier.text = found.map fun s => location s.text)) ∧
          (¬ Apart found → rewrite resolve source = .error (.fault .overlap)) := by
  obtain ⟨found, hsites, hreads, hstarts⟩ := exists_sites h
  refine ⟨found, hsites, hreads, hstarts, fun resolve location hresolve => ?_⟩
  have hrewrite := rewrite_eq hsites hresolve
  have hordered : Edit.areOrdered 0 (replacements location found) = true ↔ Apart found :=
    areOrdered_replacements hreads
  refine ⟨fun hapart => ?_, fun hapart => ?_⟩
  · rw [if_pos (hordered.2 hapart)] at hrewrite
    have hsplices := Edit.splices_applyAll (covers_replacements hreads) (hordered.2 hapart)
    refine ⟨_, hrewrite, hsplices, fun hsize hquoted => ?_, fun hsize hshort hfits =>
      sites_rewritten h hsize hsites hresolve hfits hrewrite hshort⟩
    obtain ⟨tokens', comments', hlexemes, hkinds⟩ :=
      lexemize_of_splices ((tokenize_eq_ok_of_lt hsize).1 h) hsplices hquoted
    exact ⟨_, _, tokenize_eq_ok.2 ⟨_, _, hlexemes, rfl, rfl⟩,
      (Token.map_kind_wrapped tokens').trans hkinds⟩
  · rwa [if_neg fun h => hapart (hordered.1 h)] at hrewrite

/-! ### Quotes and apostrophes -/

/-- The module is found with the apostrophe as it is, and with it escaped. -/
theorem apostropheResolve_spellings : ∀ text ∈ ["./a'b.mjs".toList, "./a%27b.mjs".toList],
    apostropheResolve text = .ok "file:///w/a'b.mjs".toList := by
  refine List.forall_mem_cons.2 ⟨?_, List.forall_mem_singleton.2 ?_⟩
  all_goals
    unfold apostropheResolve
    rw [Resolver.resolve_relative rfl (by decide)]
    decide +kernel

/-- Two imports of the module, between double quotes. -/
def doubleQuoted : List Char :=
  "import x from \"./a'b.mjs\"\nimport(\"./a%27b.mjs\")".toList

/-- The tokens of the two imports. -/
def doubleQuotedTokens : List Token :=
  [⟨.keyword .importKw, ⟨0, 6⟩⟩, ⟨.identifier, ⟨7, 8⟩⟩, ⟨.identifier, ⟨9, 13⟩⟩,
    ⟨.string, ⟨14, 25⟩⟩, ⟨.keyword .importKw, ⟨26, 32⟩⟩, ⟨.punct .lParen, ⟨32, 33⟩⟩,
    ⟨.string, ⟨33, 46⟩⟩, ⟨.punct .rParen, ⟨46, 47⟩⟩]

/-- The sites of the two imports. -/
theorem sites_doubleQuoted : sites .standard doubleQuoted =
    .ok [⟨"./a'b.mjs".toList, ⟨15, 24⟩⟩, ⟨"./a%27b.mjs".toList, ⟨34, 45⟩⟩] := by
  have hstatic : Analyzer.standard.staticImports doubleQuoted =
      .ok [⟨.value, doubleQuoted.take 26, ⟨0, 26⟩, "x ".toList,
        ⟨"./a'b.mjs".toList, ⟨15, 24⟩⟩⟩] := by
    unfold doubleQuoted
    repeat rw [String.toList_ofList]
    decide +kernel
  have hdynamic : Analyzer.standard.dynamicImports doubleQuoted =
      .ok [⟨doubleQuoted.drop 26, ⟨26, 47⟩, "\"./a%27b.mjs\"".toList, ⟨33, 46⟩⟩] := by
    unfold doubleQuoted
    repeat rw [String.toList_ofList]
    decide +kernel
  have hexports : Analyzer.standard.exports doubleQuoted = .ok [] := by
    unfold doubleQuoted
    rw [String.toList_ofList]
    decide +kernel
  unfold sites
  rw [hstatic, hdynamic, hexports]
  refine congrArg (fun sorted => Except.ok (List.eraseRepsBy _ sorted))
    (List.mergeSort_of_pairwise ?_)
  decide +kernel

/-- An export from another module. -/
def passedOn : List Char := "export \x7b y \x7d from './y.mjs'".toList

/-- The tokens of the export. -/
def passedOnTokens : List Token :=
  [⟨.keyword .exportKw, ⟨0, 6⟩⟩, ⟨.punct .lBrace, ⟨7, 8⟩⟩, ⟨.identifier, ⟨9, 10⟩⟩,
    ⟨.punct .rBrace, ⟨11, 12⟩⟩, ⟨.identifier, ⟨13, 17⟩⟩, ⟨.string, ⟨18, 27⟩⟩]

/-- Between double quotes the apostrophe does no harm, and the rewritten export is one from the
module that its name was resolved to. -/
theorem rewrite_resolved_quoted :
    (tokenize doubleQuoted = .ok (doubleQuotedTokens, []) ∧
      ∃ out, rewrite apostropheResolve doubleQuoted = .ok out ∧
        ∃ tokens comments, tokenize out = .ok (tokens, comments) ∧
          tokens.map Token.kind = doubleQuotedTokens.map Token.kind) ∧
    tokenize passedOn = .ok (passedOnTokens, []) ∧
      ∃ out found, rewrite (fun _ => .ok "file:///w/y.mjs".toList) passedOn = .ok out ∧
        sites .standard out = .ok found ∧
        found.map Specifier.text = ["file:///w/y.mjs".toList] := by
  have hquoted : tokenize doubleQuoted = .ok (doubleQuotedTokens, []) := by
    unfold doubleQuoted
    rw [String.toList_ofList]
    decide +kernel
  have hpassed : tokenize passedOn = .ok (passedOnTokens, []) := by
    unfold passedOn
    rw [String.toList_ofList]
    decide +kernel
  have hsites : sites .standard passedOn = .ok [⟨"./y.mjs".toList, ⟨19, 26⟩⟩] := by
    unfold passedOn
    repeat rw [String.toList_ofList]
    decide +kernel
  have hentries : (Shape.exportDestructured.matchesIn passedOn).length = 0 := by
    unfold passedOn
    rw [String.toList_ofList]
    decide +kernel
  refine ⟨⟨hquoted, ?_⟩, hpassed, ?_⟩
  · obtain ⟨found, hfound, -, -, hrewrite⟩ := rewrite_resolved hquoted
    obtain rfl := Except.ok.inj (hfound.symm.trans sites_doubleQuoted)
    obtain ⟨out, hout, -, haccepted, -⟩ := (hrewrite apostropheResolve
      (fun _ => "file:///w/a'b.mjs".toList) fun s hs =>
        apostropheResolve_spellings s.text (List.mem_map_of_mem hs)).1 (by unfold Apart; decide)
    refine ⟨out, hout, haccepted (by decide) ?_⟩
    unfold Edit.IsQuoted
    decide +kernel
  · obtain ⟨found, hfound, -, -, hrewrite⟩ := rewrite_resolved hpassed
    obtain rfl := Except.ok.inj (hfound.symm.trans hsites)
    obtain ⟨out, hout, hsplices, -, hnamed⟩ := (hrewrite (fun _ => .ok "file:///w/y.mjs".toList)
      (fun _ => "file:///w/y.mjs".toList) fun _ _ => rfl).1 (List.pairwise_singleton _ _)
    have hshort : Text.byteLength out < 2 ^ 32 - 1 := by
      rw [← hsplices.applyFrom_eq]
      decide +kernel
    obtain ⟨found', hfound', htexts⟩ := hnamed (by decide) hshort <| by
      refine ⟨fun e he => ?_, List.pairwise_singleton _ _, ?_, fun m hm => ?_⟩
      · obtain rfl := List.mem_singleton.1 he
        exact ⟨⟨"export \x7b y \x7d from ".toList, '\'', "./y.mjs".toList, [], rfl, rfl,
          by decide, rfl, rfl⟩, by decide⟩
      · unfold Edit.IsQuoted
        decide +kernel
      · rw [List.eq_nil_of_length_eq_zero hentries] at hm
        cases hm
    exact ⟨out, found', hout, hfound', htexts⟩

/-- Between apostrophes the one in the name of the module ends the string, so the source is accepted
no more and its import names another module. -/
theorem rewrite_apostrophe :
    let source := "import x from './a%27b.mjs'".toList
    let out := "import x from 'file:///w/a'b.mjs'".toList
    (∃ tokens comments, tokenize source = .ok (tokens, comments)) ∧
      sites .standard source = .ok [⟨"./a%27b.mjs".toList, ⟨15, 26⟩⟩] ∧
      apostropheResolve "./a%27b.mjs".toList = .ok "file:///w/a'b.mjs".toList ∧
      rewrite apostropheResolve source = .ok out ∧
      tokenize out = .error (.unterminated .string 32) ∧
      sites .standard out = .ok [⟨"file:///w/a".toList, ⟨15, 26⟩⟩] := by
  intro source out
  have htokens : tokenize source = .ok ([⟨.keyword .importKw, ⟨0, 6⟩⟩, ⟨.identifier, ⟨7, 8⟩⟩,
      ⟨.identifier, ⟨9, 13⟩⟩, ⟨.string, ⟨14, 27⟩⟩], []) := by
    subst source
    rw [String.toList_ofList]
    decide +kernel
  have hsites : sites .standard source = .ok [⟨"./a%27b.mjs".toList, ⟨15, 26⟩⟩] := by
    subst source
    repeat rw [String.toList_ofList]
    decide +kernel
  have hresolve : apostropheResolve "./a%27b.mjs".toList = .ok "file:///w/a'b.mjs".toList :=
    apostropheResolve_spellings _ (List.mem_cons_of_mem _ List.mem_cons_self)
  have hrewrite : rewrite apostropheResolve source = .ok out := by
    have heq := @rewrite_eq source apostropheResolve (fun _ => "file:///w/a'b.mjs".toList) _ hsites
      (by simpa using hresolve)
    refine heq.trans ?_
    subst source out
    repeat rw [String.toList_ofList]
    decide +kernel
  refine ⟨⟨_, _, htokens⟩, hsites, hresolve, hrewrite, ?_, ?_⟩
  · subst out
    rw [String.toList_ofList]
    decide +kernel
  · subst out
    repeat rw [String.toList_ofList]
    decide +kernel

end Rewriting

end EsModules
