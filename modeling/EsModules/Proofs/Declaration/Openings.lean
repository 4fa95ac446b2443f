import EsModules.Proofs.Declaration.Place
import EsModules.Proofs.Pattern.Steady
import EsModules.Proofs.Token.Fillers

/-!
# What exports go on with

Behind its word an export goes on with a bracket, a star or one of a few words.  A text in which no
`export` is followed by one of these holds no export.

* `Opens`: what stands behind the word of an export; `Shape.GoesOnWith`: what the shapes ask for.
* `ExportRecord.opens_of_candidates`: every candidate has it.
* `Shut`: a text in front of another in which no export starts; its lemmas go piece by piece.
* `exports_of_single`: a source with one candidate that encloses the keyword has one export.
-/

namespace EsModules

open Pattern

/-! ## Behind the word -/

/-- A text starts with one of some words. -/
def StartsWithOne (words : List String) (cs : List Char) : Prop := ∃ w ∈ words, w.toList <+: cs

/-- Behind some spaces, which a bracket and a star need not have in front of them, stands one of some
words. -/
structure Opens (words : List String) (cs : List Char) : Prop where
  apart : ∀ c ∈ cs.head?, Ascii.isSpace c = true ∨ c = '\x7b' ∨ c = '*'
  starts : StartsWithOne words (cs.dropWhile Ascii.isSpace)

namespace Shape

/-- The words that declare values. -/
def declaring : List String :=
  ["async function", "function", "let", "const", "enum", "var", "class"]

/-- What an export of values goes on with. -/
def openings : List String := "\x7b" :: "*" :: "default" :: declaring

/-- Every match of a pattern starts with `export` and goes on with one of some words. -/
def GoesOnWith (words : List String) (p : Pattern Part) : Prop :=
  ∀ c caps c' caps', Matches p c caps c' caps' →
    ∃ b, c.rest = "export".toList ++ b ∧ Opens words b

/-- All that a pattern describes starts with one of some words. -/
def BeginsWithOne (words : List String) (p : Pattern Part) : Prop :=
  ∀ c caps c' caps', Matches p c caps c' caps' → StartsWithOne words c.rest

variable {words words' : List String} {p q : Pattern Part} {β : Type} {before : Option Char}
  {pos : Nat} {caps : Captures Part} {k : Follow Part β} {rest : List Char}

theorem GoesOnWith.append (h : GoesOnWith words p) (q : Pattern Part) :
    GoesOnWith words (p ++ q) := by
  intro c caps c' caps' hmatch
  cases hmatch with
  | seq hp _ => exact h _ _ _ _ hp

theorem GoesOnWith.alt (hp : GoesOnWith words p) (hq : GoesOnWith words q) :
    GoesOnWith words (alt p q) := by
  intro c caps c' caps' hmatch
  cases hmatch with
  | altFirst h => exact hp _ _ _ _ h
  | altSecond h => exact hq _ _ _ _ h

theorem beginsWithOne_of_begins {w : String} (hw : w ∈ words) (h : Begins w.toList p) :
    BeginsWithOne words p :=
  fun _ _ _ _ hmatch => ⟨w, hw, h _ _ _ _ hmatch⟩

theorem BeginsWithOne.append (h : BeginsWithOne words p) (q : Pattern Part) :
    BeginsWithOne words (p ++ q) := by
  intro c caps c' caps' hmatch
  cases hmatch with
  | seq hp _ => exact h _ _ _ _ hp

theorem BeginsWithOne.alt (hp : BeginsWithOne words p) (hq : BeginsWithOne words q) :
    BeginsWithOne words (alt p q) := by
  intro c caps c' caps' hmatch
  cases hmatch with
  | altFirst h => exact hp _ _ _ _ h
  | altSecond h => exact hq _ _ _ _ h

theorem BeginsWithOne.capture (h : BeginsWithOne words p) (label : Part) :
    BeginsWithOne words (capture label p) := by
  intro c caps c' caps' hmatch
  cases hmatch with
  | capture hp => exact h _ _ _ _ hp

/-- One of several words is one of those that hold them all. -/
theorem beginsWithOne_oneWord {texts : List String} (h : texts ⊆ words) :
    BeginsWithOne words (oneWord texts : Pattern Part) := by
  intro c caps c' caps' hmatch
  obtain ⟨w, hw, hword⟩ := matches_oneWord_iff.1 hmatch
  exact ⟨w, h hw, begins_literal _ _ _ _ _ hword⟩

/-- None of some words is empty or starts with a space. -/
abbrev StartWithNoSpace (words : List String) : Prop :=
  ∀ w ∈ words, w.toList.head?.any (fun c => !Ascii.isSpace c) = true

/-- Where spaces end if one of the words stands behind them. -/
theorem dropWhile_spaces {sp x : List Char} (hsp : ∀ c ∈ sp, Ascii.isSpace c = true)
    (hwords : StartWithNoSpace words) (hx : StartsWithOne words x) :
    (sp ++ x).dropWhile Ascii.isSpace = x := by
  obtain ⟨w, hw, hprefix⟩ := hx
  obtain ⟨rest, rfl⟩ := hprefix
  have hhead := hwords w hw
  have hne : w.toList ≠ [] := by
    rintro h
    simp [h] at hhead
  obtain ⟨c, r, hcr⟩ := List.exists_cons_of_ne_nil hne
  have hc : ¬ Ascii.isSpace c = true := by simpa [hcr] using hhead
  rw [List.dropWhile_append_of_pos hsp, hcr, List.cons_append, List.dropWhile_cons_of_neg hc]

/-- Behind spaces, which a bracket and a star need not have in front of them, one of some words
follows. -/
theorem opens_of_spaces {sp x : List Char} (hsp : ∀ c ∈ sp, Ascii.isSpace c = true)
    (hwords : StartWithNoSpace words) (hx : StartsWithOne words x)
    (hapart : sp = [] → ∀ c ∈ x.head?, c = '\x7b' ∨ c = '*') : Opens words (sp ++ x) := by
  refine ⟨fun c hc => ?_, (dropWhile_spaces hsp hwords hx).symm ▸ hx⟩
  cases sp with
  | nil => exact .inr (hapart rfl c hc)
  | cons d sp =>
    obtain rfl := Option.some.inj hc
    exact .inl (hsp _ List.mem_cons_self)

/-- The front of an export is its word. -/
theorem matches_exportFront {c c' : Cursor} {caps caps' : Captures Part}
    (h : Matches exportFront c caps c' caps') :
    c.rest = "export".toList ++ c'.rest ∧ c'.before = some 't' ∧ c'.pos = c.pos + 6 ∧
      caps' = caps := by
  cases h with
  | seq hedge hword =>
    cases hedge
    obtain ⟨hrest, hend, hcaps⟩ := hword.of_literal
    exact ⟨hrest, congrArg Cursor.before hend, congrArg Cursor.pos hend, hcaps⟩

/-- A single space is taken. -/
theorem attempt_spaces1 (h : ∀ c ∈ rest.head?, Ascii.isSpace c = false) :
    spaces1.attempt ⟨before, pos, ' ' :: rest⟩ caps k = k ⟨some ' ', pos + 1, rest⟩ caps := by
  show spaces.attempt ⟨some ' ', pos + 1, rest⟩ caps k = _
  cases rest with
  | nil => exact attempt_run_nil
  | cons c rest =>
    unfold spaces
    rw [attempt_run_cons, h c rfl]
    exact Option.none_or

/-- The front of an export. -/
theorem attempt_exportFront {k : Follow Part β} :
    exportFront.attempt (.start ("export".toList ++ rest)) [] k = k ⟨some 't', 6, rest⟩ [] :=
  attempt_literal "export".toList rest

/-- Behind its word and at least one space an export goes on with one of some words. -/
theorem goesOnWith_spaces1 (hwords : StartWithNoSpace words) (hq : BeginsWithOne words q) :
    GoesOnWith words (exportFront ++ spaces1 ++ q) := by
  intro c caps c' caps' hmatch
  cases hmatch with
  | seq hfront hq' =>
    cases hfront with
    | seq hfront hspaces =>
      cases hspaces with
      | seq hfirst hrun =>
        cases hfirst with
        | char hspace =>
          obtain ⟨hrest, -⟩ := matches_exportFront hfront
          obtain ⟨sp, hsp, hsplit, -⟩ := hrun.exists_text
          refine ⟨_, hrest, ?_⟩
          have hopens := opens_of_spaces (List.forall_mem_cons.2 ⟨hspace, hsp⟩) hwords
            (hq _ _ _ _ hq') fun h => absurd h (List.cons_ne_nil _ _)
          rw [List.cons_append] at hopens
          dsimp only at hsplit
          rwa [hsplit]

/-- Behind its word and any spaces an export goes on with a bracket or a star. -/
theorem goesOnWith_spaces {w : String} (hw : w = "\x7b" ∨ w = "*") (hq : Begins w.toList q) :
    GoesOnWith [w] (exportFront ++ spaces ++ q) := by
  intro c caps c' caps' hmatch
  cases hmatch with
  | seq hfront hq' =>
    cases hfront with
    | seq hfront hspaces =>
      obtain ⟨hrest, -⟩ := matches_exportFront hfront
      obtain ⟨sp, hsp, hsplit, -⟩ := hspaces.exists_text
      refine ⟨_, hrest, ?_⟩
      have hprefix := hq _ _ _ _ hq'
      rw [hsplit]
      refine opens_of_spaces hsp ?_ ⟨w, List.mem_singleton_self w, hprefix⟩ fun _ c hc => ?_
      · rcases hw with rfl | rfl <;> decide
      · rcases hw with rfl | rfl <;>
        · obtain ⟨rest, hrest'⟩ := hprefix
          rw [← hrest'] at hc
          obtain rfl := Option.some.inj hc
          decide

/-! ## The shapes of exports -/

theorem goesOnWith_exportDeclaration : GoesOnWith declaring exportDeclaration := by
  have hfunction : BeginsWithOne declaring (functionWords "function") :=
    ((beginsWithOne_of_begins (by decide) (begins_literal _)).append _).append _
  have hasync : BeginsWithOne declaring (functionWords "async function") :=
    ((beginsWithOne_of_begins (by decide) (begins_literal _)).append _).append _
  have hconst : BeginsWithOne declaring (word "const enum" : Pattern Part) := by
    intro c caps c' caps' hmatch
    refine ⟨"const", by decide, List.IsPrefix.trans ?_ (begins_literal _ _ _ _ _ hmatch)⟩
    decide
  have hword : ∀ w ∈ declaring, BeginsWithOne declaring (word w : Pattern Part) :=
    fun w hw => beginsWithOne_of_begins hw (begins_literal _)
  have hwords : BeginsWithOne declaring valueWords := by
    refine hasync.alt (hfunction.alt ?_)
    exact (hword "let" (by decide)).alt (hconst.alt ((hword "const" (by decide)).alt
      ((hword "enum" (by decide)).alt ((hword "var" (by decide)).alt (hword "class" (by decide))))))
  exact ((((goesOnWith_spaces1 (by decide) (hwords.capture _)).append _).append _).append _).append _

theorem goesOnWith_exportNamed : GoesOnWith ["\x7b"] exportNamed := by
  have hbrace : Begins "\x7b".toList (char (· == '\x7b') : Pattern Part) := by
    intro c caps c' caps' hmatch
    cases hmatch with
    | char ha =>
      obtain rfl := eq_of_beq ha
      exact List.prefix_append _ _
  exact goesOnWith_spaces (.inl rfl) ((((hbrace.append _).append _).append _).append _)

theorem goesOnWith_exportDestructured :
    GoesOnWith ["let", "var", "const"] exportDestructured :=
  ((((goesOnWith_spaces1 (by decide) (beginsWithOne_oneWord (List.Subset.refl _))).append _).append
    _).append _).append _

theorem goesOnWith_exportDefaultFront : GoesOnWith ["default"] exportDefaultFront :=
  (goesOnWith_spaces1 (by decide) (beginsWithOne_of_begins (List.mem_singleton_self _)
    (begins_literal _))).append _

theorem goesOnWith_exportDefault : GoesOnWith ["default"] exportDefault :=
  (goesOnWith_exportDefaultFront.append _).alt (goesOnWith_exportDefaultFront.append _)

theorem goesOnWith_exportDefaultClass : GoesOnWith ["default"] exportDefaultClass :=
  ((goesOnWith_exportDefaultFront.append _).append _).append _

theorem goesOnWith_exportStar : GoesOnWith ["*"] exportStar := by
  have hstar : Begins "*".toList (char (· == '*') : Pattern Part) := by
    intro c caps c' caps' hmatch
    cases hmatch with
    | char ha =>
      obtain rfl := eq_of_beq ha
      exact List.prefix_append _ _
  exact (((goesOnWith_spaces (.inr rfl) hstar).append _).append _).append _

end Shape

/-! ## Candidates -/

/-- What stands behind a word among fewer words stands behind one among more. -/
theorem Opens.mono {words words' : List String} {cs : List Char} (h : Opens words cs)
    (hwords : words ⊆ words') : Opens words' cs := by
  obtain ⟨w, hw, hprefix⟩ := h.starts
  exact ⟨h.apart, w, hwords hw, hprefix⟩

/-- Behind a space stands none of some words if all of them start with another character. -/
theorem not_opens_of_head {words : List String} {d : Char} {y : List Char}
    (hd : Ascii.isSpace d = false) (h : ∀ w ∈ words, w.toList.head?.any (· != d) = true) :
    ¬ Opens words (' ' :: d :: y) := by
  intro hopens
  obtain ⟨w, hw, r, hr⟩ := hopens.starts
  have hdrop : (' ' :: d :: y).dropWhile Ascii.isSpace = d :: y := by
    rw [List.dropWhile_cons_of_pos rfl, List.dropWhile_cons_of_neg (by simp [hd])]
  rw [hdrop] at hr
  have hhead := h w hw
  cases htext : w.toList with
  | nil => simp [htext] at hhead
  | cons c t =>
    rw [htext] at hhead hr
    obtain ⟨rfl, -⟩ := List.cons.inj hr
    simp at hhead

/-- A range starts in a source where it reads `export` and goes on with one of some words. -/
def OpensAt (source : List Char) (words : List String) (range : Span) : Prop :=
  ∃ a b, source = a ++ ("export".toList ++ b) ∧ range.start = Text.byteLength a ∧ Opens words b

variable {source : List Char}

theorem OpensAt.mono {words words' : List String} {range : Span} (h : OpensAt source words range)
    (hwords : words ⊆ words') : OpensAt source words' range := by
  obtain ⟨a, b, hs, hstart, hopens⟩ := h
  exact ⟨a, b, hs, hstart, hopens.mono hwords⟩

/-- What a shape finds goes on as the shape does. -/
theorem Shape.GoesOnWith.opensAt {words : List String} {shape : Pattern Part}
    (h : GoesOnWith words shape) : ∀ m ∈ shape.matchesIn source, OpensAt source words m.span := by
  intro m hm
  obtain ⟨⟨a, hs, hpos, -⟩, hmatch⟩ := found_of_matchesIn m hm
  obtain ⟨b, hrest, hopens⟩ := h _ _ _ _ hmatch
  exact ⟨a, b, by rw [hs, hrest], hpos, hopens⟩

namespace ExportRecord

/-- The records that a shape gives go on as the shape does. -/
theorem opensAt_of_shape {words : List String} {shape : Pattern Part}
    {record : Match Part → ExportRecord} (hshape : Shape.GoesOnWith words shape)
    (hplace : ∀ m, (record m).span = m.span) :
    ∀ r ∈ (shape.matchesIn source).map record, OpensAt source words r.span := by
  intro r hr
  obtain ⟨m, hm, rfl⟩ := List.mem_map.1 hr
  rw [hplace]
  exact hshape.opensAt m hm

/-- The candidates of all shapes but declarations and lists. -/
def otherCandidates (source : List Char) : List ExportRecord :=
  ((Shape.exportDestructured.matchesIn source).map (ofList boundName source)
    ++ (Shape.exportDefault.matchesIn source).map (ofDefault source)
    ++ (Shape.exportDefaultClass.matchesIn source).map (ofMatch .declaration source)
    ++ (Shape.exportStar.matchesIn source).map (ofMatch .star source)).map normalize

theorem candidates_eq (source : List Char) : candidates source =
    ((Shape.exportDeclaration.matchesIn source).map (ofDeclaration source)).map normalize ++
      ((Shape.exportNamed.matchesIn source).map (ofList exportedName source)).map normalize ++
        otherCandidates source := by
  simp [candidates, otherCandidates]

/-- What the exports go on with that are neither declarations nor lists. -/
def otherOpenings : List String := ["*", "default", "let", "var", "const"]

theorem opensAt_otherCandidates :
    ∀ r ∈ otherCandidates source, OpensAt source otherOpenings r.span := by
  intro r hmem
  obtain ⟨r, hr, rfl⟩ := List.mem_map.1 hmem
  simp only [List.mem_append] at hr
  rcases hr with ((hr | hr) | hr) | hr
  · exact (opensAt_of_shape Shape.goesOnWith_exportDestructured (fun _ => rfl) r hr).mono
      (by decide)
  · exact (opensAt_of_shape Shape.goesOnWith_exportDefault (fun _ => rfl) r hr).mono (by decide)
  · exact (opensAt_of_shape Shape.goesOnWith_exportDefaultClass (fun _ => rfl) r hr).mono
      (by decide)
  · exact (opensAt_of_shape Shape.goesOnWith_exportStar (fun _ => rfl) r hr).mono (by decide)

theorem opensAt_declarations :
    ∀ r ∈ ((Shape.exportDeclaration.matchesIn source).map (ofDeclaration source)).map normalize,
      OpensAt source Shape.declaring r.span := by
  intro r hmem
  obtain ⟨r, hr, rfl⟩ := List.mem_map.1 hmem
  exact opensAt_of_shape Shape.goesOnWith_exportDeclaration span_ofDeclaration r hr

theorem opensAt_lists :
    ∀ r ∈ ((Shape.exportNamed.matchesIn source).map (ofList exportedName source)).map normalize,
      OpensAt source ["\x7b"] r.span := by
  intro r hmem
  obtain ⟨r, hr, rfl⟩ := List.mem_map.1 hmem
  exact opensAt_of_shape Shape.goesOnWith_exportNamed (fun _ => rfl) r hr

/-- **Every candidate starts with its word and goes on with one of the openings.** -/
theorem opensAt_candidates : ∀ r ∈ candidates source, OpensAt source Shape.openings r.span := by
  intro r hr
  rw [candidates_eq, List.mem_append, List.mem_append] at hr
  rcases hr with (hr | hr) | hr
  · exact (opensAt_declarations r hr).mono (by decide)
  · exact (opensAt_lists r hr).mono (by decide)
  · exact (opensAt_otherCandidates r hr).mono (by decide)

end ExportRecord

/-- A range does not start at the front of a source where none of the words follows the first
`export`. -/
theorem OpensAt.start_ne_zero {words : List String} {range : Span} {b : List Char}
    (h : OpensAt ("export".toList ++ b) words range) (hb : ¬ Opens words b) : range.start ≠ 0 := by
  obtain ⟨a, b', hs, hstart, hopens⟩ := h
  intro hzero
  obtain rfl : a = [] := by
    by_contra hne
    have hpos := Text.byteLength_pos hne
    omega
  exact hb (List.append_cancel_left hs ▸ hopens)

namespace Shape.GoesOnWith

variable {words : List String} {shape : Pattern Part}

/-- A shape finds nothing at the front of a source that goes on otherwise. -/
theorem matchAt?_eq_none {b : List Char} (h : GoesOnWith words shape) (hb : ¬ Opens words b) :
    shape.matchAt? (.start ("export".toList ++ b)) = none := by
  refine attempt_eq_none fun c' caps' hmatch => ?_
  obtain ⟨b', hrest, hopens⟩ := h _ _ _ _ hmatch
  obtain rfl : b = b' := List.append_cancel_left hrest
  exact absurd hopens hb

/-- A shape finds nothing in a source in which exports start at the front only, but not that
shape. -/
theorem matchesIn_eq_nil (h : GoesOnWith words shape)
    (hfirst : ∀ range, OpensAt source words range → range.start = 0)
    (hnone : shape.matchAt? (.start source) = none) : shape.matchesIn source = [] := by
  refine List.eq_nil_iff_forall_not_mem.2 fun m hm => ?_
  have hzero : m.front.pos = 0 := hfirst _ (h.opensAt m hm)
  obtain ⟨a, hs, hpos, hbefore⟩ := (found_of_matchesIn m hm).front_at
  have hplace : m.front = .start source := by
    obtain rfl : a = [] := by
      by_contra hne
      have hlong := Text.byteLength_pos hne
      omega
    obtain ⟨⟨before, pos, rest⟩, back, captures⟩ := m
    obtain rfl : before = none := hbefore
    obtain rfl : pos = 0 := hzero
    obtain rfl : source = rest := hs
    rfl
  have hmatch := matchAt?_of_select m hm
  rw [hplace, hnone] at hmatch
  cases hmatch

/-- A shape finds one thing in a source in which exports start at the front only. -/
theorem matchesIn_eq_singleton {m : Match Part} (h : GoesOnWith words shape)
    (hfirst : ∀ range, OpensAt source words range → range.start = 0)
    (hmatch : shape.matchAt? (.start source) = some m) : shape.matchesIn source = [m] := by
  obtain ⟨ms, hms, hbehind⟩ := matchesIn_of_matchAt? hmatch
  rw [hms]
  refine congrArg (m :: ·) (List.eq_nil_iff_forall_not_mem.2 fun m' hm' => ?_)
  have hmem : m' ∈ shape.matchesIn source := hms ▸ List.mem_cons_of_mem m hm'
  have hzero : m'.front.pos = 0 := hfirst _ (h.opensAt m' hmem)
  obtain ⟨a, hs, hpos, -⟩ := (found_of_matchesIn m' hmem).front_at
  have hlength := congrArg List.length hs
  have hlt := hbehind m' hm'
  rw [List.length_append] at hlength
  have hlong : 0 < Text.byteLength a := Text.byteLength_pos (by rintro rfl; simp at hlength; omega)
  omega

end Shape.GoesOnWith

/-! ## Sources with one export -/

theorem Analyzer.exports_of_confirmed {r : ExportRecord}
    (h : standard.confirmed source .exportKw ExportRecord.span (ExportRecord.candidates source) =
      .ok [r]) : standard.exports source = .ok [r] := by
  rw [exports, h]
  show Except.ok (ExportRecord.collapse ([r].mergeSort ExportRecord.before)) = _
  rw [List.mergeSort_singleton]
  rfl

/-- If one candidate of a source encloses the keyword and the others do not, it is the export of the
source. -/
theorem Analyzer.exports_of_kept {tokens : List Token} {comments : List Span}
    (htokens : tokenize source = .ok (tokens, comments)) {front back : List ExportRecord}
    {r : ExportRecord} (hcandidates : ExportRecord.candidates source = front ++ r :: back)
    (hkept : keepsRange tokens .exportKw r.span = true)
    (hdropped : ∀ r' ∈ front ++ back, keepsRange tokens .exportKw r'.span = false) :
    standard.exports source = .ok [r] := by
  have hnone : ∀ rs ⊆ front ++ back,
      (rs.filter fun c => keepsRange tokens .exportKw c.span) = [] := by
    refine fun rs hrs => List.filter_eq_nil_iff.2 fun r' hr' => ?_
    simp [hdropped r' (hrs hr')]
  have hfilter : ((ExportRecord.candidates source).filter fun c =>
      keepsRange tokens .exportKw c.span) = [r] := by
    rw [hcandidates, List.filter_append,
      List.filter_cons_of_pos (p := fun c : ExportRecord => keepsRange tokens .exportKw c.span)
        hkept,
      hnone front (List.subset_append_left _ _), hnone back (List.subset_append_right _ _)]
    rfl
  exact exports_of_confirmed ((confirmed_of_accepted htokens _ _ _).trans (congrArg _ hfilter))

/-- The only candidate of a source that starts with the keyword is its export. -/
theorem Analyzer.exports_of_single {s : List Char} {r : ExportRecord}
    (hsource : source = "export".toList ++ s)
    (hs : ∀ c ∈ s.head?, isWordPart c = false ∧ c ≠ '\\')
    (hcandidates : ExportRecord.candidates source = [r]) (hstart : r.span.start = 0)
    (hstop : 6 ≤ r.span.stop) (hoverrun : tokenize source ≠ .error .overrun) :
    standard.exports source = .ok [r] := by
  cases htokens : tokenize source with
  | ok found =>
    obtain ⟨tokens, comments⟩ := found
    have hfront : (Lexer.start source).InFront ("export".toList ++ s) := by
      rw [hsource]
      exact ⟨rfl, rfl, List.not_mem_nil⟩
    have hmember : (Lexer.start source).afterMember = false := by
      rw [hsource]
      rfl
    have hpos : (Lexer.start source).pos = 0 := by
      rw [hsource]
      rfl
    have hleads := Lexer.leads_of_step (Lexer.step_export hmember hs hfront) (by simp)
    obtain ⟨lexemes, cs, hlexemes, rfl, -⟩ := tokenize_eq_ok.1 htokens
    obtain ⟨behind, -, hbehind⟩ := map_eq_ok.1 (hleads.symm.trans hlexemes)
    obtain ⟨rfl, -⟩ := Prod.mk.inj hbehind
    have halone : ExportRecord.candidates source = [] ++ r :: [] := hcandidates
    refine exports_of_kept htokens halone ?_ fun r hr => by cases hr
    rw [hpos]
    exact keepsRange_of_first (by decide) hstart hstop
  | error e =>
    cases e with
    | overrun => exact absurd htokens hoverrun
    | unterminated what offset =>
      exact exports_of_confirmed
        ((confirmed_of_rejected htokens _ _ _).trans (congrArg _ hcandidates))

/-- A list at the front of a source is its only export if no other candidate encloses the
keyword. -/
theorem Analyzer.exports_of_list {tokens : List Token} {comments : List Span} {m : Match Part}
    (htokens : tokenize source = .ok (tokens, comments))
    (hmatch : Shape.exportNamed.matchAt? (.start source) = some m)
    (hkept : keepsRange tokens .exportKw m.span = true)
    (hfirst : ∀ range, OpensAt source Shape.openings range →
      keepsRange tokens .exportKw range = true → range.start = 0) :
    standard.exports source =
      .ok [(ExportRecord.ofList ExportRecord.exportedName source m).normalize] := by
  obtain ⟨ms, hms, hbehind⟩ := matchesIn_of_matchAt? hmatch
  have hfront := front_of_matchAt? hmatch
  obtain ⟨b, hb, hopens⟩ := Shape.goesOnWith_exportNamed _ _ _ _ (matches_of_matchAt? hmatch)
  have hsource : source = "export".toList ++ b := by
    rw [← hb, hfront]
    rfl
  -- behind the word stands a bracket, which no other shape goes on with
  have hbrace : ∀ words ⊆ Shape.openings, "\x7b" ∉ words → ¬ Opens words b := by
    intro words hwords hnot hother
    obtain ⟨w, hw, hprefix⟩ := hother.starts
    obtain ⟨w', hw', hprefix'⟩ := hopens.starts
    obtain rfl := List.mem_singleton.1 hw'
    have hhead : ∀ w ∈ Shape.openings, w.toList.head? = some '\x7b' → w = "\x7b" := by decide
    have hne : ∀ w ∈ Shape.openings, w.toList ≠ [] := by decide
    refine hnot (hhead w (hwords hw) ?_ ▸ hw)
    obtain ⟨rest, hrest⟩ := hprefix
    obtain ⟨rest', hrest'⟩ := hprefix'
    rw [← List.head?_append_of_ne_nil _ (hne w (hwords hw)), hrest, ← hrest']
    rfl
  have hdropped : ∀ {words : List String} {r : ExportRecord}, words ⊆ Shape.openings →
      OpensAt source words r.span → r.span.start ≠ 0 →
        keepsRange tokens .exportKw r.span = false := by
    rintro words r hwords ⟨a, b, hs, hstart, hopens⟩ hne
    exact Bool.eq_false_iff.2 fun h => hne (hfirst _ ⟨a, b, hs, hstart, hopens.mono hwords⟩ h)
  have hcandidates : ExportRecord.candidates source =
      ((Shape.exportDeclaration.matchesIn source).map (ExportRecord.ofDeclaration source)).map
        ExportRecord.normalize ++
      (ExportRecord.ofList ExportRecord.exportedName source m).normalize ::
        ((ms.map (ExportRecord.ofList ExportRecord.exportedName source)).map ExportRecord.normalize ++
          ExportRecord.otherCandidates source) := by
    rw [ExportRecord.candidates_eq, hms]
    simp
  refine exports_of_kept htokens hcandidates hkept ?_
  · intro r hr
    simp only [List.mem_append] at hr
    rcases hr with hr | hr | hr
    · have h := ExportRecord.opensAt_declarations r hr
      exact hdropped (by decide) h
        ((hsource ▸ h).start_ne_zero (hbrace _ (by decide) (by decide)))
    · obtain ⟨r, hlist, rfl⟩ := List.mem_map.1 hr
      obtain ⟨m', hm', rfl⟩ := List.mem_map.1 hlist
      have hmem : m' ∈ Shape.exportNamed.matchesIn source := hms ▸ List.mem_cons_of_mem m hm'
      refine hdropped (by decide) (Shape.goesOnWith_exportNamed.opensAt m' hmem) fun hzero => ?_
      obtain ⟨a, hs, hpos, -⟩ := (found_of_matchesIn m' hmem).front_at
      have hlength := congrArg List.length hs
      have hlt := hbehind m' hm'
      rw [List.length_append] at hlength
      have hlong : 0 < Text.byteLength a := Text.byteLength_pos (by rintro rfl; simp at hlength; omega)
      have hstart : m'.front.pos = 0 := hzero
      omega
    · have h := ExportRecord.opensAt_otherCandidates r hr
      exact hdropped (by decide) h
        ((hsource ▸ h).start_ne_zero (hbrace _ (by decide) (by decide)))

/-! ## Texts in which no export starts -/

/-- In a text, with another behind it, no `export` goes on as an export does. -/
def Shut (u s : List Char) : Prop :=
  ∀ a b, u ++ s = a ++ ("export".toList ++ b) → a.length < u.length → ¬ Opens Shape.openings b

section Shut

variable {u v s : List Char}

theorem shut_nil : Shut [] s := fun _ _ _ hlt => absurd hlt (Nat.not_lt_zero _)

theorem Shut.append (hu : Shut u (v ++ s)) (hv : Shut v s) : Shut (u ++ v) s := by
  intro a b h hlt
  rw [List.append_assoc] at h
  by_cases hin : a.length < u.length
  · exact hu a b h hin
  · obtain ⟨m, rfl⟩ := List.prefix_of_prefix_length_le ⟨_, rfl⟩ ⟨_, h.symm⟩ (Nat.le_of_not_lt hin)
    rw [List.append_assoc] at h
    refine hv m b (List.append_cancel_left h) ?_
    rw [List.length_append, List.length_append] at hlt
    omega

/-- A word that starts in the first of two texts lies in it, or goes on in the second. -/
theorem append_cases {u s a w b : List Char} (h : u ++ s = a ++ (w ++ b)) :
    a.length < u.length → (∃ m, u = a ++ (w ++ m) ∧ b = m ++ s) ∨
      ∃ w₁ w₂, w = w₁ ++ w₂ ∧ w₁ ≠ [] ∧ w₂ ≠ [] ∧ u = a ++ w₁ ∧ s = w₂ ++ b := by
  intro hlt
  obtain ⟨u', rfl⟩ := List.prefix_of_prefix_length_le ⟨_, h.symm⟩ ⟨s, rfl⟩ (Nat.le_of_lt hlt)
  rw [List.append_assoc] at h
  rcases List.append_eq_append_iff.1 (List.append_cancel_left h) with ⟨m, rfl, hs⟩ | ⟨m, rfl, hb⟩
  · cases m with
    | nil => exact .inl ⟨[], by simp, by simpa using hs.symm⟩
    | cons c m =>
      refine .inr ⟨u', c :: m, rfl, ?_, List.cons_ne_nil _ _, rfl, hs⟩
      rintro rfl
      simp at hlt
  · exact .inl ⟨m, rfl, hb⟩

theorem isWordPart_of_mem_export {c : Char} (h : c ∈ "export".toList) : isWordPart c = true := by
  have hall : "export".toList.all isWordPart = true := by decide
  exact List.all_eq_true.1 hall c h

/-- In a text that ends in a character that does not stand in it, only whole words start. -/
theorem shut_of_notInfix {d : Char} (hd : d ∉ "export".toList)
    (h : ¬ "export".toList <:+: u ++ [d]) : Shut (u ++ [d]) s := by
  intro a b hs hlt
  rcases append_cases hs hlt with ⟨m, hm, -⟩ | ⟨w₁, w₂, hw, hne, -, hu, -⟩
  · exact absurd ⟨a, m, by rw [hm, List.append_assoc]⟩ h
  · obtain ⟨init, c, rfl⟩ := List.eq_nil_or_concat w₁ |>.resolve_left hne
    rw [List.concat_eq_append, ← List.append_assoc] at hu
    obtain rfl : d = c := by simpa using (List.append_inj' hu rfl).2
    exact absurd (by rw [hw]; simp) hd

/-- A character that the word does not start with. -/
theorem shut_of_ne {c : Char} (h : c ≠ 'e') : Shut [c] s := by
  intro a b hs hlt
  obtain rfl : a = [] := List.length_eq_zero_iff.1 (Nat.lt_one_iff.1 hlt)
  exact absurd (List.cons.inj hs).1 h

/-- A text in which no export starts holds none either in front of a comma or a semicolon. -/
theorem Shut.followed {c : Char} (h : Shut u []) (hc : c = ',' ∨ c = ';') : Shut u (c :: s) := by
  intro a b hs hlt hopens
  have hspace : Ascii.isSpace c = false := by rcases hc with rfl | rfl <;> rfl
  rcases append_cases hs hlt with ⟨m, rfl, rfl⟩ | ⟨w₁, w₂, hw, -, hne, -, hcut⟩
  · refine h a m (by simp) hlt ⟨fun d hd => hopens.apart d ?_, ?_⟩
    · rw [List.head?_append, Option.mem_def.1 hd]
      rfl
    · -- none of the words holds the character, so the word ends in front of it
      obtain ⟨w, hwords, hprefix⟩ := hopens.starts
      have hnot : c ∉ w.toList := by
        have hall : ∀ w ∈ Shape.openings, ',' ∉ w.toList ∧ ';' ∉ w.toList := by decide
        rcases hc with rfl | rfl
        · exact (hall w hwords).1
        · exact (hall w hwords).2
      have hdrop : (m ++ c :: s).dropWhile Ascii.isSpace = m.dropWhile Ascii.isSpace ++ c :: s := by
        rw [List.dropWhile_append]
        split
        · rename_i hempty
          rw [List.isEmpty_iff.1 hempty, List.dropWhile_cons_of_neg (by simp [hspace])]
          rfl
        · rfl
      rw [hdrop] at hprefix
      refine ⟨w, hwords, ?_⟩
      obtain ⟨r, hr⟩ := hprefix
      rcases List.append_eq_append_iff.1 hr with ⟨t, ht, -⟩ | ⟨t, ht, hcut⟩
      · exact ⟨t, ht.symm⟩
      · cases t with
        | nil => exact ⟨[], by rw [ht, List.append_nil, List.append_nil]⟩
        | cons d t =>
          obtain ⟨rfl, -⟩ := List.cons.inj hcut
          exact absurd (ht ▸ List.mem_append_right _ List.mem_cons_self) hnot
  · obtain ⟨d, w₂, rfl⟩ := List.exists_cons_of_ne_nil hne
    obtain ⟨rfl, -⟩ := List.cons.inj hcut
    have hmem : c ∈ "export".toList := by
      rw [hw]
      simp
    rcases hc with rfl | rfl <;> exact absurd hmem (by decide)

/-- A word: if it ends in `export`, what stands behind it must not go on as an export does. -/
theorem shut_of_parts (hparts : ∀ c ∈ u, isWordPart c = true ∨ c = '\\')
    (hs : ∀ c ∈ s.head?, isWordPart c = false)
    (hend : "export".toList <:+ u → ¬ Opens Shape.openings s) : Shut u s := by
  intro a b h hlt hopens
  rcases append_cases h hlt with ⟨m, rfl, rfl⟩ | ⟨w₁, w₂, hw, -, hne, -, rfl⟩
  · cases m with
    | nil => exact hend ⟨a, by simp⟩ (by simpa using hopens)
    | cons c m =>
      have hc := hparts c (by simp)
      rcases hopens.apart c rfl with hspace | rfl | rfl
      · rcases hc with hc | rfl
        · have hnot := isSpace_of_isWordPart hc
          simp [isSpace, hspace] at hnot
        · cases hspace
      · exact absurd hc (by decide)
      · exact absurd hc (by decide)
  · obtain ⟨c, w₂, rfl⟩ := List.exists_cons_of_ne_nil hne
    have hc := isWordPart_of_mem_export (c := c) (by rw [hw]; simp)
    rw [hs c rfl] at hc
    cases hc

/-- In a source that starts with `export` no other export starts if none does behind its first
character. -/
theorem OpensAt.start_eq_zero (hshut : Shut ("xport".toList ++ s) []) {range : Span}
    (h : OpensAt ("export".toList ++ s) Shape.openings range) : range.start = 0 := by
  obtain ⟨a, b, hs, hstart, hopens⟩ := h
  cases a with
  | nil => exact hstart
  | cons c a =>
    have hrest : "xport".toList ++ s = a ++ ("export".toList ++ b) := (List.cons.inj hs).2
    refine absurd hopens (hshut a b ((List.append_nil _).trans hrest) ?_)
    have hlength := congrArg List.length hrest
    have hlong : "export".toList.length = 6 := rfl
    rw [@List.length_append _ a, @List.length_append _ "export".toList, hlong] at hlength
    omega

end Shut

end EsModules
