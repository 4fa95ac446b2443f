import EsModules.Proofs.Declaration.ClauseGaps
import EsModules.Proofs.Declaration.ListedNames

/-!
# Layouts of import clauses

A clause binds the same however its tokens are laid out, as long as its comments are cut out alone
and the words `as` stand between spaces: what is left of a gap is at most one space, and the blanks
around a name have no part in it.  A layout in which a comment is cut out with the names behind it,
or in which comments are all that stands between two words, may bind something else.

* `LaidClause`: a clause with a gap in front of each token; `LaidClause.text` is its text, and
  `LaidClause.plain` the text with one space in each gap.
* `LaidClause.isCut`, `LaidClause.isSpaced`: when the layout does not matter.
* `LaidClause.parse_laid`: what a clause with single spaces binds.
* `LaidClause.bindings_text`: the layout does not matter.
* `LaidClause.bindings_twoComments`: a layout that does.
-/

namespace EsModules

open Pattern

/-! ## Clauses with gaps -/

/-- Another name for an entry of a list, with the gaps around the word in front of it. -/
structure LocalAlias (γ : Type) where
  /-- The gap in front of the word `as`. -/
  front : γ
  /-- The gap behind it. -/
  behind : γ
  /-- The name in this module. -/
  name : Word

/-- What stands between two commas of a list: an entry with the gaps around it, or no entry. -/
inductive LaidItem (γ : Type)
  | entry (lead : γ) (source : Word) (alias? : Option (LocalAlias γ)) (trail : γ)
  | blank (gap : γ)

/-- What a clause binds besides the default export, with gaps: the whole module or some of its
exports. -/
inductive LaidBinding (γ : Type)
  | whole (front behind : γ) (name : Word)
  | named (first : LaidItem γ) (more : List (LaidItem γ))

/-- An import clause with a gap in front of each token and one behind the last. -/
inductive LaidClause (γ : Type)
  | default (lead : γ) (name : Word) (trail : γ)
  | further (lead : γ) (binding : LaidBinding γ) (trail : γ)
  | both (lead : γ) (name : Word) (front behind : γ) (binding : LaidBinding γ) (trail : γ)

variable {γ : Type}

/-! ### Tokens -/

/-- The word `as` and the name, each behind its gap. -/
def LocalAlias.pieces (a : LocalAlias γ) : List (γ × List Char) :=
  [(a.front, "as".toList), (a.behind, a.name.text)]

/-- The tokens of an item and the one that ends it. -/
def LaidItem.pieces (close : Char) : LaidItem γ → List (γ × List Char)
  | entry lead source alias? trail =>
    (lead, source.text) :: ((alias?.map LocalAlias.pieces).getD [] ++ [(trail, [close])])
  | blank gap => [(gap, [close])]

/-- The tokens of items up to the bracket that closes their list. -/
def LaidItem.listPieces : LaidItem γ → List (LaidItem γ) → List (γ × List Char)
  | i, [] => i.pieces '\x7d'
  | i, j :: is => i.pieces ',' ++ listPieces j is

/-- The tokens of a binding, of which the first stands behind a given gap. -/
def LaidBinding.pieces (lead : γ) : LaidBinding γ → List (γ × List Char)
  | whole front behind name => [(lead, ['*']), (front, "as".toList), (behind, name.text)]
  | named first more => (lead, ['\x7b']) :: first.listPieces more

namespace LaidClause

/-- The tokens of a clause, each behind its gap. -/
def pieces : LaidClause γ → List (γ × List Char)
  | default lead name _ => [(lead, name.text)]
  | further lead binding _ => binding.pieces lead
  | both lead name front behind binding _ =>
    (lead, name.text) :: (front, [',']) :: binding.pieces behind

/-- The gap behind the last token. -/
def trail : LaidClause γ → γ
  | default _ _ trail | further _ _ trail | both _ _ _ _ _ trail => trail

/-- The name of the default binding. -/
def name? : LaidClause γ → Option Word
  | default _ name _ | both _ name _ _ _ _ => some name
  | further _ _ _ => none

/-- What is bound besides the default export. -/
def binding? : LaidClause γ → Option (LaidBinding γ)
  | default _ _ _ => none
  | further _ binding _ | both _ _ _ _ binding _ => some binding

end LaidClause

/-! ### Gaps that must have a space -/

/-- The gaps between the words of an item. -/
def LaidItem.separators : LaidItem γ → List γ
  | entry _ _ alias? _ => (alias?.map fun a => [a.front, a.behind]).getD []
  | blank _ => []

/-- The gaps around the words `as` of a binding. -/
def LaidBinding.separators : LaidBinding γ → List γ
  | whole front behind _ => [front, behind]
  | named first more => (first :: more).flatMap LaidItem.separators

/-- The gaps around the words `as` of a clause. -/
def LaidClause.separators (c : LaidClause γ) : List γ :=
  (c.binding?.map LaidBinding.separators).getD []

namespace LaidClause

/-- The text of a clause with spaces and comments. -/
def text (c : LaidClause (List GapPiece)) : List Char := laid GapPiece.texts c.pieces c.trail

/-- The same tokens with one space in each gap. -/
def plain (c : LaidClause γ) : List Char := laid (fun _ => [' ']) c.pieces c.trail

end LaidClause

/-! ### What is bound -/

/-- A name and perhaps another one, with one space in each gap between the words. -/
def LaidItem.coreText (source : Word) (alias? : Option (LocalAlias γ)) : List Char :=
  source.text ++ (alias?.map fun a => " as ".toList ++ a.name.text).getD []

/-- What an item is read as. -/
def LaidItem.entry? : LaidItem γ → Option ClauseEntry
  | entry _ source alias? _ => ClauseEntry.parse? (coreText source alias?)
  | blank _ => none

/-- The entries that a binding asks for. -/
def LaidBinding.entries : LaidBinding γ → List ClauseEntry
  | whole _ _ _ => []
  | named first more => (first :: more).filterMap LaidItem.entry?

/-- The name of the whole module. -/
def LaidBinding.wholeName? : LaidBinding γ → Option (List Char)
  | whole _ _ name => some name.text
  | named _ _ => none

/-- What a clause binds, whatever its gaps. -/
def LaidClause.bindings (wanted : ClauseEntry → Bool) (c : LaidClause γ) : Bindings where
  defaultName := c.name?.map Word.text
  namespaceName := c.binding?.bind LaidBinding.wholeName?
  named := Bindings.collect (((c.binding?.map LaidBinding.entries).getD []).filter wanted)

/-! ## Words -/

namespace Word

theorem notMem (w : Word) {d : Char} (hd : isWordPart d = false) (hne : d ≠ '\\') : d ∉ w.text := by
  intro hmem
  rcases w.parts d hmem with h | h
  · rw [hd] at h
    cases h
  · exact hne h

theorem isSpace (w : Word) : ∀ c ∈ w.text, Ascii.isSpace c = false := fun c hc =>
  Bool.eq_false_iff.2 fun h => absurd (ExportRecord.isBlank_of_isSpace h) (by simp [w.bare c hc])

theorem isToken (w : Word) : IsToken w.text where
  ne_nil := w.text_ne_nil
  bare c hc := ⟨fun h => w.notMem rfl (by decide) (h ▸ hc), w.isSpace c hc⟩

end Word

theorem isToken_as : IsToken "as".toList := ⟨by decide, Text.forall_mem_of_all (by decide)⟩

theorem isToken_mark {c : Char} (hc : c ≠ '/' ∧ Ascii.isSpace c = false) : IsToken [c] :=
  ⟨List.cons_ne_nil _ _, List.forall_mem_singleton.2 hc⟩

namespace LaidItem

theorem isToken_pieces {close : Char} (hclose : IsToken [close]) (i : LaidItem γ) :
    ∀ p ∈ i.pieces close, IsToken p.2 := by
  cases i with
  | blank gap => exact List.forall_mem_singleton.2 hclose
  | entry lead source alias? trail =>
    refine List.forall_mem_cons.2 ⟨source.isToken, List.forall_mem_append.2
      ⟨?_, List.forall_mem_singleton.2 hclose⟩⟩
    cases alias? with
    | none => exact fun p hp => absurd hp List.not_mem_nil
    | some a =>
      exact List.forall_mem_cons.2 ⟨isToken_as, List.forall_mem_singleton.2 a.name.isToken⟩

theorem isToken_listPieces (i : LaidItem γ) (is : List (LaidItem γ)) :
    ∀ p ∈ i.listPieces is, IsToken p.2 := by
  induction is generalizing i with
  | nil => exact i.isToken_pieces (isToken_mark (by decide))
  | cons j is ih =>
    exact List.forall_mem_append.2 ⟨i.isToken_pieces (isToken_mark (by decide)), ih j⟩

end LaidItem

theorem LaidBinding.isToken_pieces (lead : γ) (b : LaidBinding γ) :
    ∀ p ∈ b.pieces lead, IsToken p.2 := by
  cases b with
  | whole front behind name =>
    exact List.forall_mem_cons.2 ⟨isToken_mark (by decide),
      List.forall_mem_cons.2 ⟨isToken_as, List.forall_mem_singleton.2 name.isToken⟩⟩
  | named first more =>
    exact List.forall_mem_cons.2 ⟨isToken_mark (by decide), first.isToken_listPieces more⟩

theorem LaidClause.isToken_pieces (c : LaidClause γ) : ∀ p ∈ c.pieces, IsToken p.2 := by
  cases c with
  | default lead name trail => exact List.forall_mem_singleton.2 name.isToken
  | further lead binding trail => exact binding.isToken_pieces lead
  | both lead name front behind binding trail =>
    exact List.forall_mem_cons.2 ⟨name.isToken, List.forall_mem_cons.2
      ⟨isToken_mark (by decide), binding.isToken_pieces behind⟩⟩

/-! ## Reading clauses with single spaces -/

/-- An entry is read without regard to the blanks around it. -/
theorem ClauseEntry.parse?_congr {x y : List Char} (h : Text.trim x = Text.trim y) :
    parse? x = parse? y := by
  unfold parse?
  rw [h]

/-- The text of an entry neither starts nor ends with a blank, so only the blanks around it are
dropped. -/
theorem LaidItem.trim_coreText (source : Word) (alias? : Option (LocalAlias γ)) {x y : List Char}
    (hx : ∀ c ∈ x, Text.isBlank c = true) (hy : ∀ c ∈ y, Text.isBlank c = true) :
    Text.trim (x ++ (coreText source alias? ++ y)) = coreText source alias? := by
  refine Text.trim_append hx hy (fun h => source.text_ne_nil (List.append_eq_nil_iff.1 h).1)
    (fun c hc => ?_) fun c hc => ?_
  · unfold coreText at hc
    rw [List.head?_append_of_ne_nil _ source.text_ne_nil] at hc
    exact source.bare c (List.mem_of_mem_head? hc)
  · unfold coreText at hc
    cases alias? with
    | none =>
      rw [Option.map_none, Option.getD_none, List.append_nil] at hc
      exact source.bare c (List.mem_of_mem_getLast? hc)
    | some a =>
      rw [Option.map_some, Option.getD_some, ← List.append_assoc,
        List.getLast?_append_of_ne_nil _ a.name.text_ne_nil] at hc
      exact a.name.bare c (List.mem_of_mem_getLast? hc)

/-- A mark that belongs to no word stands in no entry. -/
theorem LaidItem.notMem_coreText (source : Word) (alias? : Option (LocalAlias γ)) {d : Char}
    (hd : isWordPart d = false) (hback : d ≠ '\\') (hspace : d ≠ ' ') :
    d ∉ coreText source alias? := by
  unfold coreText
  rw [List.mem_append, not_or]
  refine ⟨source.notMem hd hback, ?_⟩
  cases alias? with
  | none => exact List.not_mem_nil
  | some a =>
    have hwords : d ∉ " as ".toList := by
      have hne (c : Char) (hc : isWordPart c = true) : d ≠ c := by
        rintro rfl
        rw [hd] at hc
        cases hc
      simp [hspace, hne 'a' rfl, hne 's' rfl]
    rw [Option.map_some, Option.getD_some, List.mem_append, not_or]
    exact ⟨hwords, a.name.notMem hd hback⟩

/-- The default binding up to what is bound besides, with the texts of its gaps. -/
def LaidClause.front (r : γ → List Char) : LaidClause γ → List Char
  | default lead name _ => r lead ++ name.text
  | further lead _ _ => r lead
  | both lead name front behind _ _ =>
    r lead ++ (name.text ++ (r front ++ (',' :: r behind)))

/-- The text of a binding, with the texts of its gaps. -/
def LaidBinding.text (r : γ → List Char) : LaidBinding γ → List Char
  | whole front behind name => '*' :: (r front ++ ("as".toList ++ (r behind ++ name.text)))
  | named first more => '\x7b' :: (first.listPieces more).flatMap fun p => r p.1 ++ p.2

section Read

variable {r : γ → List Char} (hr : ∀ g, ∀ c ∈ r g, c = ' ')
include hr

theorem isBlank_gap (g : γ) : ∀ c ∈ r g, Text.isBlank c = true := fun c hc => by
  rw [hr g c hc]
  rfl

theorem notMem_gap (g : γ) {d : Char} (hd : d ≠ ' ') : d ∉ r g := fun h => hd (hr g d h)

theorem Word.trim_gaps (w : Word) (g g' : γ) : Text.trim (r g ++ (w.text ++ r g')) = w.text :=
  Text.trim_append (isBlank_gap hr g) (isBlank_gap hr g') w.text_ne_nil
    (fun c hc => w.bare c (List.mem_of_mem_head? hc))
    fun c hc => w.bare c (List.mem_of_mem_getLast? hc)

namespace LaidItem

/-- An item is read as the text of its entry, if it has one. -/
theorem exists_text (i : LaidItem γ) (hsep : ∀ g ∈ i.separators, r g = [' ']) :
    ∃ text, (∀ close, (i.pieces close).flatMap (fun p => r p.1 ++ p.2) = text ++ [close]) ∧
      (∀ d, isWordPart d = false → d ≠ '\\' → d ≠ ' ' → d ∉ text) ∧
      ClauseEntry.parse? text = i.entry? := by
  cases i with
  | blank g =>
    refine ⟨r g, fun close => by simp [pieces], fun d _ _ hne => notMem_gap hr g hne, ?_⟩
    have htrim : Text.trim (r g) = Text.trim [] := Text.trim_of_blank (isBlank_gap hr g)
    rw [ClauseEntry.parse?_congr htrim]
    rfl
  | entry lead source alias? trail =>
    have hcore : r lead ++ (coreText source alias? ++ r trail) =
        (r lead ++ source.text) ++ ((alias?.map LocalAlias.pieces).getD []).flatMap
          (fun p => r p.1 ++ p.2) ++ r trail := by
      unfold coreText
      cases alias? with
      | none => simp
      | some a =>
        have hfront : r a.front = [' '] := hsep a.front (by simp [separators])
        have hbehind : r a.behind = [' '] := hsep a.behind (by simp [separators])
        simp [LocalAlias.pieces, hfront, hbehind]
    refine ⟨r lead ++ (coreText source alias? ++ r trail), fun close => ?_,
      fun d hd hback hne => ?_, ?_⟩
    · rw [hcore]
      simp [pieces]
    · simp only [List.mem_append, not_or]
      exact ⟨notMem_gap hr lead hne, notMem_coreText source alias? hd hback hne,
        notMem_gap hr trail hne⟩
    · have hnone : ∀ c ∈ ([] : List Char), Text.isBlank c = true := fun c hc =>
        absurd hc List.not_mem_nil
      have htrim := trim_coreText source alias? hnone hnone
      rw [List.nil_append, List.append_nil] at htrim
      have hgaps := trim_coreText source alias? (isBlank_gap hr lead) (isBlank_gap hr trail)
      exact ClauseEntry.parse?_congr (hgaps.trans htrim.symm)

/-- Items are read in order. -/
theorem exists_inner (i : LaidItem γ) (is : List (LaidItem γ))
    (hsep : ∀ g ∈ (i :: is).flatMap separators, r g = [' ']) :
    ∃ inner, (i.listPieces is).flatMap (fun p => r p.1 ++ p.2) = inner ++ ['\x7d'] ∧
      '\x7d' ∉ inner ∧ (Text.splitOn ',' inner).filterMap ClauseEntry.parse? =
        (i :: is).filterMap entry? := by
  induction is generalizing i with
  | nil =>
    obtain ⟨text, htext, hnot, hparse⟩ := i.exists_text hr fun g hg => hsep g (by simpa using hg)
    have hsplit : Text.splitOn ',' text = [text] := Text.splitWhere_of_forall fun c hc =>
      beq_false_of_ne fun h => hnot ',' rfl (by decide) (by decide) (h ▸ hc)
    refine ⟨text, htext _, hnot _ rfl (by decide) (by decide), ?_⟩
    rw [hsplit, List.filterMap_cons, hparse]
    rfl
  | cons j is ih =>
    obtain ⟨text, htext, hnot, hparse⟩ := i.exists_text hr fun g hg => hsep g (by simp [hg])
    obtain ⟨inner, hinner, hend, hentries⟩ := ih j fun g hg => hsep g (by
      rw [List.flatMap_cons, List.mem_append]
      exact .inr hg)
    have hsplit : Text.splitOn ',' text = [text] := Text.splitWhere_of_forall fun c hc =>
      beq_false_of_ne fun h => hnot ',' rfl (by decide) (by decide) (h ▸ hc)
    refine ⟨text ++ ',' :: inner, ?_, ?_, ?_⟩
    · rw [listPieces, List.flatMap_append, htext, hinner]
      simp
    · simp only [List.mem_append, List.mem_cons, not_or]
      exact ⟨hnot _ rfl (by decide) (by decide), by decide, hend⟩
    · have hcut : Text.splitOn ',' (text ++ ',' :: inner) =
          Text.splitOn ',' text ++ Text.splitOn ',' inner := Text.splitWhere_append_cut rfl _ _
      have hfirst : [text].filterMap ClauseEntry.parse? = [i].filterMap entry? := by
        rw [List.filterMap_cons, List.filterMap_cons, hparse]
        rfl
      rw [hcut, List.filterMap_append, hentries, hsplit, hfirst, ← List.filterMap_append]
      rfl

end LaidItem

omit hr in
/-- A clause is its default binding, what it binds besides, and the gap behind that. -/
theorem LaidClause.laid_eq (c : LaidClause γ) : laid r c.pieces c.trail =
    c.front r ++ ((c.binding?.map (LaidBinding.text r)).getD [] ++ r c.trail) := by
  cases c with
  | default lead name trail => simp [laid, pieces, front, binding?, LaidClause.trail]
  | further lead binding trail =>
    cases binding <;> simp [laid, pieces, front, binding?, LaidClause.trail, LaidBinding.pieces,
      LaidBinding.text]
  | both lead name front' behind binding trail =>
    cases binding <;> simp [laid, pieces, front, binding?, LaidClause.trail, LaidBinding.pieces,
      LaidBinding.text]

/-- A mark that belongs to no word and is no comma does not stand in front of what is bound
besides the default export. -/
theorem LaidClause.notMem_front (c : LaidClause γ) {d : Char} (hd : isWordPart d = false)
    (hback : d ≠ '\\') (hspace : d ≠ ' ') (hcomma : d ≠ ',') : d ∉ c.front r := by
  cases c with
  | default lead name trail =>
    simp only [front, List.mem_append, not_or]
    exact ⟨notMem_gap hr lead hspace, name.notMem hd hback⟩
  | further lead binding trail => exact notMem_gap hr lead hspace
  | both lead name gap behind binding trail =>
    simp only [front, List.mem_append, List.mem_cons, not_or]
    exact ⟨notMem_gap hr lead hspace, name.notMem hd hback, notMem_gap hr gap hspace, hcomma,
      notMem_gap hr behind hspace⟩

namespace LaidClause

/-- A clause without its list. -/
def outside (r : γ → List Char) (c : LaidClause γ) : List Char :=
  c.front r ++ match c.binding? with
    | some (.whole front behind name) => LaidBinding.text r (.whole front behind name) ++ r c.trail
    | _ => r c.trail

/-- A binding of the whole module has no list. -/
theorem notMem_whole (front behind : γ) (name : Word) :
    '\x7b' ∉ LaidBinding.text r (.whole front behind name) := by
  simp only [LaidBinding.text, List.mem_append, List.mem_cons, not_or]
  exact ⟨by decide, notMem_gap hr front (by decide), by decide, notMem_gap hr behind (by decide),
    name.notMem rfl (by decide)⟩

/-- Without its list a clause is its front, the name of the whole module and the gap at its end. -/
theorem replaceFirst_laid (c : LaidClause γ) (hsep : ∀ g ∈ c.separators, r g = [' ']) :
    Shape.bracedList.replaceFirst [] (laid r c.pieces c.trail) = c.outside r := by
  have hfront : '\x7b' ∉ c.front r :=
    c.notMem_front hr rfl (by decide) (by decide) (by decide)
  have htrail : '\x7b' ∉ r c.trail := notMem_gap hr _ (by decide)
  have hkeep {x : List Char} (hx : '\x7b' ∉ x) : Shape.bracedList.replaceFirst [] x = x :=
    replaceFirst_of_first? (Shape.bracedList_of_not_mem hx)
  rw [c.laid_eq]
  unfold outside
  unfold separators at hsep
  cases hbinding : c.binding? with
  | none => exact hkeep (by simp [hfront, htrail])
  | some binding =>
    cases binding with
    | whole front behind name =>
      exact hkeep (by simp [hfront, htrail, notMem_whole hr front behind name])
    | named first more =>
      rw [hbinding] at hsep
      obtain ⟨inner, hinner, hend, -⟩ := first.exists_inner hr more hsep
      obtain ⟨m, hm, hspan, -⟩ := Shape.exists_bracedList hfront hend (r c.trail)
      have hreplace := @replaceFirst_of_span _ _ [] _ _ _ _ hm hspan
      rw [← hinner] at hreplace
      exact hreplace

/-- The list of a clause is read in order. -/
theorem entries_laid (c : LaidClause γ) (hsep : ∀ g ∈ c.separators, r g = [' ']) :
    Bindings.entries (laid r c.pieces c.trail) = (c.binding?.map LaidBinding.entries).getD [] := by
  have hfront : '\x7b' ∉ c.front r :=
    c.notMem_front hr rfl (by decide) (by decide) (by decide)
  have htrail : '\x7b' ∉ r c.trail := notMem_gap hr _ (by decide)
  rw [c.laid_eq]
  unfold separators at hsep
  cases hbinding : c.binding? with
  | none => exact Bindings.entries_of_not_mem (by simp [hfront, htrail])
  | some binding =>
    cases binding with
    | whole front behind name =>
      have hwhole := notMem_whole hr front behind name
      exact Bindings.entries_of_not_mem (by simp [hfront, htrail, hwhole])
    | named first more =>
      rw [hbinding] at hsep
      obtain ⟨inner, hinner, hend, hentries⟩ := first.exists_inner hr more hsep
      have hread := Bindings.entries_append hfront hend (r c.trail)
      rw [← hinner] at hread
      exact hread.trans hentries

/-- The name of the whole module. -/
theorem namespaceIn_outside (c : LaidClause γ) (hsep : ∀ g ∈ c.separators, r g = [' ']) :
    Bindings.namespaceIn (c.outside r) = c.binding?.bind LaidBinding.wholeName? := by
  have hfront : '*' ∉ c.front r := c.notMem_front hr rfl (by decide) (by decide) (by decide)
  have htrail : '*' ∉ r c.trail := notMem_gap hr _ (by decide)
  unfold outside
  unfold separators at hsep
  cases hbinding : c.binding? with
  | none => exact Bindings.namespaceIn_of_not_mem (by simp [hfront, htrail])
  | some binding =>
    cases binding with
    | named first more => exact Bindings.namespaceIn_of_not_mem (by simp [hfront, htrail])
    | whole front behind name =>
      rw [hbinding] at hsep
      have hwords : LaidBinding.text r (.whole front behind name) =
          "* as ".toList ++ name.text := by
        rw [LaidBinding.text, hsep front (by simp [LaidBinding.separators]),
          hsep behind (by simp [LaidBinding.separators])]
        rfl
      dsimp only
      rw [hwords]
      refine Bindings.namespaceIn_append hfront name.text_ne_nil name.isSpace fun c hc => ?_
      rw [hr _ c (List.mem_of_mem_head? hc)]
      rfl

/-- The piece in front of the first comma, or the whole clause, is the default name. -/
theorem defaultIn_outside (c : LaidClause γ) :
    Bindings.defaultIn (c.outside r) = c.name?.map Word.text := by
  have hgap (g : γ) : ∀ c ∈ r g, (c == ',') = false := fun c hc =>
    beq_false_of_ne fun h => notMem_gap hr g (d := ',') (by decide) (h ▸ hc)
  have hname (w : Word) : ∀ c ∈ w.text, (c == ',') = false := fun c hc =>
    beq_false_of_ne fun h => w.comma_notMem (h ▸ hc)
  have hpiece (w : Word) (g g' : γ) {d : Char} (hd : isWordPart d = false) (hback : d ≠ '\\')
      (hspace : d ≠ ' ') : d ∉ r g ++ (w.text ++ r g') := by
    simp only [List.mem_append, not_or]
    exact ⟨notMem_gap hr g hspace, w.notMem hd hback, notMem_gap hr g' hspace⟩
  have hdefault (w : Word) (g g' : γ) {rest : List (List Char)} {cs : List Char}
      (hsplit : Text.splitOn ',' cs = (r g ++ (w.text ++ r g')) :: rest) :
      Bindings.defaultIn cs = some w.text := by
    rw [Bindings.defaultIn_of_splitOn hsplit ⟨hpiece w g g' rfl (by decide) (by decide),
      hpiece w g g' rfl (by decide) (by decide), hpiece w g g' rfl (by decide) (by decide)⟩,
      w.trim_gaps hr]
    exact if_neg (by simpa using w.text_ne_nil)
  have hone {x : List Char} (hx : ∀ c ∈ x, (c == ',') = false) : Text.splitOn ',' x = [x] :=
    Text.splitWhere_of_forall hx
  cases c with
  | default lead name trail =>
    have hwhole : (LaidClause.default lead name trail).outside r =
        r lead ++ (name.text ++ r trail) := List.append_assoc _ _ _
    rw [hwhole]
    refine hdefault name lead trail (hone ?_)
    exact List.forall_mem_append.2 ⟨hgap lead, List.forall_mem_append.2 ⟨hname name, hgap trail⟩⟩
  | further lead binding trail =>
    cases binding with
    | named first more =>
      have hblank : ∀ c ∈ r lead ++ r trail, Text.isBlank c = true :=
        List.forall_mem_append.2 ⟨isBlank_gap hr lead, isBlank_gap hr trail⟩
      have hnone {d : Char} (hd : d ≠ ' ') : d ∉ r lead ++ r trail := by
        simp [notMem_gap hr lead hd, notMem_gap hr trail hd]
      have hsplit := hone (List.forall_mem_append.2 ⟨hgap lead, hgap trail⟩)
      show Bindings.defaultIn (r lead ++ r trail) = none
      rw [Bindings.defaultIn_of_splitOn hsplit
        ⟨hnone (by decide), hnone (by decide), hnone (by decide)⟩, Text.trim_of_blank hblank]
      rfl
    | whole front behind name =>
      have hcomma : ∀ c ∈ r lead ++ (LaidBinding.text r (.whole front behind name) ++ r trail),
          (c == ',') = false := by
        simp only [LaidBinding.text, List.forall_mem_append, List.forall_mem_cons]
        exact ⟨hgap lead, ⟨rfl, hgap front, Text.forall_mem_of_all (by decide), hgap behind,
          hname name⟩, hgap trail⟩
      show Bindings.defaultIn
        (r lead ++ (LaidBinding.text r (.whole front behind name) ++ r trail)) = none
      unfold Bindings.defaultIn
      rw [hone hcomma]
      simp [LaidBinding.text]
  | both lead name front behind binding trail =>
    obtain ⟨rest, hrest⟩ : ∃ rest,
        (LaidClause.both lead name front behind binding trail).outside r =
          (r lead ++ (name.text ++ r front)) ++ ',' :: rest :=
      ⟨_, by simp only [outside, LaidClause.front, List.append_assoc, List.cons_append]; rfl⟩
    have hsplit : Text.splitOn ',' ((r lead ++ (name.text ++ r front)) ++ ',' :: rest) =
        (r lead ++ (name.text ++ r front)) :: Text.splitOn ',' rest := by
      unfold Text.splitOn
      rw [Text.splitWhere_append_cut rfl]
      refine congrArg (· ++ _) (hone ?_)
      exact List.forall_mem_append.2 ⟨hgap lead, List.forall_mem_append.2 ⟨hname name, hgap front⟩⟩
    exact hdefault name lead front (hrest ▸ hsplit)

/-- What a clause with single spaces binds. -/
theorem parse_laid (wanted : ClauseEntry → Bool) {x : List Char} (c : LaidClause γ)
    (hsep : ∀ g ∈ c.separators, r g = [' ']) (hx : Bindings.tidy x = laid r c.pieces c.trail) :
    Bindings.parse wanted x = c.bindings wanted := by
  unfold Bindings.parse
  rw [hx]
  dsimp only
  rw [c.replaceFirst_laid hr hsep, c.entries_laid hr hsep, c.namespaceIn_outside hr hsep,
    c.defaultIn_outside hr]
  rfl

end LaidClause

end Read

/-! ## All layouts -/

namespace LaidClause

open GapPiece

/-- Whether comments are cut out alone, so that each of them is cut out as it is. -/
def isCut (c : LaidClause (List GapPiece)) : Bool := areCut c.pieces c.trail

/-- Whether the words `as` stand between spaces: no comment is all that is in front of one or behind
it. -/
def isSpaced (c : LaidClause (List GapPiece)) : Bool := c.separators.all fun g => !(lefts g).isEmpty

/-- The plain layout is not changed by tidying it up. -/
theorem tidy_plain (c : LaidClause γ) : Bindings.tidy c.plain = c.plain := by
  let single : List GapPiece := [.space ' ' rfl]
  let ps : List (List GapPiece × List Char) := c.pieces.map fun p => (single, p.2)
  have hps : ∀ p ∈ ps, IsToken p.2 := by
    intro p hp
    obtain ⟨q, hq, rfl⟩ := List.mem_map.1 hp
    exact c.isToken_pieces q hq
  have hcut (qs : List (γ × List Char)) : areCut (qs.map fun p => (single, p.2)) single = true := by
    induction qs with
    | nil => rfl
    | cons q qs ih => exact ih
  have hlaid (render : List GapPiece → List Char) (hrender : render single = [' ']) :
      laid render ps single = c.plain := by
    simp [laid, plain, ps, List.flatMap_map, hrender]
  have htidy := Bindings.tidy_laid hps (hcut c.pieces)
  rwa [hlaid texts rfl, hlaid squeezed rfl] at htidy

theorem parse_text (c : LaidClause (List GapPiece)) (hcut : c.isCut = true)
    (hspaced : c.isSpaced = true) (wanted : ClauseEntry → Bool) :
    Bindings.parse wanted c.text = c.bindings wanted := by
  have hblank (g : List GapPiece) : ∀ c ∈ squeezed g, c = ' ' := by
    intro c hc
    unfold squeezed at hc
    split at hc
    · cases hc
    · exact List.mem_singleton.1 hc
  have hsep : ∀ g ∈ c.separators, squeezed g = [' '] := fun g hg => if_neg (by
    simpa using List.all_eq_true.1 hspaced g hg)
  exact c.parse_laid hblank wanted hsep (Bindings.tidy_laid c.isToken_pieces hcut)

theorem parse_plain (c : LaidClause γ) (wanted : ClauseEntry → Bool) :
    Bindings.parse wanted c.plain = c.bindings wanted :=
  @parse_laid _ (fun _ => [' ']) (fun _ _ hc => List.mem_singleton.1 hc) wanted _ c
    (fun _ _ => rfl) c.tidy_plain

/-- **Clauses are read without regard to their layout**, if comments are cut out alone and the words
`as` stand between spaces: the clause of a declaration binds the same values and the same types as
the clause with the same tokens that has one space in each gap. -/
theorem bindings_text (c : LaidClause (List GapPiece)) (hcut : c.isCut = true)
    (hspaced : c.isSpaced = true) (i : StaticImport) :
    Bindings.ofStatic { i with clause := c.text } = Bindings.ofStatic { i with clause := c.plain } ∧
      Bindings.ofTypes { i with clause := c.text } =
        Bindings.ofTypes { i with clause := c.plain } := by
  have hparse (wanted : ClauseEntry → Bool) :
      Bindings.parse wanted c.text = Bindings.parse wanted c.plain :=
    (c.parse_text hcut hspaced wanted).trans (c.parse_plain wanted).symm
  refine ⟨hparse _, ?_⟩
  unfold Bindings.ofTypes
  cases i.kind with
  | typeOnly => exact hparse _
  | value => exact hparse _

/-! ### Comments on one line -/

/-- A comment without line feeds and marks. -/
def note (text : List Char) (h : '\n' ∉ text ∧ ¬ "*/".toList <:+: text) : BlockBody :=
  ⟨text, h.1, h.2⟩

/-- The first name of the examples. -/
def nameA : Word := Identifier.word ⟨['a'], by decide⟩

/-- The second name of the examples. -/
def nameB : Word := Identifier.word ⟨['b'], by decide⟩

theorem isSpace_of_mem_blank : ∀ c ∈ [' '], Ascii.isSpace c = true :=
  Text.forall_mem_of_all (by decide)

/-- A clause with tabs, line feeds and comments in its gaps. -/
def commented : LaidClause (List GapPiece) :=
  let feed : GapPiece := .space '\n' rfl
  let notes : GapPiece := .blocks (note [' '] (by decide))
    [(⟨[' '], isSpace_of_mem_blank, by decide⟩, note ['x'] (by decide))]
  .both [] nameA [] [.line " */".toList (by decide)]
    (.named (.entry [notes] nameA (some ⟨[feed], [notes, feed, notes], nameB⟩) [])
      [.blank [.space '\t' rfl]]) [.space ' ' rfl]

theorem bindings_commented :
    commented.text = "a,// */\n\x7b/* */ /*x*/a\nas/* */ /*x*/\n/* */ /*x*/b,\t\x7d ".toList ∧
      commented.plain = " a , \x7b a as b , \x7d ".toList ∧ commented.isCut = true ∧
      commented.isSpaced = true ∧ ∀ i : StaticImport,
        Bindings.ofStatic { i with clause := commented.text } =
          Bindings.ofStatic { i with clause := commented.plain } :=
  have hcut : commented.isCut = true := by decide
  have hspaced : commented.isSpaced = true := by decide
  ⟨by decide, by decide +kernel, hcut, hspaced, fun i =>
    (commented.bindings_text hcut hspaced i).1⟩

/-- Two names, each with a comment behind it. -/
def twoComments : LaidClause (List GapPiece) :=
  let space : GapPiece := .space ' ' rfl
  let first : GapPiece := .blocks (note " x ".toList (by decide)) []
  let second : GapPiece := .blocks (note " y ".toList (by decide)) []
  .further [] (.named (.entry [space] nameA none [space, first])
    [.entry [space] nameB none [space, second, space]]) [space]

/-- Two comments on one line are cut out together with the name between them. -/
theorem bindings_twoComments :
    twoComments.text = "\x7b a /* x */, b /* y */ \x7d ".toList ∧ ∀ i : StaticImport,
      Bindings.ofStatic { i with clause := twoComments.text } = ⟨none, none, [(['a'], ['a'])]⟩ ∧
      Bindings.ofStatic { i with clause := twoComments.plain } =
        ⟨none, none, [(['a'], ['a']), (['b'], ['b'])]⟩ := by
  have htext : Bindings.parse (fun e => !e.isType) twoComments.text =
      ⟨none, none, [(['a'], ['a'])]⟩ := by decide
  have hplain : Bindings.parse (fun e => !e.isType) twoComments.plain =
      ⟨none, none, [(['a'], ['a']), (['b'], ['b'])]⟩ := by decide
  exact ⟨by decide, fun i => ⟨htext, hplain⟩⟩

end LaidClause

end EsModules
